import CodeGraph.Graph.DirectedFlowLevels

/-!
# The two halves of a directed flow

From a node that both sides have reached the links lead back to the seed and on to a sink.
-/
namespace CodeGraph.Graph.DirectedFlow

open Distance InsertionMap

variable {db : Database} {sources : NodeId → Prop} {s : Side} {k : Nat} {x : NodeId}

def HopJoins (db : Database) (a b : NodeId) (e : Edge) : Prop := Joins db a b e ∧ Hop db a b

abbrev Ahead (db : Database) (sources : NodeId → Prop) (k : Nat) (s : Side) : Prop :=
  Reached db (Hop db) (HopJoins db) sources k s

abbrev Back (db : Database) (sources : NodeId → Prop) (k : Nat) (s : Side) : Prop :=
  Reached db (fun b a => Hop db a b) (fun b a => HopJoins db a b) sources k s

theorem callees_hops (db : Database) : Neighbours db (Hop db) (HopJoins db) (calleesOf db) where
  sound a node e exists_ row flow :=
    have ⟨found, hop, joins⟩ := (calleesOf_neighbours db).sound a node e exists_ row flow
    ⟨found, hop, joins, hop⟩
  complete := (calleesOf_neighbours db).complete

theorem callers_hops (db : Database) :
    Neighbours db (fun b a => Hop db a b) (fun b a => HopJoins db a b) (callersOf db) where
  sound b node e exists_ row flow :=
    have ⟨found, hop, joins⟩ := (callersOf_neighbours db).sound b node e exists_ row flow
    ⟨found, hop, joins, hop⟩
  complete := (callersOf_neighbours db).complete

def HopFollows (db : Database) (s t : FlowStep) : Prop :=
  ∃ e, t.edge = some e ∧ HopJoins db s.node.id t.node.id e

def Stored (db : Database) (steps : List FlowStep) : Prop :=
  ∀ t ∈ steps, db.getNodeById t.node.id = some t.node

theorem links_of_key (there : x ∈ s.keys) : ∃ link, lookup s.links x = some link := by
  cases found : lookup s.links x with
  | none => exact absurd there (lookup_none.mp found)
  | some link => exact ⟨link, rfl⟩

theorem key_nonempty {step : NodeId → NodeId → Prop} {joins : NodeId → NodeId → Edge → Prop}
    (named : ∀ n ∈ db.nodes, n.id ≠ "") (reached : Reached db step joins sources k s)
    (there : x ∈ s.keys) : x ≠ "" := by
  obtain ⟨n, -, found⟩ := reached.nodes x there
  rw [← Database.getNodeById_id found]
  exact named n (Database.getNodeById_mem found)

def IsSeed (seed : Node) (x : NodeId) : Prop := x = seed.id

theorem wayTo_spec {seed : Node} (named : ∀ n ∈ db.nodes, n.id ≠ "")
    (ahead : Ahead db (IsSeed seed) k s) (stored : db.getNodeById seed.id = some seed) {m fuel : Nat}
    (le : m ≤ k) (distance : IsSourceDistance (Hop db) (IsSeed seed) x m) (enough : m + 2 ≤ fuel) :
    ∃ steps, s.wayTo fuel (some x) = some steps ∧ steps.length = m + 1 ∧
      steps.head? = some ⟨seed, none⟩ ∧ (∃ last, steps.getLast? = some last ∧ last.node.id = x) ∧
      steps.IsChain (HopFollows db) ∧ Stored db steps := by
  induction m generalizing x fuel with
  | zero =>
    obtain ⟨fuel, rfl⟩ : ∃ n, fuel = n + 2 := ⟨fuel - 2, by omega⟩
    have start : IsSeed seed x := sourceDistance_zero.mp distance
    obtain rfl : x = seed.id := start
    have there := (ahead.mem_keys seed.id).mpr ⟨0, le, distance⟩
    obtain ⟨link, linked⟩ := links_of_key there
    obtain ⟨n, node, found⟩ := ahead.nodes seed.id there
    have same : n = seed := Option.some.inj (found.symm.trans stored)
    subst same
    cases link with
    | some link =>
      obtain ⟨-, m, -, next⟩ := ahead.links _ link.1 link.2 linked
      have clash := next.unique distance
      omega
    | none =>
      rw [Side.wayTo, if_neg (key_nonempty named ahead there), linked, node]
      refine ⟨[⟨n, none⟩], rfl, rfl, rfl, ⟨_, rfl, rfl⟩, List.isChain_singleton _, ?_⟩
      intro t listed
      rw [List.mem_singleton.mp listed]
      exact stored
  | succ m ih =>
    obtain ⟨fuel, rfl⟩ : ∃ n, fuel = n + 1 := ⟨fuel - 1, by omega⟩
    have there := (ahead.mem_keys x).mpr ⟨m + 1, le, distance⟩
    obtain ⟨link, linked⟩ := links_of_key there
    obtain ⟨n, node, found⟩ := ahead.nodes x there
    have own : n.id = x := Database.getNodeById_id found
    cases link with
    | none =>
      have clash := (sourceDistance_zero.mpr (ahead.starts x linked)).unique distance
      omega
    | some link =>
      obtain ⟨p, e⟩ := link
      obtain ⟨edge, m', near, next⟩ := ahead.links x p e linked
      have same : m' = m := by
        have equal := next.unique distance
        omega
      subst same
      obtain ⟨steps, returned, length, head, ⟨last, final, id⟩, chain, kept⟩ :=
        @ih p fuel (by omega) near (by omega)
      rw [Side.wayTo, if_neg (key_nonempty named ahead there), linked, node]
      simp only [Option.map_some, returned]
      refine ⟨_, rfl, by simp [length], ?_, ⟨⟨n, some e⟩, by simp, own⟩, ?_, ?_⟩
      · rw [List.head?_append, head]
        rfl
      · rw [List.isChain_append]
        refine ⟨chain, List.isChain_singleton _, ?_⟩
        intro before is after_ first
        cases final.symm.trans is
        cases first
        exact ⟨e, rfl, by rw [id, own]; exact edge⟩
      · exact forall_snoc kept (own.symm ▸ found)

theorem wayFrom_spec {targets : NodeId → Prop} (back : Back db targets k s) {n fuel : Nat} (le : n ≤ k)
    (distance : IsSourceDistance (fun b a => Hop db a b) targets x n) (enough : n + 1 ≤ fuel) :
    ∃ steps, s.wayFrom fuel (lookup s.links x).join = some steps ∧ steps.length = n ∧
      Stored db steps ∧ ∀ first : FlowStep, first.node.id = x →
        (first :: steps).IsChain (HopFollows db) ∧
        ∃ last, (first :: steps).getLast? = some last ∧ targets last.node.id := by
  induction n generalizing x fuel with
  | zero =>
    obtain ⟨fuel, rfl⟩ : ∃ n, fuel = n + 1 := ⟨fuel - 1, by omega⟩
    have target := sourceDistance_zero.mp distance
    have there := (back.mem_keys x).mpr ⟨0, le, distance⟩
    obtain ⟨link, linked⟩ := links_of_key there
    cases link with
    | some link =>
      obtain ⟨-, m, -, next⟩ := back.links _ link.1 link.2 linked
      have clash := next.unique distance
      omega
    | none =>
      rw [linked]
      refine ⟨[], rfl, rfl, fun t none_ => (nomatch none_), fun first is => ?_⟩
      exact ⟨List.isChain_singleton _, first, rfl, is ▸ target⟩
  | succ n ih =>
    obtain ⟨fuel, rfl⟩ : ∃ m, fuel = m + 1 := ⟨fuel - 1, by omega⟩
    have there := (back.mem_keys x).mpr ⟨n + 1, le, distance⟩
    obtain ⟨link, linked⟩ := links_of_key there
    cases link with
    | none =>
      have clash := (sourceDistance_zero.mpr (back.starts x linked)).unique distance
      omega
    | some link =>
      obtain ⟨p, e⟩ := link
      obtain ⟨edge, n', near, next⟩ := back.links x p e linked
      have same : n' = n := by
        have equal := next.unique distance
        omega
      subst same
      obtain ⟨node, listed, found⟩ := back.nodes p ((back.mem_keys p).mpr ⟨n', by omega, near⟩)
      have own : node.id = p := Database.getNodeById_id found
      obtain ⟨steps, returned, length, kept, rest⟩ := @ih p fuel (by omega) near (by omega)
      obtain ⟨chain, last, final, target⟩ := rest ⟨node, some e⟩ own
      rw [linked, Option.join_some, Side.wayFrom, listed]
      simp only [returned, Option.map_some]
      refine ⟨_, rfl, by simp [length], ?_, fun first is => ⟨?_, last, ?_, target⟩⟩
      · intro t member
        rcases List.mem_cons.mp member with rfl | member
        · exact own.symm ▸ found
        · exact kept t member
      · refine List.isChain_cons_cons.mpr ⟨⟨e, rfl, ?_⟩, chain⟩
        rw [is, own]
        exact edge
      · rw [List.getLast?_cons_cons]
        exact final

end CodeGraph.Graph.DirectedFlow
