import CodeGraph.Graph.DirectedFlowSides

/-!
# The levels of one side

A side that has been expanded has reached the nodes up to a distance from where it began.
-/
namespace CodeGraph.Graph.DirectedFlow

open Distance InsertionMap

variable {db : Database} {step : NodeId → NodeId → Prop} {joins : NodeId → NodeId → Edge → Prop}
  {sources : NodeId → Prop} {neighbours : NodeId → List (Node × Edge)} {s t : Side} {k : Nat}
  {x : NodeId}

/-- What a side has reached after `k` levels. -/
structure Reached (db : Database) (step : NodeId → NodeId → Prop)
    (joins : NodeId → NodeId → Edge → Prop) (sources : NodeId → Prop) (k : Nat) (s : Side) : Prop where
  mem_keys : ∀ x, x ∈ s.keys ↔ ∃ m ≤ k, IsSourceDistance step sources x m
  mem_front : ∀ x, x ∈ s.front.map Node.id ↔ IsSourceDistance step sources x k
  front : ∀ n ∈ s.front, db.getNodeById n.id = some n
  nodes : ∀ x ∈ s.keys, ∃ n, lookup s.nodes x = some n ∧ db.getNodeById x = some n
  starts : ∀ x, lookup s.links x = some none → sources x
  links : ∀ x p e, lookup s.links x = some (some (p, e)) → joins p x e ∧
    ∃ m, IsSourceDistance step sources p m ∧ IsSourceDistance step sources x (m + 1)

def Comes (pairs : List (Node × (Node × Edge))) (x : NodeId) : Prop :=
  ∃ p ∈ pairs, p.2.2.kind ∈ FLOW_EDGE_KINDS ∧ p.2.1.id = x

structure After (s : Side) (pairs : List (Node × (Node × Edge))) (t : Side) : Prop where
  mem_keys : ∀ x, x ∈ t.keys ↔ x ∈ s.keys ∨ Comes pairs x
  old : ∀ x ∈ s.keys, lookup t.links x = lookup s.links x ∧ lookup t.nodes x = lookup s.nodes x
  new : ∀ x ∉ s.keys, x ∈ t.keys → ∃ p ∈ pairs, p.2.2.kind ∈ FLOW_EDGE_KINDS ∧ p.2.1.id = x ∧
    lookup t.links x = some (some (p.1.id, p.2.2)) ∧ lookup t.nodes x = some p.2.1
  mem_front : ∀ x, x ∈ t.front.map Node.id ↔ x ∉ s.keys ∧ Comes pairs x
  front : ∀ n ∈ t.front, ∃ p ∈ pairs, p.2.2.kind ∈ FLOW_EDGE_KINDS ∧ p.2.1 = n

theorem comes_concat {pairs : List (Node × (Node × Edge))} {p : Node × (Node × Edge)} :
    Comes (pairs ++ [p]) x ↔ Comes pairs x ∨ p.2.2.kind ∈ FLOW_EDGE_KINDS ∧ p.2.1.id = x := by
  simp [Comes, or_and_right, exists_or]

theorem visit_after {pairs : List (Node × (Node × Edge))} (after : After s pairs t)
    (p : Node × (Node × Edge)) : After s (pairs ++ [p]) (t.visit p.1 p.2) := by
  rw [Side.visit]
  split
  next skipped =>
    -- an edge that no flow rides, or a node that has been reached
    have covered : ∀ x, x ∉ s.keys → (Comes (pairs ++ [p]) x ↔ Comes pairs x) := by
      intro x outside
      rw [comes_concat]
      constructor
      · rintro (comes | ⟨flow, rfl⟩)
        · exact comes
        · have there := skipped.resolve_left (not_not_intro flow)
          exact ((after.mem_keys _).mp there).resolve_left outside
      · exact Or.inl
    constructor
    · intro x
      rw [after.mem_keys]
      by_cases old : x ∈ s.keys
      · simp [old]
      · rw [covered x old]
    · exact after.old
    · intro x outside there
      obtain ⟨q, listed, rest⟩ := after.new x outside there
      exact ⟨q, List.mem_append_left _ listed, rest⟩
    · intro x
      rw [after.mem_front]
      constructor
      · rintro ⟨outside, comes⟩
        exact ⟨outside, (covered x outside).mpr comes⟩
      · rintro ⟨outside, comes⟩
        exact ⟨outside, (covered x outside).mp comes⟩
    · intro n listed
      obtain ⟨q, member, rest⟩ := after.front n listed
      exact ⟨q, List.mem_append_left _ member, rest⟩
  next fresh =>
    rw [not_or, not_not] at fresh
    obtain ⟨flow, absent⟩ := fresh
    have outside : p.2.1.id ∉ s.keys := fun old => absent ((after.mem_keys _).mpr (Or.inl old))
    have last : p ∈ pairs ++ [p] := List.mem_append_right _ List.mem_cons_self
    constructor
    · intro x
      rw [Side.keys, mem_keys_assign, ← Side.keys, after.mem_keys, comes_concat, or_assoc]
      simp only [flow, true_and, eq_comm]
    · intro x old
      have other : x ≠ p.2.1.id := fun same => outside (same ▸ old)
      simp only [lookup_assign, if_neg other]
      exact after.old x old
    · intro x new there
      by_cases here : x = p.2.1.id
      · subst here
        refine ⟨p, last, flow, rfl, ?_, ?_⟩
        · simp only [lookup_assign, if_true]
        · simp only [lookup_assign, if_true]
      · rw [Side.keys, mem_keys_assign] at there
        obtain ⟨q, listed, rest⟩ := after.new x new (there.resolve_right here)
        refine ⟨q, List.mem_append_left _ listed, ?_⟩
        simp only [lookup_assign, if_neg here]
        exact rest
    · intro x
      rw [List.map_append, List.mem_append, after.mem_front, comes_concat]
      constructor
      · rintro (⟨new, comes⟩ | here)
        · exact ⟨new, Or.inl comes⟩
        · have same : x = p.2.1.id := by simpa using here
          exact ⟨same ▸ outside, Or.inr ⟨flow, same.symm⟩⟩
      · rintro ⟨new, comes | ⟨-, rfl⟩⟩
        · exact Or.inl ⟨new, comes⟩
        · exact Or.inr (by simp)
    · intro n listed
      rcases mem_snoc.mp listed with old | new
      · obtain ⟨q, member, rest⟩ := after.front n old
        exact ⟨q, List.mem_append_left _ member, rest⟩
      · exact ⟨p, last, flow, new.symm⟩

def pairsOf (neighbours : NodeId → List (Node × Edge)) (front : List Node) :
    List (Node × (Node × Edge)) :=
  front.flatMap fun node => (neighbours node.id).map fun c => (node, c)

theorem expand_after (neighbours : NodeId → List (Node × Edge)) (s : Side) :
    After s (pairsOf neighbours s.front) (s.expand neighbours) := by
  have flat : s.expand neighbours =
      (pairsOf neighbours s.front).foldl (fun t p => t.visit p.1 p.2) { s with front := [] } := by
    rw [Side.expand, pairsOf, List.foldl_flatMap]
    simp only [List.foldl_map]
  rw [flat]
  induction pairsOf neighbours s.front using List.reverseRecOn with
  | nil =>
    constructor
    · simp [Comes, Side.keys]
    · exact fun _ _ => ⟨rfl, rfl⟩
    · exact fun x outside there => absurd there outside
    · simp [Comes]
    · exact fun n none_ => nomatch none_
  | append_singleton pairs p ih =>
    rw [List.foldl_append]
    exact visit_after ih p

theorem expand_reached (rows : Neighbours db step joins neighbours)
    (reached : Reached db step joins sources k s) :
    Reached db step joins sources (k + 1) (s.expand neighbours) := by
  have after := expand_after neighbours s
  generalize s.expand neighbours = t at after
  -- what comes is what one step leads to
  have front : ∀ p ∈ pairsOf neighbours s.front, p.2.2.kind ∈ FLOW_EDGE_KINDS →
      db.getNodeById p.2.1.id = some p.2.1 ∧ step p.1.id p.2.1.id ∧ joins p.1.id p.2.1.id p.2.2 ∧
        IsSourceDistance step sources p.1.id k := by
    intro p listed flow
    obtain ⟨node, member, neighbour⟩ := List.mem_flatMap.mp listed
    obtain ⟨c, row, rfl⟩ := List.mem_map.mp neighbour
    have there : (db.getNodeById node.id).isSome := by
      rw [reached.front node member]
      rfl
    obtain ⟨found, leads, edge⟩ := rows.sound node.id c.1 c.2 there row flow
    exact ⟨found, leads, edge, (reached.mem_front _).mp (List.mem_map.mpr ⟨node, member, rfl⟩)⟩
  have comes : ∀ x, x ∉ s.keys → (Comes (pairsOf neighbours s.front) x ↔
      IsSourceDistance step sources x (k + 1)) := by
    intro x outside
    have later : ∀ m ≤ k, ¬IsSourceDistance step sources x m :=
      fun m le near => outside ((reached.mem_keys x).mpr ⟨m, le, near⟩)
    rw [sourceDistance_succ_iff]
    constructor
    · rintro ⟨p, listed, flow, rfl⟩
      obtain ⟨-, leads, -, near⟩ := front p listed flow
      exact ⟨⟨p.1.id, near, leads⟩, later⟩
    · rintro ⟨⟨c, near, leads⟩, -⟩
      obtain ⟨node, member, rfl⟩ := List.mem_map.mp ((reached.mem_front c).mpr near)
      have other : node.id ≠ x := fun same => later k (Nat.le_refl k) (same ▸ near)
      obtain ⟨row, listed, flow, rfl⟩ := rows.complete node.id x leads other
      exact ⟨(node, row), List.mem_flatMap.mpr ⟨node, member, List.mem_map.mpr ⟨row, listed, rfl⟩⟩,
        flow, rfl⟩
  have far : ∀ x, IsSourceDistance step sources x (k + 1) → x ∉ s.keys := by
    intro x further old
    obtain ⟨m, le, near⟩ := (reached.mem_keys x).mp old
    have same := near.unique further
    omega
  constructor
  · intro x
    rw [after.mem_keys]
    constructor
    · intro there
      by_cases old : x ∈ s.keys
      · obtain ⟨m, le, near⟩ := (reached.mem_keys x).mp old
        exact ⟨m, by omega, near⟩
      · exact ⟨k + 1, Nat.le_refl _, (comes x old).mp (there.resolve_left old)⟩
    · rintro ⟨m, le, near⟩
      by_cases last : m = k + 1
      · subst last
        exact Or.inr ((comes x (far x near)).mpr near)
      · exact Or.inl ((reached.mem_keys x).mpr ⟨m, by omega, near⟩)
  · intro x
    rw [after.mem_front]
    constructor
    · rintro ⟨outside, new⟩
      exact (comes x outside).mp new
    · exact fun near => ⟨far x near, (comes x (far x near)).mpr near⟩
  · intro n listed
    obtain ⟨p, member, flow, rfl⟩ := after.front n listed
    exact (front p member flow).1
  · intro x there
    by_cases old : x ∈ s.keys
    · rw [(after.old x old).2]
      exact reached.nodes x old
    · obtain ⟨p, listed, flow, rfl, -, node⟩ := after.new x old there
      exact ⟨p.2.1, node, (front p listed flow).1⟩
  · intro x none_
    by_cases old : x ∈ s.keys
    · rw [(after.old x old).1] at none_
      exact reached.starts x none_
    · have there : x ∈ t.keys := by
        by_contra absent
        rw [lookup_none.mpr absent] at none_
        cases none_
      obtain ⟨p, -, -, -, link, -⟩ := after.new x old there
      rw [link] at none_
      cases none_
  · intro x p e link
    by_cases old : x ∈ s.keys
    · rw [(after.old x old).1] at link
      exact reached.links x p e link
    · have there : x ∈ t.keys := by
        by_contra absent
        rw [lookup_none.mpr absent] at link
        cases link
      obtain ⟨q, listed, flow, rfl, link', -⟩ := after.new x old there
      rw [link'] at link
      cases link
      obtain ⟨-, -, edge, near⟩ := front q listed flow
      exact ⟨edge, k, near, (comes _ old).mp ⟨q, listed, flow, rfl⟩⟩

end CodeGraph.Graph.DirectedFlow
