import CodeGraph.Graph.DirectedFlowHalves

/-!
# The directed flow is shortest

The sides meet as soon as the levels laid are the length of a shortest path of first rows; so what
is found is a shortest path exactly if some shortest path is one of first rows.
-/
namespace CodeGraph.Graph.DirectedFlow

open Distance InsertionMap

variable {db : Database} {seed : Node} {sinks : List NodeId} {maxHops i j : Nat} {forward backward : Side}
  {x : NodeId}

def IsSink (db : Database) (sinks : List NodeId) (x : NodeId) : Prop :=
  x ∈ sinks ∧ (db.getNodeById x).isSome

theorem walk_of_meet (ahead : Ahead db (IsSeed seed) i forward)
    (back : Back db (IsSink db sinks) j backward) (first : x ∈ forward.keys)
    (second : x ∈ backward.keys) : ∃ m n t, m ≤ i ∧ n ≤ j ∧
      IsSourceDistance (Hop db) (IsSeed seed) x m ∧
      IsSourceDistance (fun b a => Hop db a b) (IsSink db sinks) x n ∧
      IsSink db sinks t ∧ Walk (Hop db) seed.id (m + n) t := by
  obtain ⟨m, le, near⟩ := (ahead.mem_keys x).mp first
  obtain ⟨n, le', near'⟩ := (back.mem_keys x).mp second
  obtain ⟨⟨a, source, walk⟩, -⟩ := id near
  obtain ⟨⟨t, target, walk'⟩, -⟩ := id near'
  have start : a = seed.id := source
  subst start
  exact ⟨m, n, t, le, le', near, near', target, walk.append walk'.reverse⟩

/-- A path that is no longer than the levels laid has a node of both sides. -/
theorem meet_of_walk (ahead : Ahead db (IsSeed seed) i forward)
    (back : Back db (IsSink db sinks) j backward) {n : Nat} {t : NodeId} (target : IsSink db sinks t)
    (walk : Walk (Hop db) seed.id n t) (le : n ≤ i + j) : ∃ x ∈ forward.keys, x ∈ backward.keys := by
  obtain ⟨x, first, rest⟩ := walk.split (Nat.min_le_right i n)
  have start : IsSeed seed seed.id := rfl
  obtain ⟨m, le', near⟩ := first.sourceDistance start
  obtain ⟨m', le'', near'⟩ := rest.reverse.sourceDistance target
  exact ⟨x, (ahead.mem_keys x).mpr ⟨m, by omega, near⟩, (back.mem_keys x).mpr ⟨m', by omega, near'⟩⟩

inductive Answers (db : Database) (seed : Node) (sinks : List NodeId) (maxHops : Nat) :
    Outcome → Prop where
  | capped : Answers db seed sinks maxHops .capped
  | nothing (none_ : ∀ n t, n + 1 ≤ maxHops → IsSink db sinks t → ¬Walk (Hop db) seed.id n t) :
      Answers db seed sinks maxHops .nothing
  | found {steps : List FlowStep} {n : Nat} {t : NodeId} (path : FlowPath db seed sinks steps)
      (length : steps.length = n + 1) (few : n + 1 ≤ maxHops) (target : IsSink db sinks t)
      (walk : Walk (Hop db) seed.id n t)
      (shortest : ∀ m t, IsSink db sinks t → Walk (Hop db) seed.id m t → n ≤ m) :
      Answers db seed sinks maxHops (.found steps)

theorem joinAt_spec (named : ∀ n ∈ db.nodes, n.id ≠ "") (stored : db.getNodeById seed.id = some seed)
    (ahead : Ahead db (IsSeed seed) i forward) (back : Back db (IsSink db sinks) j backward)
    (first : x ∈ forward.keys) (second : x ∈ backward.keys) (some_ : 1 ≤ i + j)
    (few : i + j + 1 ≤ maxHops)
    (least : ∀ n t, IsSink db sinks t → Walk (Hop db) seed.id n t → i + j ≤ n) :
    ∃ out, joinAt sinks maxHops forward backward x = some out ∧ Answers db seed sinks maxHops out := by
  obtain ⟨m, n, t, le, le', near, near', target, walk⟩ := walk_of_meet ahead back first second
  have long := least _ t target walk
  have whole : m + n = i + j := by omega
  have fuel : m + 2 ≤ forward.links.length + 1 := by
    have below : m < forward.keys.length := near.lt_length fun c d le'' near'' =>
      (ahead.mem_keys c).mpr ⟨d, by omega, near''⟩
    rw [Side.keys, List.length_map] at below
    omega
  have fuel' : n + 1 ≤ backward.links.length + 1 := by
    have below : n < backward.keys.length := near'.lt_length fun c d le'' near'' =>
      (back.mem_keys c).mpr ⟨d, by omega, near''⟩
    rw [Side.keys, List.length_map] at below
    omega
  obtain ⟨start, came, length, head, ⟨mid, final, own⟩, chain, kept⟩ :=
    wayTo_spec named ahead stored le near fuel
  obtain ⟨rest, went, length', kept', onward⟩ := wayFrom_spec back le' near' fuel'
  obtain ⟨chain', last, final', sink⟩ := onward mid own
  obtain ⟨front, parts⟩ : ∃ front, start = front ++ [mid] :=
    List.getLast?_eq_some_iff.mp final
  -- the halves share the node in the middle
  have steps : start ++ rest = front ++ mid :: rest := by
    rw [parts, List.append_assoc, List.singleton_append]
  have long' : (start ++ rest).length = m + n + 1 := by
    rw [List.length_append, length, length']
    omega
  have last' : (start ++ rest).getLast? = some last := by
    rw [steps, List.getLast?_append, final']
    rfl
  have hops : (start ++ rest).IsChain (HopFollows db) := by
    rw [steps, List.isChain_split]
    exact ⟨parts ▸ chain, chain'⟩
  have ids : ((start ++ rest).map fun s => s.node.id).IsChain (Hop db) := by
    rw [List.isChain_map]
    refine hops.imp fun s t follows => ?_
    obtain ⟨e, _, joins⟩ := follows
    exact joins.2
  have head' : (start ++ rest).head? = some ⟨seed, none⟩ := by
    rw [List.head?_append, head]
    rfl
  have path : FlowPath db seed sinks (start ++ rest) := by
    constructor
    · exact head'
    · exact ⟨last, last', sink.1⟩
    · refine hops.imp fun s t follows => ?_
      obtain ⟨e, edge, joins⟩ := follows
      exact ⟨e, edge, joins.1⟩
    · intro s listed
      rcases List.mem_append.mp listed with early | late
      · exact kept s early
      · exact kept' s late
    · apply @nodup_of_shortest _ (Hop db) seed.id last.node.id _ (IsSink db sinks) ids
      · rw [List.head?_map, head']
        rfl
      · rw [List.getLast?_map, last']
        rfl
      · exact sink
      · intro d t' target' walk'
        have other := least d t' target' walk'
        rw [List.length_map, long']
        omega
  refine ⟨.found (start ++ rest), ?_, .found path long' (by omega) target walk ?_⟩
  · have two : ¬((start ++ rest).length < 2 ∨ last.node.id ∉ sinks) := by
      rintro (short | outside)
      · omega
      · exact outside sink.1
    have fits : (start ++ rest).length ≤ maxHops := by omega
    simp only [joinAt, came, went, Option.bind_eq_bind, Option.bind_some, last', if_neg two,
      if_pos fits]
  · intro d t' target' walk'
    have other := least d t' target' walk'
    omega

theorem seedSide_ahead (stored : db.getNodeById seed.id = some seed) :
    Ahead db (IsSeed seed) 0 (seedSide seed) := by
  have starts : ∀ x, x = seed.id ↔ IsSourceDistance (Hop db) (IsSeed seed) x 0 :=
    fun x => (@sourceDistance_zero _ (Hop db) (IsSeed seed) x).symm
  constructor
  · intro x
    have keys : x ∈ (seedSide seed).keys ↔ x = seed.id := List.mem_singleton
    rw [keys, starts]
    constructor
    · exact fun near => ⟨0, Nat.le_refl 0, near⟩
    · rintro ⟨m, le, near⟩
      rwa [Nat.le_zero.mp le] at near
  · intro x
    have front : x ∈ (seedSide seed).front.map Node.id ↔ x = seed.id := List.mem_singleton
    rw [front, starts]
  · intro n listed
    have same : n = seed := List.mem_singleton.mp listed
    exact same ▸ stored
  · intro x there
    have same : x = seed.id := List.mem_singleton.mp there
    subst same
    exact ⟨seed, by simp [seedSide, lookup], stored⟩
  · intro x none_
    by_contra other
    have apart : seed.id ≠ x := fun same => other same.symm
    simp [seedSide, lookup, apart] at none_
  · intro x p e link
    by_cases same : seed.id = x
    · simp [seedSide, lookup, same] at link
    · simp [seedSide, lookup, same] at link

structure Laid (db : Database) (sinks : List NodeId) (s : Side) : Prop where
  mem_keys : ∀ x, x ∈ s.keys ↔ IsSink db sinks x
  mem_front : ∀ x, x ∈ s.front.map Node.id ↔ IsSink db sinks x
  front : ∀ n ∈ s.front, db.getNodeById n.id = some n
  nodes : ∀ x ∈ s.keys, ∃ n, lookup s.nodes x = some n ∧ db.getNodeById x = some n
  unlinked : ∀ x link, lookup s.links x = some link → link = none

theorem sinkSide_laid (db : Database) (sinks : List NodeId) : Laid db sinks (sinkSide db sinks) := by
  induction sinks using List.reverseRecOn with
  | nil =>
    constructor
    · simp [sinkSide, Side.keys, IsSink]
    · simp [sinkSide, IsSink]
    · exact fun n none_ => by cases none_
    · exact fun x none_ => by cases none_
    · exact fun x link none_ => by cases none_
  | append_singleton sinks id ih =>
    rw [sinkSide, List.foldl_append, List.foldl_cons, List.foldl_nil, ← sinkSide]
    cases found : db.getNodeById id with
    | none =>
      have same : ∀ x, IsSink db (sinks ++ [id]) x ↔ IsSink db sinks x := by
        intro x
        simp only [IsSink, List.mem_append, List.mem_singleton, or_and_right, or_iff_left_iff_imp]
        rintro ⟨rfl, exists_⟩
        rw [found] at exists_
        cases exists_
      constructor
      · exact fun x => (ih.mem_keys x).trans (same x).symm
      · exact fun x => (ih.mem_front x).trans (same x).symm
      · exact ih.front
      · exact ih.nodes
      · exact ih.unlinked
    | some node =>
      have own : node.id = id := Database.getNodeById_id found
      have more : ∀ x, IsSink db (sinks ++ [id]) x ↔ IsSink db sinks x ∨ x = id := by
        intro x
        simp only [IsSink, List.mem_append, List.mem_singleton, or_and_right]
        apply or_congr_right
        constructor
        · exact And.left
        · rintro rfl
          exact ⟨rfl, by rw [found]; rfl⟩
      constructor
      · intro x
        rw [Side.keys, mem_keys_assign, ← Side.keys, ih.mem_keys, more]
      · intro x
        rw [List.map_append, List.mem_append, ih.mem_front, more, List.map_singleton,
          List.mem_singleton, own]
      · intro n listed
        rcases mem_snoc.mp listed with old | new
        · exact ih.front n old
        · rw [new, own]
          exact found
      · intro x there
        by_cases here : x = id
        · subst here
          exact ⟨node, by simp only [lookup_assign, if_true], found⟩
        · rw [Side.keys, mem_keys_assign] at there
          simp only [lookup_assign, if_neg here]
          exact ih.nodes x (there.resolve_right here)
      · intro x link linked
        by_cases here : x = id
        · simp only [lookup_assign, if_pos here, Option.some.injEq] at linked
          exact linked.symm
        · simp only [lookup_assign, if_neg here] at linked
          exact ih.unlinked x link linked

theorem sinkSide_back (db : Database) (sinks : List NodeId) :
    Back db (IsSink db sinks) 0 (sinkSide db sinks) := by
  have laid := sinkSide_laid db sinks
  constructor
  · intro x
    rw [laid.mem_keys]
    constructor
    · exact fun sink => ⟨0, Nat.le_refl 0, sourceDistance_zero.mpr sink⟩
    · rintro ⟨m, le, near⟩
      rw [Nat.le_zero.mp le] at near
      exact sourceDistance_zero.mp near
  · exact fun x => (laid.mem_front x).trans sourceDistance_zero.symm
  · exact laid.front
  · exact laid.nodes
  · intro x none_
    rw [← laid.mem_keys]
    by_contra outside
    rw [lookup_none.mpr outside] at none_
    cases none_
  · intro x p e link
    have none_ := laid.unlinked x _ link
    cases none_

/-- A side that cannot be expanded has reached everything that it leads to. -/
theorem Reached.ends {step : NodeId → NodeId → Prop} {joins : NodeId → NodeId → Edge → Prop}
    {sources : NodeId → Prop} {s : Side} (reached : Reached db step joins sources (i + 1) s)
    (empty : s.front = []) {n : Nat} (distance : IsSourceDistance step sources x n) : n ≤ i := by
  by_contra far
  obtain ⟨c, near⟩ := distance.nearer (by omega : i + 1 ≤ n)
  have listed := (reached.mem_front c).mpr near
  rw [empty] at listed
  cases listed

/-- The sides have not met, so no path is as short as the levels that have been laid. -/
theorem longer_of_apart (ahead : Ahead db (IsSeed seed) i forward)
    (back : Back db (IsSink db sinks) j backward) (apart : ∀ x ∈ forward.keys, x ∉ backward.keys)
    {n : Nat} {t : NodeId} (target : IsSink db sinks t) (walk : Walk (Hop db) seed.id n t) :
    i + j + 1 ≤ n := by
  by_contra short
  obtain ⟨x, first, second⟩ := meet_of_walk ahead back target walk (by omega)
  exact apart x first second

theorem no_meet (none_ : meetAt forward backward = none) :
    ∀ x ∈ forward.keys, x ∉ backward.keys := by
  intro x listed
  simpa using List.find?_eq_none.mp none_ x listed

theorem meet_sides (meets : meetAt forward backward = some x) :
    x ∈ forward.keys ∧ x ∈ backward.keys :=
  ⟨List.mem_of_find?_eq_some meets, by simpa using List.find?_some meets⟩

theorem nothing_ahead (ahead : Ahead db (IsSeed seed) (i + 1) forward) (empty : forward.front = [])
    (far : ∀ n t, IsSink db sinks t → Walk (Hop db) seed.id n t → i + j + 1 ≤ n) {n : Nat}
    {t : NodeId} (target : IsSink db sinks t) : ¬Walk (Hop db) seed.id n t := by
  intro walk
  have start : IsSeed seed seed.id := rfl
  obtain ⟨d, -, near⟩ := walk.sourceDistance start
  have close := ahead.ends empty near
  obtain ⟨⟨a, source, short⟩, -⟩ := near
  have same : a = seed.id := source
  subst same
  have long := far d t target short
  omega

theorem nothing_back (back : Back db (IsSink db sinks) (j + 1) backward) (empty : backward.front = [])
    (far : ∀ n t, IsSink db sinks t → Walk (Hop db) seed.id n t → i + j + 1 ≤ n) {n : Nat}
    {t : NodeId} (target : IsSink db sinks t) : ¬Walk (Hop db) seed.id n t := by
  intro walk
  obtain ⟨d, -, near⟩ := walk.reverse.sourceDistance target
  have close := back.ends empty near
  obtain ⟨⟨t', target', short⟩, -⟩ := near
  have long := far d t' target' short.reverse
  omega

theorem levels_spec (named : ∀ n ∈ db.nodes, n.id ≠ "") (stored : db.getNodeById seed.id = some seed)
    {left : Nat} (laid : left + i + j + 1 = maxHops) (ahead : Ahead db (IsSeed seed) i forward)
    (back : Back db (IsSink db sinks) j backward)
    (apart : ∀ x ∈ forward.keys, x ∉ backward.keys) :
    ∃ out, levels db sinks maxHops left forward backward = some out ∧
      Answers db seed sinks maxHops out := by
  induction left generalizing i j forward backward with
  | zero =>
    refine ⟨.nothing, rfl, .nothing fun n t few target walk => ?_⟩
    have long := longer_of_apart ahead back apart target walk
    omega
  | succ left ih =>
    have far := fun n t target walk => @longer_of_apart _ _ _ _ _ _ _ ahead back apart n t target walk
    rw [levels]
    split
    · split
      · exact ⟨.capped, rfl, .capped⟩
      · have further := expand_reached (callees_hops db) ahead
        generalize forward.expand (calleesOf db) = forward at further
        dsimp only
        split
        next empty =>
          exact ⟨.nothing, rfl, .nothing fun n t _ target =>
            nothing_ahead further empty far target⟩
        next =>
          split
          next none_ => exact ih (by omega) further back (no_meet none_)
          next x meets =>
            obtain ⟨first, second⟩ := meet_sides meets
            apply joinAt_spec named stored further back first second (by omega) (by omega)
            intro n t target walk
            have long := far n t target walk
            omega
    · split
      · exact ⟨.capped, rfl, .capped⟩
      · have further := expand_reached (callers_hops db) back
        generalize backward.expand (callersOf db) = backward at further
        dsimp only
        split
        next empty =>
          exact ⟨.nothing, rfl, .nothing fun n t _ target =>
            nothing_back further empty far target⟩
        next =>
          split
          next none_ => exact ih (by omega) ahead further (no_meet none_)
          next x meets =>
            obtain ⟨first, second⟩ := meet_sides meets
            apply joinAt_spec named stored ahead further first second (by omega) (by omega)
            intro n t target walk
            have long := far n t target walk
            omega

theorem search_spec (named : ∀ n ∈ db.nodes, n.id ≠ "")
    (stored : db.getNodeById seed.id = some seed) (outside : seed.id ∉ sinks) (two : 2 ≤ maxHops) :
    ∃ out, search db seed sinks maxHops = some out ∧ Answers db seed sinks maxHops out := by
  have ahead := seedSide_ahead stored
  have back := sinkSide_back db sinks
  rw [search, if_neg outside]
  split
  next empty =>
    refine ⟨.nothing, rfl, .nothing fun n t _ target _ => ?_⟩
    have listed := (back.mem_front t).mpr (sourceDistance_zero.mpr target)
    rw [empty] at listed
    cases listed
  next =>
    apply levels_spec named stored (by omega) ahead back
    intro x first second
    have same : x = seed.id := List.mem_singleton.mp first
    obtain ⟨m, le, near⟩ := (back.mem_keys x).mp second
    rw [Nat.le_zero.mp le] at near
    exact outside (same ▸ (sourceDistance_zero.mp near).1)

/-! ### Shortest paths -/

/-- The answer is a shortest path of edges that a flow may ride, or there is none. -/
def ShortestFlow (db : Database) (seed : Node) (sinks : List NodeId) (maxHops : Nat) :
    Option (List FlowStep) → Prop
  | none => ∀ n t, n + 1 ≤ maxHops → t ∈ sinks → ¬Walk (FlowEdge db) seed.id n t
  | some steps => FlowPath db seed sinks steps ∧ steps.length ≤ maxHops ∧
      ∀ n t, t ∈ sinks → Walk (FlowEdge db) seed.id n t → steps.length ≤ n + 1

theorem hop_sink (stored : db.getNodeById seed.id = some seed) {n : Nat} {t : NodeId}
    (target : t ∈ sinks) (walk : Walk (Hop db) seed.id n t) : IsSink db sinks t := by
  refine ⟨target, ?_⟩
  cases walk with
  | start => rw [stored]; rfl
  | step _ last => exact last.2.1

/-- The answer is right exactly if paths of first rows are as short as others. -/
theorem walkBidirectional_shortest (named : ∀ n ∈ db.nodes, n.id ≠ "")
    (stored : db.getNodeById seed.id = some seed) (outside : seed.id ∉ sinks) (two : 2 ≤ maxHops)
    (uncapped : search db seed sinks maxHops ≠ some .capped) :
    (∃ answer, walkBidirectional db seed sinks maxHops = some answer ∧
      ShortestFlow db seed sinks maxHops answer) ↔
    ∀ n t, n + 1 ≤ maxHops → t ∈ sinks → Walk (FlowEdge db) seed.id n t →
      ∃ m ≤ n, ∃ t' ∈ sinks, Walk (Hop db) seed.id m t' := by
  obtain ⟨out, searched, answers⟩ := search_spec named stored outside two
  rw [walkBidirectional, searched, Option.map_some]
  cases answers with
  | capped => exact absurd searched uncapped
  | nothing none_ =>
    constructor
    · rintro ⟨answer, is, right⟩ n t few target walk
      cases is
      exact absurd walk (right n t few target)
    · intro matched
      refine ⟨none, rfl, fun n t few target walk => ?_⟩
      obtain ⟨m, le, t', target', hops⟩ := matched n t few target walk
      exact none_ m t' (by omega) (hop_sink stored target' hops) hops
  | @found steps k t path length few target walk shortest =>
    constructor
    · rintro ⟨answer, is, right⟩ n t' - target' walk'
      cases is
      have short := right.2.2 n t' target' walk'
      exact ⟨k, by omega, t, target.1, walk⟩
    · intro matched
      refine ⟨some steps, rfl, path, by omega, fun n t' target' walk' => ?_⟩
      by_cases within : n + 1 ≤ maxHops
      · obtain ⟨m, le, t'', target'', hops⟩ := matched n t' within target' walk'
        have least := shortest m t'' (hop_sink stored target'' hops) hops
        omega
      · omega

/-- Whatever rows there are, the answer is a shortest of the paths that the first row of each pair of
nodes makes; there is none only if the search is capped or no such path is short enough. -/
theorem walkBidirectional_first_rows (named : ∀ n ∈ db.nodes, n.id ≠ "")
    (stored : db.getNodeById seed.id = some seed) (outside : seed.id ∉ sinks) (two : 2 ≤ maxHops) :
    ∃ answer, walkBidirectional db seed sinks maxHops = some answer ∧
      (∀ steps ∈ answer, FlowPath db seed sinks steps ∧ steps.length ≤ maxHops ∧
        ∀ n t, IsSink db sinks t → Walk (Hop db) seed.id n t → steps.length ≤ n + 1) ∧
      (answer = none → search db seed sinks maxHops = some .capped ∨
        ∀ n t, n + 1 ≤ maxHops → IsSink db sinks t → ¬Walk (Hop db) seed.id n t) := by
  obtain ⟨out, searched, answers⟩ := search_spec named stored outside two
  rw [walkBidirectional, searched, Option.map_some]
  cases answers with
  | capped =>
    refine ⟨none, rfl, fun _ is => ?_, fun _ => Or.inl rfl⟩
    cases is
  | nothing none_ =>
    refine ⟨none, rfl, fun _ is => ?_, fun _ => Or.inr none_⟩
    cases is
  | @found steps k t path length few target walk shortest =>
    refine ⟨some steps, rfl, fun other is => ?_, fun none_ => absurd none_ (Option.some_ne_none steps)⟩
    cases is
    refine ⟨path, by omega, fun n t' target' walk' => ?_⟩
    have least := shortest n t' target' walk'
    omega

private def openDetails : Node := ⟨"function:1", .function, .dart⟩

private def detailsScreen : Node := ⟨"class:2", .class, .dart⟩

private def detailsCall : Edge := ⟨1, "function:1", "class:2", .calls, some 3, some 4⟩

private def detailsNavigation : Edge := ⟨1, "function:1", "class:2", .navigates, some 3, some 4⟩

private def detailsCreation : Edge := ⟨2, "function:1", "class:2", .instantiates, some 3, some 20⟩

private def calling : Database := ⟨[openDetails, detailsScreen], [detailsCall, detailsCreation], by decide⟩

theorem walkBidirectional_shortest_call :
    (∃ answer, walkBidirectional calling openDetails ["class:2"] 2 = some answer ∧
      ShortestFlow calling openDetails ["class:2"] 2 answer) ↔
    ∀ n t, n + 1 ≤ 2 → t ∈ ["class:2"] → Walk (FlowEdge calling) openDetails.id n t →
      ∃ m ≤ n, ∃ t' ∈ ["class:2"], Walk (Hop calling) openDetails.id m t' :=
  walkBidirectional_shortest (by decide) (by decide) (by decide) (by decide) (by decide)

private def navigating : Database :=
  ⟨[openDetails, detailsScreen], [detailsNavigation, detailsCreation], by decide⟩

/-- A navigation to a screen that is also created is not followed. -/
theorem navigation_not_followed :
    openDetails.id ∉ ["class:2"] ∧ search navigating openDetails ["class:2"] 2 ≠ some .capped ∧
    ¬∃ answer, walkBidirectional navigating openDetails ["class:2"] 2 = some answer ∧
      ShortestFlow navigating openDetails ["class:2"] 2 answer := by
  refine ⟨by decide, by decide, ?_⟩
  rintro ⟨answer, is, right⟩
  have none_ : walkBidirectional navigating openDetails ["class:2"] 2 = some none := by decide
  cases none_.symm.trans is
  have edge : FlowEdge navigating "function:1" "class:2" :=
    ⟨by decide, by decide, detailsNavigation, by decide, by decide, rfl, rfl⟩
  exact right 1 "class:2" (Nat.le_refl 2) (by decide) (Walk.start.step edge)

theorem walkBidirectional_first_rows_navigating :
    ∃ answer, walkBidirectional navigating openDetails ["class:2"] 2 = some answer ∧
      ∀ steps ∈ answer, FlowPath navigating openDetails ["class:2"] steps ∧ steps.length ≤ 2 := by
  obtain ⟨answer, returned, right, -⟩ := walkBidirectional_first_rows
    (by decide : ∀ n ∈ navigating.nodes, n.id ≠ "") (by decide +kernel)
    (by decide : openDetails.id ∉ ["class:2"]) (le_refl 2)
  exact ⟨answer, returned, fun steps is => ⟨(right steps is).1, (right steps is).2.1⟩⟩

end CodeGraph.Graph.DirectedFlow
