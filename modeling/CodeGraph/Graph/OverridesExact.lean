import CodeGraph.Foundation.Distance
import CodeGraph.Graph.Overrides

/-!
# The walk up the supertypes is exact

After each level the sets of roots are those whose shortest path up has a length up to the level.
-/
namespace CodeGraph.Graph.DeadCode

open Distance Gathering InsertionMap Text

def Up (cg : Index) (kinds : List EdgeKind) (a b : NodeId) : Prop :=
  ∃ e ∈ cg.edges, (kinds = [] ∨ e.kind ∈ kinds) ∧ e.source = a ∧ e.target = b

/-- Another node, to which a shortest path up has from one edge to as many as the walk goes up. -/
def IsAncestor (cg : Index) (kinds : List EdgeKind) (r a : NodeId) : Prop :=
  r ≠ a ∧ ∃ n, 1 ≤ n ∧ n ≤ MAX_OVERRIDE_ANCESTOR_DEPTH ∧ IsDistance (Up cg kinds) r a n

variable {cg : Index} {kinds : List EdgeKind} {ids : List NodeId} {x r : NodeId}

theorem mem_getOutgoingEdgesFrom {sourceIds : List NodeId} {e : Edge} :
    e ∈ cg.getOutgoingEdgesFrom sourceIds kinds ↔
      e ∈ cg.edges ∧ e.source ∈ sourceIds ∧ (kinds = [] ∨ e.kind ∈ kinds) := by
  rw [Index.getOutgoingEdgesFrom, (cg.order_perm _ _).mem_iff, List.mem_filter, decide_eq_true_eq]

/-- Roots that have not been seen come to all three sets. -/
theorem propagate_all (roots visited merged known : List NodeId) :
    let sets := roots.foldl propagate (visited, merged, known)
    (r ∈ sets.1 ↔ r ∈ visited ∨ r ∈ roots) ∧
      (r ∈ sets.2.1 ↔ r ∈ merged ∨ r ∉ visited ∧ r ∈ roots) ∧
      (r ∈ sets.2.2 ↔ r ∈ known ∨ r ∉ visited ∧ r ∈ roots) := by
  induction roots generalizing visited merged known with
  | nil => simp
  | cons root roots ih =>
    rw [List.foldl_cons, propagate]
    split
    next old =>
      have rest := ih visited merged known
      simp only [List.mem_cons]
      by_cases same : r = root
      · subst same
        simpa [old] using rest
      · simpa [same] using rest
    next fresh =>
      have rest := ih (addTo visited root) (addTo merged root) (addTo known root)
      simp only [mem_addTo, List.mem_cons] at rest ⊢
      by_cases same : r = root
      · subst same
        simpa [fresh] using rest
      · simpa [same] using rest

def Comes (rootsOf : IdSets) (edges : List Edge) (x r : NodeId) : Prop :=
  ∃ e ∈ edges, e.target = x ∧ e.target ≠ e.source ∧ r ∈ members rootsOf e.source

theorem comes_concat {rootsOf : IdSets} {edges : List Edge} {e : Edge} :
    Comes rootsOf (edges ++ [e]) x r ↔ Comes rootsOf edges x r ∨
      e.target = x ∧ e.target ≠ e.source ∧ r ∈ members rootsOf e.source := by
  simp [Comes, or_and_right, exists_or]

structure LevelAfter (rootsOf : IdSets) (edges : List Edge) (reach seen : IdSets)
    (s : AncestorWalk) : Prop where
  mem_seen : ∀ x r, r ∈ members s.seen x ↔ r ∈ members seen x ∨ Comes rootsOf edges x r
  mem_next : ∀ x r, r ∈ members s.next x ↔ r ∉ members seen x ∧ Comes rootsOf edges x r
  mem_reach : ∀ x r, r ∈ members s.reach x ↔
    r ∈ members reach x ∨ r ∉ members seen x ∧ Comes rootsOf edges x r
  next_keys : (s.next.map Prod.fst).Nodup
  reach_keys : (s.reach.map Prod.fst).Nodup

/-- A set that is empty is not put into the map. -/
theorem mem_assign_some (m : IdSets) {t : NodeId} {set : List NodeId}
    (grows : ∀ r ∈ members m t, r ∈ set) :
    r ∈ members (if set = [] then m else assign m t set) x ↔
      if x = t then r ∈ set else r ∈ members m x := by
  by_cases here : x = t
  · subst here
    split
    next none_ =>
      rw [if_pos rfl, none_]
      constructor
      · intro old
        exact none_ ▸ grows r old
      · intro none_
        cases none_
    next => rw [members_assign, if_pos rfl, if_pos rfl]
  · rw [if_neg here]
    split
    next => rfl
    next => rw [members_assign, if_neg here]

theorem keys_assign_some {m : IdSets} (distinct : (m.map Prod.fst).Nodup) (t : NodeId)
    (set : List NodeId) : ((if set = [] then m else assign m t set).map Prod.fst).Nodup := by
  split
  next => exact distinct
  next => exact keys_assign_nodup distinct t set

theorem ancestorStep_after {rootsOf : IdSets} {edges : List Edge} {reach seen : IdSets}
    {s : AncestorWalk} (after : LevelAfter rootsOf edges reach seen s) (e : Edge) :
    LevelAfter rootsOf (edges ++ [e]) reach seen (ancestorStep rootsOf s e) := by
  have unchanged (nothing : ∀ r, e.target ≠ e.source → r ∉ members rootsOf e.source) :
      LevelAfter rootsOf (edges ++ [e]) reach seen s := by
    have same : ∀ x r, Comes rootsOf (edges ++ [e]) x r ↔ Comes rootsOf edges x r := by
      intro x r
      rw [comes_concat]
      constructor
      · rintro (old | ⟨-, other, root⟩)
        · exact old
        · exact absurd root (nothing r other)
      · exact Or.inl
    constructor
    · simpa only [same] using after.mem_seen
    · simpa only [same] using after.mem_next
    · simpa only [same] using after.mem_reach
    · exact after.next_keys
    · exact after.reach_keys
  rw [ancestorStep]
  split
  next loop => exact unchanged fun r other => absurd loop other
  next apart =>
    cases found : lookup rootsOf e.source with
    | none =>
      refine unchanged fun r _ => ?_
      rw [members, found]
      exact List.not_mem_nil
    | some roots =>
      have own : members rootsOf e.source = roots := by
        rw [members, found]
        rfl
      obtain ⟨visited, merged, known, sets, out⟩ : ∃ visited merged known,
          roots.foldl propagate (members s.seen e.target, members s.next e.target,
            members s.reach e.target) = (visited, merged, known) ∧ ∀ r,
          (r ∈ visited ↔ r ∈ members s.seen e.target ∨ r ∈ roots) ∧
          (r ∈ merged ↔ r ∈ members s.next e.target ∨ r ∉ members s.seen e.target ∧ r ∈ roots) ∧
          (r ∈ known ↔ r ∈ members s.reach e.target ∨ r ∉ members s.seen e.target ∧ r ∈ roots) :=
        ⟨_, _, _, rfl, fun r => propagate_all roots _ _ _⟩
      simp only [sets]
      constructor
      · intro x r
        rw [members_assign, comes_concat, own]
        by_cases here : x = e.target
        · subst here
          have old := after.mem_seen e.target r
          have new := (out r).1
          simp only [if_true, true_and]
          grind
        · have other : ¬e.target = x := fun is => here is.symm
          simp only [if_neg here, other, false_and, or_false]
          exact after.mem_seen x r
      · intro x r
        rw [mem_assign_some s.next fun r old => (out r).2.1.mpr (Or.inl old), comes_concat, own]
        by_cases here : x = e.target
        · subst here
          have before := after.mem_seen e.target r
          have old := after.mem_next e.target r
          have new := (out r).2.1
          simp only [if_true, true_and]
          grind
        · have other : ¬e.target = x := fun is => here is.symm
          simp only [if_neg here, other, false_and, or_false]
          exact after.mem_next x r
      · intro x r
        rw [mem_assign_some s.reach fun r old => (out r).2.2.mpr (Or.inl old), comes_concat, own]
        by_cases here : x = e.target
        · subst here
          have before := after.mem_seen e.target r
          have old := after.mem_reach e.target r
          have new := (out r).2.2
          simp only [if_true, true_and]
          grind
        · have other : ¬e.target = x := fun is => here is.symm
          simp only [if_neg here, other, false_and, or_false]
          exact after.mem_reach x r
      · exact keys_assign_some after.next_keys e.target merged
      · exact keys_assign_some after.reach_keys e.target known

/-! ### One level -/

theorem level_after {reach seen : IdSets} (distinct : (reach.map Prod.fst).Nodup)
    (rootsOf : IdSets) (edges : List Edge) :
    LevelAfter rootsOf edges reach seen
      (edges.foldl (ancestorStep rootsOf) ⟨reach, seen, []⟩) := by
  induction edges using List.reverseRecOn with
  | nil =>
    constructor
    · simp [Comes]
    · simp [Comes, members, lookup]
    · simp [Comes]
    · exact List.nodup_nil
    · exact distinct
  | append_singleton edges e ih =>
    rw [List.foldl_append]
    exact ancestorStep_after ih e

theorem members_mapOf {entries : IdSets} {f : NodeId → List NodeId}
    (agree : ∀ e ∈ entries, e.2 = f e.1) (v : NodeId) :
    members (mapOf entries) v = if v ∈ entries.map Prod.fst then f v else [] := by
  induction entries using List.reverseRecOn with
  | nil => rfl
  | append_singleton entries e ih =>
    have last := agree e (by simp)
    have rest := ih fun e listed => agree e (by simp [listed])
    have step : mapOf (entries ++ [e]) = assign (mapOf entries) e.1 e.2 := by
      rw [mapOf, List.foldl_append]
      rfl
    rw [step, members_assign, rest, last]
    by_cases here : v = e.1
    · subst here
      simp
    · have same : v ∈ entries.map Prod.fst ↔ v ∈ (entries ++ [e]).map Prod.fst := by
        rw [List.map_append, List.mem_append]
        simp [here]
      rw [if_neg here]
      exact if_congr same rfl rfl

theorem members_mapOf_distinct {entries : IdSets} (distinct : (entries.map Prod.fst).Nodup)
    (v : NodeId) : members (mapOf entries) v = members entries v := by
  rw [members_mapOf fun e listed => (members_of_mem distinct listed).symm]
  split
  next => rfl
  next absent =>
    rw [members, lookup_none.mpr absent]
    rfl

theorem key_of_mapOf {entries : IdSets} (some_ : r ∈ members (mapOf entries) x) :
    x ∈ entries.map Prod.fst := by
  by_contra absent
  have none_ : ∀ (entries : IdSets) (m : IdSets), x ∉ entries.map Prod.fst →
      members (entries.foldl (fun m e => assign m e.1 e.2) m) x = members m x := by
    intro entries
    induction entries with
    | nil => exact fun _ _ => rfl
    | cons e entries ih =>
      intro m absent
      rw [List.map_cons, List.mem_cons, not_or] at absent
      rw [List.foldl_cons, ih _ absent.2, members_assign, if_neg absent.1]
  rw [mapOf, none_ entries [] absent] at some_
  cases some_

/-- The sets before the level that finds what is one edge further than `d`. -/
structure Level (cg : Index) (kinds : List EdgeKind) (ids : List NodeId) (d : Nat)
    (frontier reach seen : IdSets) : Prop where
  mem_frontier : ∀ x r, r ∈ members (mapOf frontier) x ↔
    r ∈ ids ∧ IsDistance (Up cg kinds) r x d
  mem_seen : ∀ x r, r ∈ members seen x ↔
    r ∈ ids ∧ ∃ n ≤ d, IsDistance (Up cg kinds) r x n
  mem_reach : ∀ x r, r ∈ members reach x ↔
    r ∈ ids ∧ ∃ n, 1 ≤ n ∧ n ≤ d ∧ IsDistance (Up cg kinds) r x n
  reach_keys : (reach.map Prod.fst).Nodup

theorem first_level : Level cg kinds ids 0 (ids.map fun id => (id, [id])) []
    (mapOf (ids.map fun id => (id, [id]))) := by
  have own : ∀ x r, r ∈ members (mapOf (ids.map fun id => (id, [id]))) x ↔ r ∈ ids ∧ x = r := by
    intro x r
    have agree : ∀ e ∈ ids.map fun id => (id, [id]), e.2 = [e.1] := by simp
    rw [members_mapOf (f := fun id => [id]) agree, List.map_map]
    split
    next listed =>
      have here : x ∈ ids := by simpa using listed
      rw [List.mem_singleton]
      constructor
      · rintro rfl
        exact ⟨here, rfl⟩
      · rintro ⟨-, rfl⟩
        rfl
    next absent =>
      constructor
      · intro none_
        cases none_
      · rintro ⟨listed, rfl⟩
        exact absurd (by simpa using listed) absent
  have zero : ∀ x r, IsDistance (Up cg kinds) r x 0 ↔ x = r := by
    intro x r
    constructor
    · exact fun near => near.1.zero
    · rintro rfl
      exact distance_zero x
  constructor
  · intro x r
    rw [own, zero]
  · intro x r
    simp [own, zero]
  · intro x r
    constructor
    · intro none_
      cases none_
    · rintro ⟨-, n, some_, none_, -⟩
      omega
  · exact List.nodup_nil

/-- The edges from a frontier bring a root to the nodes one edge beyond those at its distance. -/
theorem comes_iff {d : Nat} {frontier reach seen : IdSets}
    (level : Level cg kinds ids d frontier reach seen) :
    Comes (mapOf frontier) (cg.getOutgoingEdgesFrom (frontier.map Prod.fst) kinds) x r ↔
      r ∈ ids ∧ ∃ c, IsDistance (Up cg kinds) r c d ∧ c ≠ x ∧ Up cg kinds c x := by
  constructor
  · rintro ⟨e, listed, target, apart, root⟩
    obtain ⟨stored, -, kind⟩ := mem_getOutgoingEdgesFrom.mp listed
    obtain ⟨given, near⟩ := (level.mem_frontier _ _).mp root
    exact ⟨given, e.source, near, fun same => apart (target.trans same.symm),
      e, stored, kind, rfl, target⟩
  · rintro ⟨given, c, near, apart, e, stored, kind, rfl, rfl⟩
    have root := (level.mem_frontier _ _).mpr ⟨given, near⟩
    exact ⟨e, mem_getOutgoingEdgesFrom.mpr ⟨stored, key_of_mapOf root, kind⟩, rfl,
      fun same => apart same.symm, root⟩

theorem next_level {d : Nat} {frontier reach seen : IdSets} {s : AncestorWalk}
    (level : Level cg kinds ids d frontier reach seen)
    (after : LevelAfter (mapOf frontier)
      (cg.getOutgoingEdgesFrom (frontier.map Prod.fst) kinds) reach seen s) :
    Level cg kinds ids (d + 1) s.next s.reach s.seen := by
  -- a root comes to a node that it has not been seen at exactly if the node is one edge further
  have further : ∀ x r, r ∉ members seen x ∧ Comes (mapOf frontier)
      (cg.getOutgoingEdgesFrom (frontier.map Prod.fst) kinds) x r ↔
        r ∈ ids ∧ IsDistance (Up cg kinds) r x (d + 1) := by
    intro x r
    rw [comes_iff level, level.mem_seen, distance_succ_iff]
    constructor
    · rintro ⟨unseen, given, c, near, -, last⟩
      exact ⟨given, ⟨c, near, last⟩, fun m le at_ => unseen ⟨given, m, le, at_⟩⟩
    · rintro ⟨given, ⟨c, near, last⟩, later⟩
      refine ⟨?_, given, c, near, ?_, last⟩
      · rintro ⟨-, m, le, at_⟩
        exact later m le at_
      · rintro rfl
        exact later d (Nat.le_refl d) near
  constructor
  · intro x r
    rw [members_mapOf_distinct after.next_keys, after.mem_next, further]
  · intro x r
    have here := further x r
    rw [after.mem_seen]
    constructor
    · intro old
      by_cases seen_ : r ∈ members seen x
      · obtain ⟨given, n, le, at_⟩ := (level.mem_seen x r).mp seen_
        exact ⟨given, n, by omega, at_⟩
      · have comes := old.resolve_left seen_
        obtain ⟨given, at_⟩ := here.mp ⟨seen_, comes⟩
        exact ⟨given, d + 1, Nat.le_refl _, at_⟩
    · rintro ⟨given, n, le, at_⟩
      by_cases last : n = d + 1
      · subst last
        exact Or.inr (here.mpr ⟨given, at_⟩).2
      · exact Or.inl ((level.mem_seen x r).mpr ⟨given, n, by omega, at_⟩)
  · intro x r
    rw [after.mem_reach, further, level.mem_reach]
    constructor
    · rintro (⟨given, n, some_, le, at_⟩ | ⟨given, at_⟩)
      · exact ⟨given, n, some_, by omega, at_⟩
      · exact ⟨given, d + 1, by omega, Nat.le_refl _, at_⟩
    · rintro ⟨given, n, some_, le, at_⟩
      by_cases last : n = d + 1
      · subst last
        exact Or.inr ⟨given, at_⟩
      · exact Or.inl ⟨given, n, some_, by omega, at_⟩
  · exact after.reach_keys

theorem ancestorLevels_exact (depth : Nat) {d : Nat} {frontier reach seen : IdSets}
    (level : Level cg kinds ids d frontier reach seen) :
    let found := ancestorLevels cg kinds depth frontier reach seen
    (found.map Prod.fst).Nodup ∧ ∀ x r, r ∈ members found x ↔
      r ∈ ids ∧ ∃ n, 1 ≤ n ∧ n ≤ d + depth ∧ IsDistance (Up cg kinds) r x n := by
  induction depth generalizing d frontier reach seen with
  | zero => exact ⟨level.reach_keys, level.mem_reach⟩
  | succ depth ih =>
    rw [ancestorLevels]
    split
    next none_ =>
      -- no node is at the distance, so none is further
      refine ⟨level.reach_keys, fun x r => ?_⟩
      rw [level.mem_reach]
      constructor
      · rintro ⟨given, n, some_, le, at_⟩
        exact ⟨given, n, some_, by omega, at_⟩
      · rintro ⟨given, n, some_, -, at_⟩
        refine ⟨given, n, some_, ?_, at_⟩
        by_contra further
        obtain ⟨c, near⟩ := at_.nearer (m := d) (by omega)
        have root := (level.mem_frontier c r).mpr ⟨given, near⟩
        subst none_
        cases root
    next =>
      have next := next_level level (level_after level.reach_keys (mapOf frontier)
        (cg.getOutgoingEdgesFrom (frontier.map Prod.fst) kinds))
      have rest := ih next
      simpa only [Nat.add_assoc, Nat.add_comm 1 depth] using rest

theorem mem_ancestorsOf :
    r ∈ members (ancestorsOf cg ids kinds) x ↔ r ∈ ids ∧ IsAncestor cg kinds r x := by
  rw [ancestorsOf, (ancestorLevels_exact _ first_level).2, Nat.zero_add]
  constructor
  · rintro ⟨given, n, some_, le, at_⟩
    exact ⟨given, fun same => (distance_pos at_).mp some_ same.symm, n, some_, le, at_⟩
  · rintro ⟨given, -, n, some_, le, at_⟩
    exact ⟨given, n, some_, le, at_⟩

theorem ancestorsOf_keys : ((ancestorsOf cg ids kinds).map Prod.fst).Nodup :=
  (ancestorLevels_exact _ first_level).1

theorem mem_entry {e : NodeId × List NodeId} (listed : e ∈ ancestorsOf cg ids kinds) :
    r ∈ e.2 ↔ r ∈ members (ancestorsOf cg ids kinds) e.1 := by
  rw [members_of_mem ancestorsOf_keys listed]

end CodeGraph.Graph.DeadCode
