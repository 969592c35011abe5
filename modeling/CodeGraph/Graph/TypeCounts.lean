import CodeGraph.Foundation.Tally
import CodeGraph.Graph.TypeWalk

/-! The counts of the type hierarchy and the edges that make them wrong. -/
namespace CodeGraph.Graph.TypeTree

open Distance FirstByKey Rings InsertionMap Text Tally Relation

variable {store : TypeStore} {graph : TypeGraph} {localeCompare : JsString → JsString → Int}
  {focus s p : NodeId} {n d : Nat}

def Named (result : TypeHierarchy) (s : NodeId) : Prop :=
  s = result.focus.id ∨ s ∈ entryIds result.ancestors ∨ s ∈ entryIds result.descendants

structure SubtypeCounts (graph : TypeGraph) (result : TypeHierarchy) : Prop where
  direct : Counts result.directSubtypes fun s =>
    DirectSubtype graph result.focus.id s ∧ s ≠ result.focus.id
  implementers : Counts result.directImplementers fun s =>
    (DirectSubtype graph result.focus.id s ∧ s ≠ result.focus.id) ∧
      ¬∃ e, Ties graph e s result.focus.id ∧ e.kind = .extends
  hidden : ∀ x ∈ result.ancestors ++ result.descendants,
    Counts x.hiddenSubtypes fun s => DirectSubtype graph x.node.id s ∧ ¬Named result s
  bounded : result.bounded = true ↔ ∃ s, TransGen (DirectSubtype graph) result.focus.id s ∧
    s ≠ result.focus.id ∧ s ∉ entryIds result.descendants

def tieCount (graph : TypeGraph) (sub super : NodeId) : Nat :=
  graph.edges.countP fun e => decide (e.kind ∈ HIERARCHY_KINDS) && decide (e.target = super) &&
    decide (e.source = sub)

def Ancestor (store : TypeStore) (focus s : NodeId) : Prop :=
  ∃ d, 1 ≤ d ∧ d ≤ MAX_ANCESTOR_DEPTH ∧ IsDistance (DirectSupertype store.graph) focus s d

def NotReturned (store : TypeStore) (focus s : NodeId) : Prop := s ≠ focus ∧ s ∉ returned store focus

/-- What makes the counts right: what has no entry is tied by one edge; a type tied to the focus both
ways has an `extends` row first; the level that there was no room for has nothing hidden below it;
nothing missing is tied to the last level; and the ancestors hide nothing. -/
structure CountedOnce (store : TypeStore) (focus : NodeId) : Prop where
  direct : ∀ s, DirectSubtype store.graph focus s → NotReturned store focus s →
    tieCount store.graph s focus = 1
  extendsFirst : ∀ e, First (·.source) (levelRows store focus 0) e → e.source ∈ returned store focus →
    (∃ f, Ties store.graph f e.source focus ∧ f.kind = .extends) → e.kind = .extends
  hidden : ∀ p d, p ∈ returned store focus → IsDistance (DirectSubtype store.graph) focus p d →
    ∀ s, DirectSubtype store.graph p s → NotReturned store focus s →
      if MAX_DESCENDANTS < (within store focus d).length then Ancestor store focus s
      else ¬Ancestor store focus s ∧ tieCount store.graph s p = 1
  present : ∀ p ∈ returned store focus,
    IsDistance (DirectSubtype store.graph) focus p MAX_DESCENDANT_DEPTH →
      (within store focus MAX_DESCENDANT_DEPTH).length ≤ MAX_DESCENDANTS →
        ∀ e s, Ties store.graph e s p → NotReturned store focus s → store.graph.Exists s
  ancestors : ∀ a, Ancestor store focus a → ∀ s, DirectSubtype store.graph a s →
    NotReturned store focus s → Ancestor store focus s

theorem implements_iff {kind : EdgeKind} (member : kind ∈ HIERARCHY_KINDS) :
    kind = .implements ↔ kind ≠ .extends := by
  rcases hierarchy_kind.mp member with rfl | rfl <;> simp

theorem hierarchyEdges_down_perm (ids : List NodeId) : (hierarchyEdges store ids .down).Perm
    (store.graph.edges.filter fun e => e.target ∈ ids ∧ e.kind ∈ HIERARCHY_KINDS) := by
  have all : hierarchyEdges store ids .down = store.getIncomingEdgesTo ids HIERARCHY_KINDS :=
    List.filter_eq_self.mpr fun e row => by
      rw [decide_eq_true_eq, ← hierarchy_kind]
      exact (TypeStore.mem_getIncomingEdgesTo.mp row).2.2
  rw [all]
  exact store.orderIn_perm _

theorem levelRows_countP (q : TypeEdge → Bool) : (levelRows store focus n).countP q =
    store.graph.edges.countP fun e => q e && (decide (e.kind ∈ HIERARCHY_KINDS) &&
      (decide (store.graph.Exists e.source) && (decide (e.target ∈ ring store focus n) &&
        decide (e.source ∉ closer store focus n)))) := by
  rw [levelRows, newRows, List.countP_filter, List.countP_filter,
    (hierarchyEdges_down_perm _).countP_eq, List.countP_filter]
  refine List.countP_congr fun e _ => ?_
  simp only [Bool.and_eq_true, decide_eq_true_eq]
  tauto

theorem tieCount_pos (tie : ∃ e, Ties graph e s p) : 1 ≤ tieCount graph s p := by
  obtain ⟨e, edge, kind, source, target⟩ := tie
  exact List.countP_pos_iff.mpr ⟨e, edge, by simp [kind, source, target]⟩

theorem mem_ring_one : s ∈ ring store focus 1 ↔ DirectSubtype store.graph focus s ∧ s ≠ focus := by
  rw [mem_ring]
  constructor
  · intro far
    refine ⟨?_, (distance_pos far).mp (Nat.le_refl 1)⟩
    obtain ⟨a, zero, step⟩ := far.before
    rwa [zero.1.zero] at step
  · rintro ⟨step, other⟩
    refine ⟨Walk.start.step step, fun m walk => ?_⟩
    cases m with
    | zero => exact absurd walk.zero other
    | succ m => omega

/-- Of a level that is counted, what has an entry is what there was room for. -/
theorem mem_returned_ring (level : s ∈ ring store focus (n + 1)) (less : n < MAX_DESCENDANT_DEPTH) :
    s ∈ returned store focus ↔ s ∈ kept (roomAt store focus n) (levelRows store focus n) := by
  obtain ⟨rest, whole⟩ := within_prefix store focus
    (show n + 1 ≤ MAX_DESCENDANT_DEPTH from less)
  have distinct : (within store focus n ++ ring store focus (n + 1) ++ rest).Nodup := by
    have all : (within store focus MAX_DESCENDANT_DEPTH).Nodup := within_nodup
    rwa [whole, within] at all
  rw [List.nodup_append, List.nodup_append] at distinct
  obtain ⟨⟨-, -, nearer⟩, -, farther⟩ := distinct
  rw [kept_levelRows, returned, whole, within, List.append_assoc, List.take_append, List.take_append,
    List.mem_append, List.mem_append]
  constructor
  · rintro (near | here | far)
    · exact absurd rfl (nearer s (List.mem_of_mem_take near) s level)
    · exact here
    · exact absurd rfl (farther s (List.mem_append_right _ level) s (List.mem_of_mem_take far))
  · exact fun here => .inr (.inl here)

/-- Every type within a distance has an entry if there is room for all of them. -/
theorem within_returned (fits : (within store focus d).length ≤ MAX_DESCENDANTS)
    (le : d ≤ MAX_DESCENDANT_DEPTH) (near : s ∈ within store focus d) : s ∈ returned store focus := by
  obtain ⟨rest, whole⟩ := within_prefix store focus le
  rw [returned, whole, List.take_append, List.mem_append, List.take_of_length_le fits]
  exact .inl near

theorem notReturned_closer (fits : (within store focus d).length ≤ MAX_DESCENDANTS)
    (le : d ≤ MAX_DESCENDANT_DEPTH) (none_ : NotReturned store focus s) : s ∉ closer store focus d := by
  rw [closer_within, List.mem_cons, not_or]
  exact ⟨none_.1, fun near => none_.2 (within_returned fits le near)⟩

/-! ### The direct subtypes -/

theorem source_ring {e : TypeEdge} (row : e ∈ levelRows store focus n) :
    e.source ∈ ring store focus (n + 1) := by
  rw [← firstKeys_levelRows, mem_firstKeys]
  exact List.mem_map_of_mem row

theorem mem_levelRows_zero {e : TypeEdge} : e ∈ levelRows store focus 0 ↔
    Ties store.graph e e.source focus ∧ store.graph.Exists e.source ∧ e.source ≠ focus := by
  have only : ring store focus 0 = [focus] := rfl
  rw [mem_levelRows, closer_within, only, List.mem_singleton, List.mem_cons, not_or]
  have none_ : e.source ∉ within store focus 0 := List.not_mem_nil
  simp only [Ties, none_]
  tauto

def beyond (store : TypeStore) (focus : NodeId) : List NodeId :=
  (ring store focus 1).drop MAX_DESCENDANTS

theorem mem_beyond : s ∈ beyond store focus ↔
    DirectSubtype store.graph focus s ∧ NotReturned store focus s := by
  have distinct : (ring store focus 1).Nodup := Rows.ring_nodup
  rw [← List.take_append_drop MAX_DESCENDANTS (ring store focus 1), List.nodup_append] at distinct
  constructor
  · intro member
    have level : s ∈ ring store focus 1 := List.mem_of_mem_drop member
    obtain ⟨direct, other⟩ := mem_ring_one.mp level
    refine ⟨direct, other, fun inside => ?_⟩
    rw [mem_returned_ring level (by decide), kept_levelRows] at inside
    exact distinct.2.2 s inside s member rfl
  · rintro ⟨direct, other, outside⟩
    have level := mem_ring_one.mpr ⟨direct, other⟩
    rw [mem_returned_ring level (by decide), kept_levelRows] at outside
    rw [← List.take_append_drop MAX_DESCENDANTS (ring store focus 1), List.mem_append] at level
    exact level.resolve_left outside

theorem beyond_nodup : (beyond store focus).Nodup :=
  List.Nodup.sublist (List.drop_sublist _ _) Rows.ring_nodup

def beyondRows (store : TypeStore) (focus : NodeId) : List TypeEdge :=
  lostRows MAX_DESCENDANTS (levelRows store focus 0)

theorem mem_beyondRows {e : TypeEdge} :
    e ∈ beyondRows store focus ↔ e ∈ levelRows store focus 0 ∧ e.source ∈ beyond store focus := by
  rw [beyondRows, lostRows, List.mem_filter, decide_eq_true_eq]
  refine and_congr_right fun row => ?_
  have level := source_ring row
  rw [mem_beyond, NotReturned, mem_returned_ring level (by decide)]
  obtain ⟨direct, other⟩ := mem_ring_one.mp level
  exact ⟨fun outside => ⟨direct, other, outside⟩, fun h => h.2.2⟩

theorem beyondRows_ties (member : s ∈ beyond store focus) :
    (beyondRows store focus).countP (fun e => decide (e.source = s)) = tieCount store.graph s focus := by
  obtain ⟨⟨exists_, -⟩, other, outside⟩ := mem_beyond.mp member
  have level := mem_ring_one.mpr ⟨(mem_beyond.mp member).1, other⟩
  have only : ring store focus 0 = [focus] := rfl
  have start : closer store focus 0 = [focus] := rfl
  rw [mem_returned_ring level (by decide)] at outside
  rw [beyondRows, lostRows, List.countP_filter, levelRows_countP, tieCount]
  refine List.countP_congr fun e _ => ?_
  simp only [Bool.and_eq_true, decide_eq_true_eq, only, start, List.mem_singleton]
  constructor
  · rintro ⟨⟨source, -⟩, kind, -, target, -⟩
    exact ⟨⟨kind, target⟩, source⟩
  · rintro ⟨⟨kind, target⟩, rfl⟩
    exact ⟨⟨rfl, outside⟩, kind, exists_, target, other⟩

theorem direct_exact : Counts (directTotal store focus) (fun s => DirectSubtype store.graph focus s ∧ s ≠ focus) ↔
    ∀ s ∈ beyond store focus, tieCount store.graph s focus = 1 := by
  have all : Counts (ring store focus 1).length fun s => DirectSubtype store.graph focus s ∧ s ≠ focus :=
    ⟨ring store focus 1, Rows.ring_nodup, fun _ => mem_ring_one, rfl⟩
  have total : directTotal store focus =
      ((ring store focus 1).take MAX_DESCENDANTS).length + (beyondRows store focus).length := by
    rw [← kept_levelRows]
    rfl
  have length : (ring store focus 1).length =
      ((ring store focus 1).take MAX_DESCENDANTS).length + (beyond store focus).length := by
    rw [beyond, ← List.length_append, List.take_append_drop]
  have some_ : ∀ s ∈ beyond store focus,
      1 ≤ (beyondRows store focus).countP fun e => true && decide (e.source = s) := by
    intro s member
    simp only [Bool.true_and, beyondRows_ties member]
    exact tieCount_pos (mem_beyond.mp member).1.2
  have once := countP_once (fun e : TypeEdge => e.source) beyond_nodup some_
  rw [List.countP_true] at once
  rw [all.iff, total, length, Nat.add_left_cancel_iff, once]
  simp only [Bool.true_and, true_implies]
  constructor
  · rintro ⟨-, ones⟩ s member
    rw [← beyondRows_ties member, ones s member]
  · intro ones
    refine ⟨fun e row => (mem_beyondRows.mp row).2, fun s member => ?_⟩
    rw [beyondRows_ties member, ones s member]

def extendsTie (graph : TypeGraph) (sub super : NodeId) : Bool :=
  graph.edges.any fun e => e.kind = .extends ∧ e.source = sub ∧ e.target = super

theorem extendsTie_iff : extendsTie graph s p = true ↔ ∃ e, Ties graph e s p ∧ e.kind = .extends := by
  simp only [extendsTie, List.any_eq_true, decide_eq_true_eq]
  constructor
  · rintro ⟨e, edge, kind, source, target⟩
    exact ⟨e, ⟨edge, hierarchy_kind.mpr (.inl kind), source, target⟩, kind⟩
  · rintro ⟨e, ⟨edge, -, source, target⟩, kind⟩
    exact ⟨e, edge, kind, source, target⟩

theorem noExtendsTie_iff :
    (!extendsTie graph s p) = true ↔ ¬∃ e, Ties graph e s p ∧ e.kind = .extends := by
  rw [Bool.not_eq_true', Bool.eq_false_iff, ne_eq, extendsTie_iff]

theorem mem_keptFirsts {e : TypeEdge} : e ∈ keptFirsts MAX_DESCENDANTS (levelRows store focus 0) ↔
    First (·.source) (levelRows store focus 0) e ∧ e.source ∈ returned store focus := by
  constructor
  · intro member
    have first := (mem_keepNew.mp (List.mem_of_mem_take member)).2
    have level := source_ring first.mem
    exact ⟨first, (mem_returned_ring level (by decide)).mpr (List.mem_map_of_mem member)⟩
  · rintro ⟨first, inside⟩
    rw [mem_returned_ring (source_ring first.mem) (by decide)] at inside
    obtain ⟨f, member, same⟩ := List.mem_map.mp inside
    have first' := (mem_keepNew.mp (List.mem_of_mem_take member)).2
    exact first'.unique first same ▸ member

/-- The rows of what has no entry are right if each is the only one. -/
theorem beyondRows_implement (once : ∀ s ∈ beyond store focus, tieCount store.graph s focus = 1) :
    (beyondRows store focus).countP (·.kind = .implements) =
      (beyond store focus).countP fun s => !extendsTie store.graph s focus := by
  have single : ∀ e ∈ beyondRows store focus,
      ((beyondRows store focus).countP fun f => decide (f.source = e.source)) = 1 := by
    intro e row
    have member := (mem_beyondRows.mp row).2
    rw [beyondRows_ties member, once _ member]
  have distinct := keys_nodup (fun e : TypeEdge => e.source) single
  have perm : (beyond store focus).Perm ((beyondRows store focus).map (·.source)) := by
    refine (List.perm_ext_iff_of_nodup beyond_nodup distinct).mpr fun s => ⟨fun member => ?_, ?_⟩
    · have some_ := beyondRows_ties member
      rw [once s member] at some_
      obtain ⟨e, row, source⟩ := List.countP_pos_iff.mp (some_ ▸ Nat.one_pos)
      exact List.mem_map.mpr ⟨e, row, of_decide_eq_true source⟩
    · rintro listed
      obtain ⟨e, row, rfl⟩ := List.mem_map.mp listed
      exact (mem_beyondRows.mp row).2
  rw [perm.countP_eq, List.countP_map]
  refine List.countP_congr fun e row => ?_
  have tie := mem_levelRows_zero.mp (mem_beyondRows.mp row).1
  rw [Function.comp_apply, noExtendsTie_iff, decide_eq_true_eq, implements_iff tie.1.2.1]
  constructor
  · rintro other ⟨f, ties, kind⟩
    have row' : f ∈ beyondRows store focus := by
      refine mem_beyondRows.mpr ⟨mem_levelRows_zero.mpr ?_, ?_⟩ <;> rw [ties.2.2.1]
      · exact ⟨ties, tie.2⟩
      · exact (mem_beyondRows.mp row).2
    exact other (List.inj_on_of_nodup_map distinct row' row ties.2.2.1 ▸ kind)
  · exact fun none_ kind => none_ ⟨e, tie.1, kind⟩

theorem implementers_exact (once : ∀ s ∈ beyond store focus, tieCount store.graph s focus = 1) :
    Counts (directImplementers store focus) (fun s => (DirectSubtype store.graph focus s ∧ s ≠ focus) ∧
        ¬∃ e, Ties store.graph e s focus ∧ e.kind = .extends) ↔
      ∀ e, First (·.source) (levelRows store focus 0) e → e.source ∈ returned store focus →
        (∃ f, Ties store.graph f e.source focus ∧ f.kind = .extends) → e.kind = .extends := by
  have all : Counts ((ring store focus 1).countP fun s => !extendsTie store.graph s focus)
      fun s => (DirectSubtype store.graph focus s ∧ s ≠ focus) ∧
        ¬∃ e, Ties store.graph e s focus ∧ e.kind = .extends := by
    refine ⟨(ring store focus 1).filter fun s => !extendsTie store.graph s focus,
      Rows.ring_nodup.filter _, fun s => ?_, List.countP_eq_length_filter.symm⟩
    simp only [List.mem_filter, mem_ring_one, noExtendsTie_iff]
  have split : (ring store focus 1).countP (fun s => !extendsTie store.graph s focus) =
      (keptFirsts MAX_DESCENDANTS (levelRows store focus 0)).countP
          (fun e => !extendsTie store.graph e.source focus) +
        (beyondRows store focus).countP (·.kind = .implements) := by
    have front : (ring store focus 1).take MAX_DESCENDANTS =
        (keptFirsts MAX_DESCENDANTS (levelRows store focus 0)).map (·.source) := kept_levelRows.symm
    rw [beyondRows_implement once, beyond]
    conv_lhs => rw [← List.take_append_drop MAX_DESCENDANTS (ring store focus 1)]
    rw [List.countP_append, front, List.countP_map]
    rfl
  have total : directImplementers store focus =
      (keptFirsts MAX_DESCENDANTS (levelRows store focus 0)).countP (·.kind = .implements) +
        (beyondRows store focus).countP (·.kind = .implements) := rfl
  have tie : ∀ e ∈ keptFirsts MAX_DESCENDANTS (levelRows store focus 0),
      Ties store.graph e e.source focus :=
    fun e member => (mem_levelRows_zero.mp (mem_keptFirsts.mp member).1.mem).1
  rw [all.iff, total, split, Nat.add_right_cancel_iff, countP_exact]
  · constructor
    · intro right e first inside both
      have member := mem_keptFirsts.mpr ⟨first, inside⟩
      by_contra other
      have implements_ := (implements_iff (tie e member).2.1).mpr other
      exact noExtendsTie_iff.mp (right e member (decide_eq_true implements_)) both
    · intro right e member implements_
      refine noExtendsTie_iff.mpr fun both => ?_
      obtain ⟨first, inside⟩ := mem_keptFirsts.mp member
      exact (implements_iff (tie e member).2.1).mp (of_decide_eq_true implements_) (right e first inside both)
  · intro e member none_
    rw [decide_eq_true_eq, implements_iff (tie e member).2.1]
    exact fun kind => noExtendsTie_iff.mp none_ ⟨e, tie e member, kind⟩

/-! ### The hidden subtypes -/

theorem returned_depth (member : p ∈ returned store focus)
    (far : IsDistance (DirectSubtype store.graph) focus p d) : d ≤ MAX_DESCENDANT_DEPTH := by
  obtain ⟨m, -, le, far'⟩ := mem_within.mp (List.mem_of_mem_take member)
  exact far.unique far' ▸ le

/-- An edge that is counted as a hidden subtype of a type whose level there was room for. At the last
level its far end need not exist. -/
def hiddenEdge (store : TypeStore) (focus p : NodeId) (d : Nat) (e : TypeEdge) : Bool :=
  e.kind ∈ HIERARCHY_KINDS ∧ e.target = p ∧ (e.source ≠ focus ∧ e.source ∉ returned store focus) ∧
    (store.graph.Exists e.source ∨ d = MAX_DESCENDANT_DEPTH)

theorem hiddenEdge_iff {e : TypeEdge} : hiddenEdge store focus p d e = true ↔
    e.kind ∈ HIERARCHY_KINDS ∧ e.target = p ∧ NotReturned store focus e.source ∧
      (store.graph.Exists e.source ∨ d = MAX_DESCENDANT_DEPTH) := by
  simp only [hiddenEdge, decide_eq_true_eq, NotReturned]

theorem hiddenOf_edges (level : p ∈ ring store focus d) (le : d ≤ MAX_DESCENDANT_DEPTH)
    (fits : (within store focus d).length ≤ MAX_DESCENDANTS) :
    hiddenOf store focus p d = store.graph.edges.countP (hiddenEdge store focus p d) := by
  rw [hiddenOf, if_neg (Nat.not_lt_of_le fits)]
  split
  · next last =>
    have all : returned store focus = within store focus d := by
      rw [returned, ← last, List.take_of_length_le fits]
    rw [(hierarchyEdges_down_perm _).countP_eq, List.countP_filter]
    refine List.countP_congr fun e _ => ?_
    rw [hiddenEdge_iff, NotReturned]
    simp only [Bool.and_eq_true, decide_eq_true_eq, all, closer_within, List.mem_cons, not_or]
    constructor
    · rintro ⟨⟨⟨other, outside⟩, target⟩, -, kind⟩
      exact ⟨kind, target, ⟨other, outside⟩, .inr last⟩
    · rintro ⟨kind, target, ⟨other, outside⟩, -⟩
      exact ⟨⟨⟨other, outside⟩, target⟩, target ▸ level, kind⟩
  · next inner =>
    have less : d < MAX_DESCENDANT_DEPTH := Nat.lt_of_le_of_ne le inner
    rw [lostRows, List.countP_filter, levelRows_countP]
    refine List.countP_congr fun e edge => ?_
    rw [hiddenEdge_iff]
    simp only [Bool.and_eq_true, decide_eq_true_eq]
    constructor
    · rintro ⟨⟨target, outside⟩, kind, exists_, near, farther⟩
      have row := mem_levelRows.mpr ⟨edge, kind, exists_, near, farther⟩
      rw [← mem_returned_ring (source_ring row) less] at outside
      rw [closer_within, List.mem_cons, not_or] at farther
      exact ⟨kind, target, ⟨farther.1, outside⟩, .inl exists_⟩
    · rintro ⟨kind, target, outside, there⟩
      have exists_ := there.resolve_right inner
      have farther := notReturned_closer fits le outside
      have near : e.target ∈ ring store focus d := target ▸ level
      have row := mem_levelRows.mpr ⟨edge, kind, exists_, near, farther⟩
      have outside' := outside.2
      rw [mem_returned_ring (source_ring row) less] at outside'
      exact ⟨⟨target, outside'⟩, kind, exists_, near, farther⟩

def Unnamed (store : TypeStore) (focus p s : NodeId) : Prop :=
  DirectSubtype store.graph p s ∧ NotReturned store focus s ∧ ¬Ancestor store focus s

theorem exists_unnamed (store : TypeStore) (focus p : NodeId) : ∃ n, Counts n (Unnamed store focus p) := by
  refine exists_counts (store.graph.edges.map (·.source)) fun s unnamed => ?_
  obtain ⟨e, edge, -, source, -⟩ := unnamed.1.2
  exact List.mem_map.mpr ⟨e, edge, source⟩

theorem counts_none : Counts 0 (Unnamed store focus p) ↔
    ∀ s, DirectSubtype store.graph p s → NotReturned store focus s → Ancestor store focus s := by
  constructor
  · rintro ⟨ids, -, all, none_⟩ s direct outside
    by_contra other
    have listed := (all s).mpr ⟨direct, outside, other⟩
    rw [List.eq_nil_of_length_eq_zero none_] at listed
    cases listed
  · intro ancestors
    refine ⟨[], List.nodup_nil, fun s => ⟨fun none_ => (nomatch none_), ?_⟩, rfl⟩
    rintro ⟨direct, outside, other⟩
    exact absurd (ancestors s direct outside) other

theorem hidden_capped (capped : MAX_DESCENDANTS < (within store focus d).length) :
    Counts (hiddenOf store focus p d) (Unnamed store focus p) ↔
      ∀ s, DirectSubtype store.graph p s → NotReturned store focus s → Ancestor store focus s := by
  rw [hiddenOf, if_pos capped, counts_none]

theorem hiddenEdge_ties (unnamed : Unnamed store focus p s) :
    (store.graph.edges.countP fun e => hiddenEdge store focus p d e && decide (e.source = s)) =
      tieCount store.graph s p := by
  refine List.countP_congr fun e _ => ?_
  rw [Bool.and_eq_true, hiddenEdge_iff]
  simp only [Bool.and_eq_true, decide_eq_true_eq]
  constructor
  · rintro ⟨⟨kind, target, -⟩, source⟩
    exact ⟨⟨kind, target⟩, source⟩
  · rintro ⟨⟨kind, target⟩, rfl⟩
    exact ⟨⟨kind, target, unnamed.2.1, .inl unnamed.1.1⟩, rfl⟩

/-- Of a type whose level there was room for, every edge of what is not returned is counted. -/
theorem hidden_fits (level : p ∈ ring store focus d) (le : d ≤ MAX_DESCENDANT_DEPTH)
    (fits : (within store focus d).length ≤ MAX_DESCENDANTS) :
    Counts (hiddenOf store focus p d) (Unnamed store focus p) ↔
      (∀ s, DirectSubtype store.graph p s → NotReturned store focus s →
        ¬Ancestor store focus s ∧ tieCount store.graph s p = 1) ∧
      (d = MAX_DESCENDANT_DEPTH → ∀ e s, Ties store.graph e s p → NotReturned store focus s →
        store.graph.Exists s) := by
  obtain ⟨n, wanted⟩ := exists_unnamed store focus p
  obtain ⟨ids, distinct, all, rfl⟩ := id wanted
  have some_ : ∀ s ∈ ids, 1 ≤ store.graph.edges.countP fun e =>
      hiddenEdge store focus p d e && decide (e.source = s) := fun s listed => by
    rw [hiddenEdge_ties ((all s).mp listed)]
    exact tieCount_pos ((all s).mp listed).1.2
  rw [wanted.iff, hiddenOf_edges level le fits, countP_once _ distinct some_]
  constructor
  · rintro ⟨inside, ones⟩
    have unnamed : ∀ e s, Ties store.graph e s p → NotReturned store focus s →
        (store.graph.Exists s ∨ d = MAX_DESCENDANT_DEPTH) → Unnamed store focus p s := by
      rintro e s ⟨edge, kind, rfl, target⟩ outside there
      exact (all _).mp (inside e edge (hiddenEdge_iff.mpr ⟨kind, target, outside, there⟩))
    constructor
    · intro s direct outside
      obtain ⟨e, tie⟩ := direct.2
      have here := unnamed e s tie outside (.inl direct.1)
      exact ⟨here.2.2, (hiddenEdge_ties here).symm.trans (ones s ((all s).mpr here))⟩
    · intro last e s tie outside
      exact (unnamed e s tie outside (.inr last)).1.1
  · rintro ⟨once, present⟩
    constructor
    · intro e edge counted
      obtain ⟨kind, target, outside, there⟩ := hiddenEdge_iff.mp counted
      have tie : Ties store.graph e e.source p := ⟨edge, kind, rfl, target⟩
      have exists_ : store.graph.Exists e.source :=
        there.elim (fun h => h) fun last => present last e e.source tie outside
      have direct : DirectSubtype store.graph p e.source := ⟨exists_, e, tie⟩
      exact (all _).mpr ⟨direct, outside, (once e.source direct outside).1⟩
    · intro s listed
      have unnamed := (all s).mp listed
      rw [hiddenEdge_ties unnamed]
      exact (once s unnamed.1 unnamed.2.1).2

theorem reaches_distance (reaches : TransGen (DirectSubtype store.graph) focus s) :
    ∃ m, IsDistance (DirectSubtype store.graph) focus s m := by
  obtain ⟨n, walk⟩ := exists_walk reaches.to_reflTransGen
  obtain ⟨m, -, far⟩ := walk.distance
  exact ⟨m, far⟩

theorem distance_reaches (far : IsDistance (DirectSubtype store.graph) focus s (n + 1)) :
    TransGen (DirectSubtype store.graph) focus s := by
  obtain ⟨a, near, step⟩ := far.before
  exact TransGen.tail' near.1.reaches step

theorem bounded_exact (present : ∀ p ∈ returned store focus,
      IsDistance (DirectSubtype store.graph) focus p MAX_DESCENDANT_DEPTH →
        (within store focus MAX_DESCENDANT_DEPTH).length ≤ MAX_DESCENDANTS →
          ∀ e s, Ties store.graph e s p → NotReturned store focus s → store.graph.Exists s) :
    (MAX_DESCENDANTS < (within store focus MAX_DESCENDANT_DEPTH).length ∨
        ∃ e ∈ hierarchyEdges store (ring store focus MAX_DESCENDANT_DEPTH) .down,
          e.source ∉ closer store focus MAX_DESCENDANT_DEPTH) ↔
      ∃ s, TransGen (DirectSubtype store.graph) focus s ∧ s ≠ focus ∧ s ∉ returned store focus := by
  by_cases capped : MAX_DESCENDANTS < (within store focus MAX_DESCENDANT_DEPTH).length
  · refine ⟨fun _ => ?_, fun _ => .inl capped⟩
    have distinct : (within store focus MAX_DESCENDANT_DEPTH).Nodup := within_nodup
    rw [← List.take_append_drop MAX_DESCENDANTS (within store focus _), List.nodup_append] at distinct
    obtain ⟨s, outside⟩ : ∃ s, s ∈ (within store focus MAX_DESCENDANT_DEPTH).drop MAX_DESCENDANTS :=
      List.exists_mem_of_length_pos (by rw [List.length_drop]; omega)
    obtain ⟨m, some_, -, far⟩ := mem_within.mp (List.mem_of_mem_drop outside)
    refine ⟨s, ?_, (distance_pos far).mp some_, fun inside => distinct.2.2 s inside s outside rfl⟩
    obtain ⟨m, rfl⟩ := Nat.exists_eq_add_of_le' some_
    exact distance_reaches far
  · have fits := Nat.le_of_not_lt capped
    have all : returned store focus = within store focus MAX_DESCENDANT_DEPTH :=
      List.take_of_length_le fits
    constructor
    · rintro (more | ⟨e, row, farther⟩)
      · exact absurd more capped
      · obtain ⟨edge, near, kind⟩ := mem_hierarchyEdges_down.mp row
        have level := mem_ring.mp near
        have inside : e.target ∈ returned store focus := by
          rw [all]
          exact mem_within.mpr ⟨MAX_DESCENDANT_DEPTH, by decide, Nat.le_refl _, level⟩
        rw [closer_within, List.mem_cons, not_or, ← all] at farther
        have exists_ := present e.target inside level fits e e.source ⟨edge, kind, rfl, rfl⟩ farther
        obtain ⟨a, zero, -⟩ := level.before
        refine ⟨e.source, TransGen.tail' level.1.reaches ⟨exists_, e, edge, kind, rfl, rfl⟩, farther⟩
    · rintro ⟨s, reaches, other, outside⟩
      obtain ⟨m, far⟩ := reaches_distance reaches
      have positive := (distance_pos far).mpr other
      rw [all, mem_within] at outside
      have later : MAX_DESCENDANT_DEPTH + 1 ≤ m := Nat.lt_of_not_le fun le => outside ⟨m, positive, le, far⟩
      have next : ring store focus (MAX_DESCENDANT_DEPTH + 1) ≠ [] := by
        intro empty
        have listed := mem_ring.mpr far
        rw [ring, Rows.ring_empty empty later] at listed
        cases listed
      obtain ⟨t, listed⟩ := List.exists_mem_of_ne_nil _ next
      rw [← firstKeys_levelRows, mem_firstKeys] at listed
      obtain ⟨e, row, -⟩ := List.mem_map.mp listed
      obtain ⟨edge, kind, -, near, farther⟩ := mem_levelRows.mp row
      exact .inr ⟨e, mem_hierarchyEdges_down.mpr ⟨edge, near, kind⟩, farther⟩

structure BuiltFrom (store : TypeStore) (localeCompare : JsString → JsString → Int) (focus : TypeNode)
    (result : TypeHierarchy) : Prop where
  same : result.focus = focus
  ancestors : result.ancestors = walkAncestors store localeCompare focus
  descendants : result.descendants = (walkDescendants store localeCompare focus).entries
  direct : result.directSubtypes = (walkDescendants store localeCompare focus).directTotal
  implementers : result.directImplementers = (walkDescendants store localeCompare focus).directImplementers
  bounded : result.bounded = (walkDescendants store localeCompare focus).bounded

theorem builtFrom {focus : TypeNode} {overrides : Bool} {result : TypeHierarchy}
    (built : buildTypeHierarchy store localeCompare focus overrides = some result) :
    BuiltFrom store localeCompare focus result := by
  simp only [buildTypeHierarchy, Option.ite_none_left_eq_some] at built
  cases built.2.2
  exact ⟨rfl, rfl, rfl, rfl, rfl, rfl⟩

/-- The counts are right exactly if every type that they are about is counted once. -/
theorem buildTypeHierarchy_counts {focus : TypeNode} {overrides : Bool} {result : TypeHierarchy}
    (built : buildTypeHierarchy store localeCompare focus overrides = some result) :
    SubtypeCounts store.graph result ↔ CountedOnce store focus.id := by
  obtain ⟨same, ancestors, descendants, direct, implementers, bounded⟩ := builtFrom built
  have fan := walkDescendants_result store localeCompare focus
  obtain ⟨above_, found⟩ := walkAncestors_entries store localeCompare focus
  have named : ∀ s, s ∈ entryIds result.descendants ↔ s ∈ returned store focus.id := fun s => by
    rw [descendants]
    exact fan.ids.mem_iff
  have supertype : ∀ s, s ∈ entryIds result.ancestors ↔ Ancestor store focus.id s := fun s => by
    rw [ancestors]
    exact found s
  have unnamed : ∀ x, (fun s => DirectSubtype store.graph x s ∧ ¬Named result s) =
      Unnamed store focus.id x := by
    intro x
    funext s
    rw [Named, named, same, supertype, not_or, not_or, Unnamed, NotReturned]
    refine propext ?_
    tauto
  constructor
  · intro counts
    have once := counts.direct
    rw [same, direct, fan.total, direct_exact] at once
    have firsts := counts.implementers
    rw [same, implementers, fan.implementers, implementers_exact once] at firsts
    have hidden : ∀ p d, p ∈ returned store focus.id →
        IsDistance (DirectSubtype store.graph) focus.id p d →
          Counts (hiddenOf store focus.id p d) (Unnamed store focus.id p) := by
      intro p d inside far
      obtain ⟨x, member, rfl⟩ := List.mem_map.mp (fan.ids.mem_iff.mpr inside)
      have count := counts.hidden x (List.mem_append_right _ (descendants ▸ member))
      rwa [unnamed, fan.hidden x member, (fan.entries x member).distance.unique far] at count
    refine ⟨fun s direct outside => once s (mem_beyond.mpr ⟨direct, outside⟩), firsts,
      fun p d inside far s direct outside => ?_, fun p inside far fits => ?_, fun a ancestor s direct outside => ?_⟩
    · have count := hidden p d inside far
      split
      · next capped => exact (hidden_capped capped).mp count s direct outside
      · next fits =>
        exact ((hidden_fits (mem_ring.mpr far) (returned_depth inside far) (Nat.le_of_not_lt fits)).mp
          count).1 s direct outside
    · exact ((hidden_fits (mem_ring.mpr far) (Nat.le_refl _) fits).mp (hidden p _ inside far)).2 rfl
    · obtain ⟨x, member, rfl⟩ := List.mem_map.mp ((found a).mpr ancestor)
      have count := counts.hidden x (List.mem_append_left _ (ancestors ▸ member))
      rw [unnamed, (above_ x member).hidden] at count
      exact counts_none.mp count s direct outside
  · intro once
    have ones : ∀ s ∈ beyond store focus.id, tieCount store.graph s focus.id = 1 := by
      intro s member
      obtain ⟨direct, outside⟩ := mem_beyond.mp member
      exact once.direct s direct outside
    refine ⟨?_, ?_, fun x member => ?_, ?_⟩
    · rw [same, direct, fan.total, direct_exact]
      exact ones
    · rw [same, implementers, fan.implementers, implementers_exact ones]
      exact once.extendsFirst
    · rw [unnamed]
      rcases List.mem_append.mp member with up | down
      · rw [ancestors] at up
        rw [(above_ x up).hidden]
        exact counts_none.mpr (once.ancestors _ ((found x.node.id).mp (List.mem_map_of_mem up)))
      · rw [descendants] at down
        have inside := fan.ids.mem_iff.mp (List.mem_map_of_mem (f := fun x => x.node.id) down)
        have far := (fan.entries x down).distance
        have hidden := once.hidden x.node.id x.depth inside far
        rw [fan.hidden x down]
        by_cases capped : MAX_DESCENDANTS < (within store focus.id x.depth).length
        · simp only [if_pos capped] at hidden
          exact (hidden_capped capped).mpr hidden
        · simp only [if_neg capped] at hidden
          have fits := Nat.le_of_not_lt capped
          refine (hidden_fits (mem_ring.mpr far) (returned_depth inside far) fits).mpr
            ⟨hidden, fun last => ?_⟩
          rw [last] at far fits
          exact once.present x.node.id inside far fits
    · rw [bounded, fan.bounded, bounded_exact once.present, same]
      simp only [named]

def chainType (id : NodeId) : TypeNode where
  id := id
  kind := .class
  language := .typescript
  name := utf16 id
  filePath := utf16 "chain.ts"
  startLine := 1

def chainTie (id : Nat) (sub super : NodeId) (kind : EdgeKind) (provenance : Option Provenance) : TypeEdge where
  id := id
  source := sub
  target := super
  kind := kind
  line := none
  column := none
  provenance := provenance

def chainGraph : TypeGraph where
  nodes := ["a", "b", "c", "d", "e", "f", "g", "h"].map chainType
  edges := [
    chainTie 1 "b" "a" .extends none,
    chainTie 2 "c" "b" .extends none,
    chainTie 3 "d" "c" .extends none,
    chainTie 4 "e" "d" .extends none,
    chainTie 5 "f" "e" .extends none,
    chainTie 6 "g" "f" .extends none,
    chainTie 7 "h" "g" .extends none,
    chainTie 8 "h" "g" .implements (some .heuristic)]

theorem buildTypeHierarchy_counts_chain :
    ∃ result, buildTypeHierarchy chainGraph.inOrder (fun _ _ => 0) (chainType "a") = some result ∧
      (SubtypeCounts chainGraph result ↔ CountedOnce chainGraph.inOrder "a") := by
  have some_ : (buildTypeHierarchy chainGraph.inOrder (fun _ _ => 0) (chainType "a")).isSome := by
    decide +kernel
  obtain ⟨result, built⟩ := Option.isSome_iff_exists.mp some_
  exact ⟨result, built, buildTypeHierarchy_counts built⟩

/-- The one subtype below the last level is counted twice. -/
theorem buildTypeHierarchy_countsTwice :
    ∃ result, buildTypeHierarchy chainGraph.inOrder (fun _ _ => 0) (chainType "a") = some result ∧
      (∃ x ∈ result.descendants, x.node.id = "g" ∧ x.hiddenSubtypes = 2 ∧
        Counts 1 fun s => DirectSubtype chainGraph x.node.id s ∧ ¬Named result s) ∧
      ¬SubtypeCounts chainGraph result := by
  have run : (buildTypeHierarchy chainGraph.inOrder (fun _ _ => 0) (chainType "a")).map
      (fun r => (r.focus.id, entryIds r.ancestors,
        r.descendants.map fun x => (x.node.id, x.hiddenSubtypes))) =
      some ("a", [], [("b", 0), ("c", 0), ("d", 0), ("e", 0), ("f", 0), ("g", 2)]) := by decide +kernel
  obtain ⟨result, built, fields⟩ := Option.map_eq_some_iff.mp run
  simp only [Prod.mk.injEq] at fields
  obtain ⟨focus, ancestors, descendants⟩ := fields
  have listed : ("g", 2) ∈ result.descendants.map fun x => (x.node.id, x.hiddenSubtypes) := by
    rw [descendants]
    decide
  obtain ⟨x, member, same⟩ := List.mem_map.mp listed
  obtain ⟨named, counted⟩ := Prod.mk.inj same
  have ids : entryIds result.descendants = ["b", "c", "d", "e", "f", "g"] := by
    have firsts := congrArg (List.map Prod.fst) descendants
    rwa [List.map_map] at firsts
  have single : Counts 1 fun s => DirectSubtype chainGraph x.node.id s ∧ ¬Named result s := by
    refine ⟨["h"], List.nodup_singleton _, fun s => ?_, rfl⟩
    simp only [List.mem_singleton, named, Named, focus, ancestors, ids]
    constructor
    · rintro rfl
      exact ⟨⟨by decide +kernel, chainTie 7 "h" "g" .extends none, by decide, by decide, rfl, rfl⟩, by decide⟩
    · rintro ⟨⟨-, e, edge, -, rfl, target⟩, -⟩
      have only : ∀ e ∈ chainGraph.edges, e.target = "g" → e.source = "h" := by decide
      exact only e edge target
  refine ⟨result, built, ⟨x, member, named, counted, single⟩, fun counts => ?_⟩
  have two := counts.hidden x (List.mem_append_right _ member)
  rw [counted] at two
  exact absurd (two.unique single) (by decide)

end CodeGraph.Graph.TypeTree
