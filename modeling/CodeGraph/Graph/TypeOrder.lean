import CodeGraph.Graph.TypeCounts

/-! What of the type hierarchy depends on the order of the rows. -/
namespace CodeGraph.Graph.TypeTree

open Distance FirstByKey Rings Text Tally

variable {graph : TypeGraph} {store first second : TypeStore}
  {localeCompare : JsString → JsString → Int} {focus s t : NodeId} {d : Nat} {e f : TypeEdge}

/-! ### The same tree -/

structure SameEntry (x y : HierarchyEntry) : Prop where
  depth : x.depth = y.depth
  relation : x.relation = y.relation
  parent : x.parentId = y.parentId
  synthesized : x.synthesized = y.synthesized

structure SameEntries (xs ys : List HierarchyEntry) : Prop where
  ids : ∀ id, id ∈ entryIds xs ↔ id ∈ entryIds ys
  entries : ∀ x ∈ xs, ∀ y ∈ ys, x.node.id = y.node.id → SameEntry x y

structure SameTree (a b : TypeHierarchy) : Prop where
  ancestors : SameEntries a.ancestors b.ancestors
  descendants : SameEntries a.descendants b.descendants
  direct : a.directSubtypes = b.directSubtypes
  implementers : a.directImplementers = b.directImplementers

def Agree : Option TypeHierarchy → Option TypeHierarchy → Prop
  | some a, some b => SameTree a b
  | none, none => True
  | _, _ => False

def OrderFree (graph : TypeGraph) (localeCompare : JsString → JsString → Int) (focus : TypeNode)
    (overrides : Bool) : Prop :=
  ∀ first second : TypeStore, first.graph = graph → second.graph = graph →
    Agree (buildTypeHierarchy first localeCompare focus overrides)
      (buildTypeHierarchy second localeCompare focus overrides)

def RoomForAll (graph : TypeGraph) (focus : NodeId) : Prop :=
  (within graph.inOrder focus MAX_DESCENDANT_DEPTH).length ≤ MAX_DESCENDANTS

def RowUp (graph : TypeGraph) (focus : NodeId) (d : Nat) (t : NodeId) (e : TypeEdge) : Prop :=
  Ties graph e e.source t ∧ IsDistance (DirectSupertype graph) focus e.source d

def RowDown (graph : TypeGraph) (focus : NodeId) (d : Nat) (s : NodeId) (e : TypeEdge) : Prop :=
  Ties graph e s e.target ∧ IsDistance (DirectSubtype graph) focus e.target d

/-- The edges from one level to a type of the next do not differ in what an entry takes from them. -/
structure RowsAlike (graph : TypeGraph) (focus : NodeId) : Prop where
  up : ∀ d t, d < MAX_ANCESTOR_DEPTH → IsDistance (DirectSupertype graph) focus t (d + 1) →
    ∀ e f, RowUp graph focus d t e → RowUp graph focus d t f →
      e.source = f.source ∧ relationOf e = relationOf f ∧ isHeuristic e = isHeuristic f
  parent : ∀ d s, d < MAX_DESCENDANT_DEPTH → IsDistance (DirectSubtype graph) focus s (d + 1) →
    ∀ e f, RowDown graph focus d s e → RowDown graph focus d s f → e.target = f.target
  extends_ : ∀ d s, d < MAX_DESCENDANT_DEPTH → IsDistance (DirectSubtype graph) focus s (d + 1) →
    ∀ e f, RowDown graph focus d s e → RowDown graph focus d s f →
      e.kind = .extends → f.kind = .extends → isHeuristic e = isHeuristic f
  implements_ : ∀ d s, d < MAX_DESCENDANT_DEPTH → IsDistance (DirectSubtype graph) focus s (d + 1) →
    (∀ g, RowDown graph focus d s g → g.kind ≠ .extends) →
      ∀ e f, RowDown graph focus d s e → RowDown graph focus d s f → isHeuristic e = isHeuristic f
  direct : ∀ s, IsDistance (DirectSubtype graph) focus s 1 →
    ∀ e f, RowDown graph focus 0 s e → RowDown graph focus 0 s f → e.kind = f.kind

theorem distance_exists (far : IsDistance (DirectSubtype graph) focus s (d + 1)) : graph.Exists s := by
  obtain ⟨a, -, step⟩ := far.before
  exact step.1

theorem mem_levelRows_rowDown (far : IsDistance (DirectSubtype store.graph) focus s (d + 1)) :
    e ∈ levelRows store focus d ∧ e.source = s ↔ RowDown store.graph focus d s e := by
  rw [mem_levelRows, mem_ring]
  constructor
  · rintro ⟨⟨edge, kind, -, near, -⟩, source⟩
    exact ⟨⟨edge, kind, source, rfl⟩, near⟩
  · rintro ⟨⟨edge, kind, rfl, -⟩, near⟩
    refine ⟨⟨edge, kind, distance_exists far, near, fun closer_ => ?_⟩, rfl⟩
    obtain ⟨m, le, other⟩ := Rows.mem_closer.mp closer_
    rw [below_step] at other
    have same := far.unique other
    omega

theorem mem_above_rowUp (there : store.graph.Exists t) :
    e ∈ (above store).rows ((above store).ring focus d) ∧ e.target = t ↔ RowUp store.graph focus d t e := by
  rw [(above store).mem_rows, Rows.mem_ring, above_step]
  constructor
  · rintro ⟨⟨near, edge, kind, -⟩, target⟩
    exact ⟨⟨edge, kind, rfl, target⟩, near⟩
  · rintro ⟨⟨edge, kind, -, rfl⟩, near⟩
    exact ⟨⟨near, edge, kind, there⟩, rfl⟩

theorem ancestors_same {focus : TypeNode} (same : second.graph = first.graph)
    (alike : RowsAlike first.graph focus.id) :
    SameEntries (walkAncestors first localeCompare focus) (walkAncestors second localeCompare focus) := by
  obtain ⟨entries, found⟩ := walkAncestors_entries first localeCompare focus
  obtain ⟨entries', found'⟩ := walkAncestors_entries second localeCompare focus
  rw [same] at found'
  refine ⟨fun id => (found id).trans (found' id).symm, fun x member y member' equal => ?_⟩
  have here := entries x member
  have there := entries' y member'
  have far := there.distance
  rw [same, ← equal] at far
  have depth := here.distance.unique far
  obtain ⟨m, some_, le, far'⟩ := (found x.node.id).mp (List.mem_map_of_mem member)
  obtain ⟨d, level⟩ : ∃ d, x.depth = d + 1 := Nat.exists_eq_add_of_le' (here.distance.unique far' ▸ some_)
  have less : d < MAX_ANCESTOR_DEPTH := by
    have equal := here.distance.unique far'
    omega
  have exists_ : first.graph.Exists x.node.id := by
    rw [TypeGraph.Exists, here.node]
    rfl
  obtain ⟨e, firstRow, target, parent, relation, synthesized⟩ := here.first
  obtain ⟨f, firstRow', target', parent', relation', synthesized'⟩ := there.first
  have rowE : RowUp first.graph focus.id d x.node.id e := by
    rw [level, Nat.add_sub_cancel] at firstRow
    exact (mem_above_rowUp exists_).mp ⟨firstRow.mem, target⟩
  have rowF : RowUp first.graph focus.id d x.node.id f := by
    rw [← depth, level, Nat.add_sub_cancel] at firstRow'
    rw [← same] at exists_ ⊢
    exact (mem_above_rowUp exists_).mp ⟨firstRow'.mem, target'.trans equal.symm⟩
  obtain ⟨source, kind, heuristic⟩ := alike.up d x.node.id less (level ▸ here.distance) e f rowE rowF
  exact ⟨depth, by rw [relation, relation', kind], by rw [parent, parent', source],
    by rw [synthesized, synthesized', heuristic]⟩

theorem descendants_same {focus : TypeNode} (same : second.graph = first.graph)
    (alike : RowsAlike first.graph focus.id)
    (ids : ∀ id, id ∈ returned first focus.id ↔ id ∈ returned second focus.id) :
    SameEntries (walkDescendants first localeCompare focus).entries
      (walkDescendants second localeCompare focus).entries := by
  have fan := walkDescendants_result first localeCompare focus
  have fan' := walkDescendants_result second localeCompare focus
  refine ⟨fun id => ?_, fun x member y member' equal => ?_⟩
  · rw [fan.ids.mem_iff, fan'.ids.mem_iff, ids]
  have here := fan.entries x member
  have there := fan'.entries y member'
  have far := there.distance
  rw [same, ← equal] at far
  have depth := here.distance.unique far
  have le := returned_depth (fan.ids.mem_iff.mp (List.mem_map_of_mem member)) here.distance
  obtain ⟨d, level⟩ : ∃ d, x.depth = d + 1 := Nat.exists_eq_add_of_le' here.positive
  have less : d < MAX_DESCENDANT_DEPTH := by omega
  have level' : y.depth = d + 1 := depth ▸ level
  have far : IsDistance (DirectSubtype first.graph) focus.id x.node.id (d + 1) := level ▸ here.distance
  have rowOf : ∀ r, r ∈ levelRows first focus.id d → r.source = x.node.id →
      RowDown first.graph focus.id d x.node.id r :=
    fun r row source => (mem_levelRows_rowDown far).mp ⟨row, source⟩
  have rowOf' : ∀ r, r ∈ levelRows second focus.id d → r.source = y.node.id →
      RowDown first.graph focus.id d x.node.id r := by
    intro r row source
    rw [← same] at far ⊢
    exact (mem_levelRows_rowDown far).mp ⟨row, source.trans equal.symm⟩
  have rows : ∀ r, RowDown first.graph focus.id d x.node.id r →
      r ∈ levelRows first focus.id d ∧ r.source = x.node.id :=
    fun r down => (mem_levelRows_rowDown far).mpr down
  have rows' : ∀ r, RowDown first.graph focus.id d x.node.id r →
      r ∈ levelRows second focus.id d ∧ r.source = x.node.id := by
    intro r down
    rw [← same] at far down
    exact (mem_levelRows_rowDown far).mpr down
  obtain ⟨r, firstRow, own, parent⟩ := here.parent
  obtain ⟨r', firstRow', own', parent'⟩ := there.parent
  have merged := here.merged
  have merged' := there.merged
  rw [level, Nat.add_sub_cancel] at firstRow merged
  rw [level', Nat.add_sub_cancel] at firstRow' merged'
  have target := alike.parent d _ less far r r' (rowOf r firstRow.mem own) (rowOf' r' firstRow'.mem own')
  have alike_ : x.relation = y.relation ∧ x.synthesized = y.synthesized := by
    rcases merged with ⟨e, firstE, ownE, relation, synthesized⟩ | ⟨none_, e, firstE, ownE, relation, synthesized⟩
    · obtain ⟨rowE, kindE⟩ := List.mem_filter.mp firstE.mem
      have downE := rowOf e rowE ownE
      rcases merged' with ⟨f, firstF, ownF, relation', synthesized'⟩ | ⟨none_', -⟩
      · obtain ⟨rowF, kindF⟩ := List.mem_filter.mp firstF.mem
        have heuristic := alike.extends_ d _ less far e f downE (rowOf' f rowF ownF)
          (of_decide_eq_true kindE) (of_decide_eq_true kindF)
        exact ⟨relation.trans relation'.symm, by rw [synthesized, synthesized', heuristic]⟩
      · obtain ⟨there_, source⟩ := rows' e downE
        exact absurd (of_decide_eq_true kindE) (none_' e there_ (source.trans equal))
    · have downE := rowOf e firstE.mem ownE
      have noneDown : ∀ g, RowDown first.graph focus.id d x.node.id g → g.kind ≠ .extends :=
        fun g down => none_ g (rows g down).1 (rows g down).2
      rcases merged' with ⟨f, firstF, ownF, -⟩ | ⟨-, f, firstF, ownF, relation', synthesized'⟩
      · obtain ⟨rowF, kindF⟩ := List.mem_filter.mp firstF.mem
        exact absurd (of_decide_eq_true kindF) (noneDown f (rowOf' f rowF ownF))
      · have heuristic := alike.implements_ d _ less far noneDown e f downE (rowOf' f firstF.mem ownF)
        exact ⟨relation.trans relation'.symm, by rw [synthesized, synthesized', heuristic]⟩
  exact ⟨depth, alike_.1, by rw [parent, parent', target], alike_.2⟩

/-! ### Room for all -/

theorem within_perm (same : second.graph = first.graph) (n : Nat) :
    (within first focus n).Perm (within second focus n) := by
  refine (List.perm_ext_iff_of_nodup within_nodup within_nodup).mpr fun id => ?_
  rw [mem_within, mem_within, same]

theorem RoomForAll.fits (room : RoomForAll store.graph focus) :
    (within store focus MAX_DESCENDANT_DEPTH).length ≤ MAX_DESCENDANTS := by
  have perm : (within store focus MAX_DESCENDANT_DEPTH).Perm
      (within store.graph.inOrder focus MAX_DESCENDANT_DEPTH) := by
    have same : store.graph.inOrder.graph = store.graph := rfl
    exact within_perm same MAX_DESCENDANT_DEPTH
  rw [perm.length_eq]
  exact room

theorem RoomForAll.returned (room : RoomForAll store.graph focus) :
    returned store focus = within store focus MAX_DESCENDANT_DEPTH := List.take_of_length_le room.fits

theorem RoomForAll.beyond (room : RoomForAll store.graph focus) : beyond store focus = [] := by
  refine List.eq_nil_iff_forall_not_mem.mpr fun s member => ?_
  obtain ⟨direct, other, outside⟩ := mem_beyond.mp member
  rw [room.returned, mem_within] at outside
  exact outside ⟨1, Nat.le_refl 1, by decide, mem_ring.mp (mem_ring_one.mpr ⟨direct, other⟩)⟩

theorem RoomForAll.direct (room : RoomForAll store.graph focus) :
    Counts (directTotal store focus) fun s => DirectSubtype store.graph focus s ∧ s ≠ focus := by
  refine direct_exact.mpr fun s member => ?_
  rw [room.beyond] at member
  cases member

theorem RoomForAll.implementers (room : RoomForAll store.graph focus) :
    Counts (directImplementers store focus) (fun s => (DirectSubtype store.graph focus s ∧ s ≠ focus) ∧
        ¬∃ e, Ties store.graph e s focus ∧ e.kind = .extends) ↔
      ∀ e, First (·.source) (levelRows store focus 0) e →
        (∃ f, Ties store.graph f e.source focus ∧ f.kind = .extends) → e.kind = .extends := by
  rw [implementers_exact fun s member => by
    rw [room.beyond] at member
    cases member]
  refine forall_congr' fun e => imp_congr_right fun firstRow => ?_
  have inside : e.source ∈ TypeTree.returned store focus := by
    rw [room.returned, mem_within]
    exact ⟨1, Nat.le_refl 1, by decide, mem_ring.mp (source_ring firstRow.mem)⟩
  exact ⟨fun h => h inside, fun h _ => h⟩

structure WalksAgree (first second : TypeStore) (localeCompare : JsString → JsString → Int)
    (focus : TypeNode) : Prop where
  ancestors : SameEntries (walkAncestors first localeCompare focus)
    (walkAncestors second localeCompare focus)
  descendants : SameEntries (walkDescendants first localeCompare focus).entries
    (walkDescendants second localeCompare focus).entries
  direct : (walkDescendants first localeCompare focus).directTotal =
    (walkDescendants second localeCompare focus).directTotal
  implementers : (walkDescendants first localeCompare focus).directImplementers =
    (walkDescendants second localeCompare focus).directImplementers

theorem SameEntries.empty {xs ys : List HierarchyEntry} (same : SameEntries xs ys) : xs = [] ↔ ys = [] := by
  constructor
  · rintro rfl
    refine List.eq_nil_iff_forall_not_mem.mpr fun y member => ?_
    exact absurd ((same.ids _).mpr (List.mem_map_of_mem member)) List.not_mem_nil
  · rintro rfl
    refine List.eq_nil_iff_forall_not_mem.mpr fun x member => ?_
    exact absurd ((same.ids _).mp (List.mem_map_of_mem member)) List.not_mem_nil

theorem agree_of_walks {focus : TypeNode} {overrides : Bool}
    (walks : WalksAgree first second localeCompare focus) :
    Agree (buildTypeHierarchy first localeCompare focus overrides)
      (buildTypeHierarchy second localeCompare focus overrides) := by
  rw [buildTypeHierarchy, buildTypeHierarchy]
  by_cases able : canHaveHierarchy focus = true
  · have other : ¬(!canHaveHierarchy focus) = true := by simp [able]
    rw [if_neg other, if_neg other]
    simp only [walks.ancestors.empty, walks.descendants.empty]
    split
    · trivial
    · exact ⟨walks.ancestors, walks.descendants, walks.direct, walks.implementers⟩
  · have other : (!canHaveHierarchy focus) = true := by simpa using able
    rw [if_pos other, if_pos other]
    trivial

theorem walks_of_agree {focus : TypeNode} {overrides : Bool} (able : canHaveHierarchy focus = true)
    (some_ : walkAncestors first localeCompare focus ≠ [] ∨
      (walkDescendants first localeCompare focus).entries ≠ [])
    (agree : Agree (buildTypeHierarchy first localeCompare focus overrides)
      (buildTypeHierarchy second localeCompare focus overrides)) :
    WalksAgree first second localeCompare focus := by
  cases run : buildTypeHierarchy first localeCompare focus overrides with
  | none =>
    have other : ¬(!canHaveHierarchy focus) = true := by simp [able]
    rw [buildTypeHierarchy, if_neg other, if_neg fun none_ => some_.elim (absurd none_.1) (absurd none_.2)] at run
    cases run
  | some a =>
    cases run' : buildTypeHierarchy second localeCompare focus overrides with
    | none =>
      rw [run, run'] at agree
      exact agree.elim
    | some b =>
      rw [run, run'] at agree
      obtain ⟨-, ancestors, descendants, direct, implementers, -⟩ := builtFrom run
      obtain ⟨-, ancestors', descendants', direct', implementers', -⟩ := builtFrom run'
      obtain ⟨up, down, total, tied⟩ := agree
      rw [ancestors, ancestors'] at up
      rw [descendants, descendants'] at down
      rw [direct, direct'] at total
      rw [implementers, implementers'] at tied
      exact ⟨up, down, total, tied⟩

theorem walks_same {focus : TypeNode} (same : second.graph = first.graph)
    (room : RoomForAll first.graph focus.id) (alike : RowsAlike first.graph focus.id) :
    WalksAgree first second localeCompare focus := by
  have room' : RoomForAll second.graph focus.id := same ▸ room
  have fan := walkDescendants_result first localeCompare focus
  have fan' := walkDescendants_result second localeCompare focus
  refine ⟨ancestors_same same alike, descendants_same same alike fun id => ?_, ?_, ?_⟩
  · rw [room.returned, room'.returned]
    exact (within_perm same MAX_DESCENDANT_DEPTH).mem_iff
  · have direct := room'.direct
    rw [same] at direct
    rw [fan.total, fan'.total]
    exact room.direct.unique direct
  · have extendsFirst : ∀ store : TypeStore, store.graph = first.graph →
        ∀ e, First (·.source) (levelRows store focus.id 0) e →
          (∃ f, Ties store.graph f e.source focus.id ∧ f.kind = .extends) → e.kind = .extends := by
      rintro store equal e firstRow ⟨f, tie, kind⟩
      have far := mem_ring.mp (source_ring firstRow.mem)
      have down := (mem_levelRows_rowDown far).mp ⟨firstRow.mem, rfl⟩
      have down' : RowDown store.graph focus.id 0 e.source f :=
        ⟨⟨tie.1, tie.2.1, tie.2.2.1, rfl⟩, tie.2.2.2 ▸ distance_zero _⟩
      rw [equal] at far down down'
      rw [alike.direct _ far e f down down']
      exact kind
    have counts := room.implementers.mpr (extendsFirst first rfl)
    have counts' := room'.implementers.mpr (extendsFirst second same)
    rw [same] at counts'
    rw [fan.implementers, fan'.implementers]
    exact counts.unique counts'

/-! ### An order that puts an edge first -/

def leading (e : TypeEdge) (rows : List TypeEdge) : List TypeEdge :=
  if e ∈ rows then e :: rows.erase e else rows

theorem leading_perm (e : TypeEdge) (rows : List TypeEdge) : (leading e rows).Perm rows := by
  rw [leading]
  split
  · next member => exact (List.perm_cons_erase member).symm
  · exact .refl rows

def TypeGraph.leading (graph : TypeGraph) (e : TypeEdge) : TypeStore where
  graph := graph
  orderOut := TypeTree.leading e
  orderIn := TypeTree.leading e
  orderOut_perm := leading_perm e
  orderIn_perm := leading_perm e

theorem leading_head {rows : List TypeEdge} (member : e ∈ rows) : (leading e rows).head? = some e := by
  rw [leading, if_pos member]
  rfl

theorem head_filter {rows : List TypeEdge} (head : rows.head? = some e) {p : TypeEdge → Bool}
    (holds : p e = true) : (rows.filter p).head? = some e := by
  cases rows with
  | nil => cases head
  | cons f rows =>
    cases head
    rw [List.filter_cons_of_pos holds]
    rfl

theorem head_firstRow {rows : List TypeEdge} (head : rows.head? = some e) (key : TypeEdge → NodeId) :
    First key rows e := by
  cases rows with
  | nil => cases head
  | cons f rows =>
    cases head
    exact first_cons.mpr (.inl rfl)

theorem above_leading (far : IsDistance (DirectSupertype graph) focus t (d + 1))
    (row : RowUp graph focus d t e) :
    ((above (graph.leading e)).rows ((above (graph.leading e)).ring focus d)).head? = some e := by
  obtain ⟨a, -, exists_, -⟩ := far.before
  obtain ⟨⟨edge, kind, -, target⟩, near⟩ := row
  have level : e.source ∈ (above (graph.leading e)).ring focus d := by
    rw [Rows.mem_ring, above_step]
    exact near
  refine head_filter (head_filter (leading_head ?_) ?_) ?_
  · exact List.mem_filter.mpr ⟨edge, decide_eq_true ⟨level, kind⟩⟩
  · exact decide_eq_true (hierarchy_kind.mp kind)
  · rw [target]
    exact decide_eq_true exists_

theorem levelRows_leading (far : IsDistance (DirectSubtype graph) focus s (d + 1))
    (row : RowDown graph focus d s e) : (levelRows (graph.leading e) focus d).head? = some e := by
  have member : e ∈ levelRows (graph.leading e) focus d := ((mem_levelRows_rowDown far).mpr row).1
  obtain ⟨edge, kind, exists_, near, farther⟩ := mem_levelRows.mp member
  refine head_filter (head_filter (head_filter (leading_head ?_) ?_) ?_) ?_
  · exact List.mem_filter.mpr ⟨edge, decide_eq_true ⟨near, kind⟩⟩
  · exact decide_eq_true (hierarchy_kind.mp kind)
  · exact decide_eq_true exists_
  · exact decide_eq_true farther

variable (localeCompare) in
theorem ancestor_leading {focus : TypeNode} (less : d < MAX_ANCESTOR_DEPTH)
    (far : IsDistance (DirectSupertype graph) focus.id t (d + 1)) (row : RowUp graph focus.id d t e) :
    ∃ x ∈ walkAncestors (graph.leading e) localeCompare focus, x.node.id = t ∧
      x.parentId = e.source ∧ x.relation = relationOf e ∧ x.synthesized = isHeuristic e := by
  obtain ⟨entries, found⟩ := walkAncestors_entries (graph.leading e) localeCompare focus
  obtain ⟨x, member, named⟩ := List.mem_map.mp ((found t).mpr ⟨d + 1, Nat.le_add_left 1 d, less, far⟩)
  have entry := entries x member
  have depth : x.depth = d + 1 := (named ▸ entry.distance).unique far
  obtain ⟨g, firstRow, target, parent, relation, synthesized⟩ := entry.first
  rw [depth, Nat.add_sub_cancel] at firstRow
  have same : g = e := firstRow.unique (head_firstRow (above_leading far row) _)
    (target.trans (named.trans row.1.2.2.2.symm))
  subst same
  exact ⟨x, member, named, parent, relation, synthesized⟩

variable (localeCompare) in
/-- The edge that comes first makes the entry of its subtype, but for a later `extends`. -/
theorem descendant_leading {focus : TypeNode} (room : RoomForAll graph focus.id)
    (less : d < MAX_DESCENDANT_DEPTH) (far : IsDistance (DirectSubtype graph) focus.id s (d + 1))
    (row : RowDown graph focus.id d s e) :
    ∃ x ∈ (walkDescendants (graph.leading e) localeCompare focus).entries, x.node.id = s ∧
      x.parentId = e.target ∧
      ((e.kind = .extends ∨ ∀ g, RowDown graph focus.id d s g → g.kind ≠ .extends) →
        x.synthesized = isHeuristic e) := by
  have fan := walkDescendants_result (graph.leading e) localeCompare focus
  have room' : RoomForAll (graph.leading e).graph focus.id := room
  have inside : s ∈ returned (graph.leading e) focus.id := by
    rw [room'.returned, mem_within]
    exact ⟨d + 1, Nat.le_add_left 1 d, less, far⟩
  obtain ⟨x, member, named⟩ := List.mem_map.mp (fan.ids.mem_iff.mpr inside)
  have entry := fan.entries x member
  have depth : x.depth = d + 1 := (named ▸ entry.distance).unique far
  have head := levelRows_leading far row
  obtain ⟨r, firstRow, own, parent⟩ := entry.parent
  have merged := entry.merged
  rw [depth, Nat.add_sub_cancel] at firstRow merged
  have same : r = e := firstRow.unique (head_firstRow head _) (own.trans (named.trans row.1.2.2.1.symm))
  refine ⟨x, member, named, by rw [parent, same], fun either => ?_⟩
  rcases merged with ⟨g, firstG, ownG, -, synthesized⟩ | ⟨none_, g, firstG, ownG, -, synthesized⟩
  · obtain ⟨rowG, kindG⟩ := List.mem_filter.mp firstG.mem
    have downG : RowDown graph focus.id d s g :=
      (show g ∈ levelRows (graph.leading e) focus.id d ∧ g.source = s ↔ _ from
        mem_levelRows_rowDown far).mp ⟨rowG, ownG.trans named⟩
    have kind : e.kind = .extends := by
      rcases either with kind | none_
      · exact kind
      · exact absurd (of_decide_eq_true kindG) (none_ g downG)
    have equal : g = e := firstG.unique (head_firstRow (head_filter head (decide_eq_true kind)) _)
      (ownG.trans (named.trans row.1.2.2.1.symm))
    rw [synthesized, equal]
  · have equal : g = e := firstG.unique (head_firstRow head _)
      (ownG.trans (named.trans row.1.2.2.1.symm))
    rw [synthesized, equal]

def extendsLeading (rows : List TypeEdge) : List TypeEdge :=
  rows.filter (·.kind = .extends) ++ rows.filter fun e => !decide (e.kind = .extends)

def TypeGraph.extendsLeading (graph : TypeGraph) : TypeStore where
  graph := graph
  orderOut := TypeTree.extendsLeading
  orderIn := TypeTree.extendsLeading
  orderOut_perm := List.filter_append_perm _
  orderIn_perm := List.filter_append_perm _

theorem extendsLeading_pairwise (rows : List TypeEdge) :
    (extendsLeading rows).Pairwise fun a b => b.kind = .extends → a.kind = .extends := by
  refine List.pairwise_append.mpr ⟨?_, ?_, fun a left b _ _ => of_decide_eq_true (List.mem_filter.mp left).2⟩
  · refine List.pairwise_of_forall_mem_list fun a left b _ _ => ?_
    exact of_decide_eq_true (List.mem_filter.mp left).2
  · refine List.pairwise_of_forall_mem_list fun a _ b right kind => ?_
    have other := (List.mem_filter.mp right).2
    rw [decide_eq_true kind] at other
    cases other

theorem extendsLeading_first (firstRow : First (·.source) (levelRows graph.extendsLeading focus 0) e)
    (both : ∃ f, Ties graph f e.source focus ∧ f.kind = .extends) : e.kind = .extends := by
  obtain ⟨f, tie, kind⟩ := both
  have far := mem_ring.mp (source_ring firstRow.mem)
  have down : RowDown graph focus 0 e.source f :=
    ⟨⟨tie.1, tie.2.1, tie.2.2.1, rfl⟩, tie.2.2.2 ▸ distance_zero _⟩
  have listed := ((mem_levelRows_rowDown far).mpr down).1
  have sorted : (levelRows graph.extendsLeading focus 0).Pairwise
      fun a b => b.kind = .extends → a.kind = .extends :=
    (((extendsLeading_pairwise _).filter _).filter _).filter _
  obtain ⟨before, after, whole, others⟩ := firstRow
  rw [whole] at listed sorted
  rcases List.mem_append.mp listed with earlier | later
  · exact absurd tie.2.2.1 (others f earlier)
  · rcases List.mem_cons.mp later with same | later
    · exact same ▸ kind
    · exact (List.pairwise_cons.mp (List.pairwise_append.mp sorted).2.1).1 f later kind

theorem OrderFree.alike {focus : TypeNode} {overrides : Bool} (able : canHaveHierarchy focus = true)
    (room : RoomForAll graph focus.id) (free : OrderFree graph localeCompare focus overrides) :
    RowsAlike graph focus.id := by
  -- an order for each of the two edges, and the same entry from both
  have down : ∀ d s, d < MAX_DESCENDANT_DEPTH → IsDistance (DirectSubtype graph) focus.id s (d + 1) →
      ∀ e f, RowDown graph focus.id d s e → RowDown graph focus.id d s f → e.target = f.target ∧
        ((e.kind = .extends ∨ ∀ g, RowDown graph focus.id d s g → g.kind ≠ .extends) →
          (f.kind = .extends ∨ ∀ g, RowDown graph focus.id d s g → g.kind ≠ .extends) →
            isHeuristic e = isHeuristic f) := by
    intro d s less far e f rowE rowF
    obtain ⟨x, member, named, parent, synthesized⟩ := descendant_leading localeCompare room less far rowE
    obtain ⟨y, member', named', parent', synthesized'⟩ := descendant_leading localeCompare room less far rowF
    have walks := walks_of_agree able (.inr (List.ne_nil_of_mem member))
      (free (graph.leading e) (graph.leading f) rfl rfl)
    have same := walks.descendants.entries x member y member' (named.trans named'.symm)
    refine ⟨by rw [← parent, same.parent, parent'], fun kindE kindF => ?_⟩
    rw [← synthesized kindE, same.synthesized, synthesized' kindF]
  refine ⟨fun d t less far e f rowE rowF => ?_, fun d s less far e f rowE rowF => ?_,
    fun d s less far e f rowE rowF kindE kindF => ?_, fun d s less far none_ e f rowE rowF => ?_,
    fun s far e f rowE rowF => ?_⟩
  · obtain ⟨x, member, named, parent, relation, synthesized⟩ := ancestor_leading localeCompare less far rowE
    obtain ⟨y, member', named', parent', relation', synthesized'⟩ :=
      ancestor_leading localeCompare less far rowF
    have walks := walks_of_agree able (.inl (List.ne_nil_of_mem member))
      (free (graph.leading e) (graph.leading f) rfl rfl)
    have same := walks.ancestors.entries x member y member' (named.trans named'.symm)
    exact ⟨by rw [← parent, same.parent, parent'], by rw [← relation, same.relation, relation'],
      by rw [← synthesized, same.synthesized, synthesized']⟩
  · exact (down d s less far e f rowE rowF).1
  · exact (down d s less far e f rowE rowF).2 (.inl kindE) (.inl kindF)
  · exact (down d s less far e f rowE rowF).2 (.inr none_) (.inr none_)
  · have wins : ∀ e f, RowDown graph focus.id 0 s e → RowDown graph focus.id 0 s f →
        e.kind = .extends → f.kind = .extends := by
      intro e f rowE rowF kind
      obtain ⟨x, member, named, -⟩ := descendant_leading localeCompare room (by decide) far rowF
      have walks := walks_of_agree able (.inr (List.ne_nil_of_mem member))
        (free (graph.leading f) graph.extendsLeading rfl rfl)
      have sorted : RoomForAll graph.extendsLeading.graph focus.id := room
      have counts := sorted.implementers.mpr fun g firstRow both => extendsLeading_first firstRow both
      rw [← (walkDescendants_result graph.extendsLeading localeCompare focus).implementers,
        ← walks.implementers,
        (walkDescendants_result (graph.leading f) localeCompare focus).implementers] at counts
      have room' : RoomForAll (graph.leading f).graph focus.id := room
      refine room'.implementers.mp counts f (head_firstRow (levelRows_leading far rowF) _) ⟨e, ?_, kind⟩
      refine ⟨rowE.1.1, rowE.1.2.1, rowE.1.2.2.1.trans rowF.1.2.2.1.symm, ?_⟩
      exact rowE.2.1.zero
    rcases hierarchy_kind.mp rowE.1.2.1 with kindE | kindE
    · rw [kindE, wins e f rowE rowF kindE]
    · rcases hierarchy_kind.mp rowF.1.2.1 with kindF | kindF
      · rw [kindF, wins f e rowF rowE kindF]
      · rw [kindE, kindF]

/-- The tree does not depend on the order of the rows exactly if the rows that lead from one level to a
type of the next are alike. -/
theorem buildTypeHierarchy_orderFree {focus : TypeNode} {overrides : Bool}
    (room : RoomForAll graph focus.id) : OrderFree graph localeCompare focus overrides ↔
      (canHaveHierarchy focus = true → RowsAlike graph focus.id) := by
  constructor
  · exact fun free able => free.alike able room
  · rintro alike first second rfl same
    by_cases able : canHaveHierarchy focus = true
    · exact agree_of_walks (walks_same same room (alike able))
    · have none_ : (!canHaveHierarchy focus) = true := by simpa using able
      rw [buildTypeHierarchy, buildTypeHierarchy, if_pos none_, if_pos none_]
      trivial

theorem buildTypeHierarchy_orderFree_chain :
    OrderFree chainGraph (fun _ _ => 0) (chainType "a") true ↔
      (canHaveHierarchy (chainType "a") = true → RowsAlike chainGraph "a") :=
  buildTypeHierarchy_orderFree
    (show (within chainGraph.inOrder "a" MAX_DESCENDANT_DEPTH).length ≤ MAX_DESCENDANTS by decide +kernel)

def tiedTwice : TypeGraph where
  nodes := ["a", "b"].map chainType
  edges := [
    chainTie 1 "b" "a" .extends none,
    chainTie 2 "b" "a" .implements (some .heuristic)]

/-- With the one row first the focus has an implementer, with the other it has none. -/
theorem buildTypeHierarchy_rowOrder :
    RoomForAll tiedTwice "a" ∧ ¬OrderFree tiedTwice (fun _ _ => 0) (chainType "a") true := by
  refine ⟨show (within tiedTwice.inOrder "a" MAX_DESCENDANT_DEPTH).length ≤ MAX_DESCENDANTS by
    decide +kernel, fun free => ?_⟩
  have agree := free (tiedTwice.leading (chainTie 1 "b" "a" .extends none))
    (tiedTwice.leading (chainTie 2 "b" "a" .implements (some .heuristic))) rfl rfl
  have none_ : (buildTypeHierarchy (tiedTwice.leading (chainTie 1 "b" "a" .extends none)) (fun _ _ => 0)
      (chainType "a")).map TypeHierarchy.directImplementers = some 0 := by decide +kernel
  have one : (buildTypeHierarchy (tiedTwice.leading (chainTie 2 "b" "a" .implements (some .heuristic)))
      (fun _ _ => 0) (chainType "a")).map TypeHierarchy.directImplementers = some 1 := by decide +kernel
  obtain ⟨a, run, zero⟩ := Option.map_eq_some_iff.mp none_
  obtain ⟨b, run', single⟩ := Option.map_eq_some_iff.mp one
  rw [run, run'] at agree
  have equal := agree.implementers
  rw [zero, single] at equal
  cases equal

end CodeGraph.Graph.TypeTree
