import CodeGraph.Graph.TypeFan

/-! What the downward walk of the type hierarchy returns. -/
namespace CodeGraph.Graph.TypeTree

open Distance FirstByKey Rings InsertionMap Text

variable {store : TypeStore} {localeCompare : JsString → JsString → Int} {focus : NodeId}
  {n d : Nat} {fan : Fan} {frontier : List NodeId} {x : HierarchyEntry}

/-! ### The levels below the focus -/

def ring (store : TypeStore) (focus : NodeId) (n : Nat) : List NodeId := (below store).ring focus n

def closer (store : TypeStore) (focus : NodeId) (n : Nat) : List NodeId :=
  (below store).closer focus n

def within (store : TypeStore) (focus : NodeId) : Nat → List NodeId
  | 0 => []
  | n + 1 => within store focus n ++ ring store focus (n + 1)

def levelRows (store : TypeStore) (focus : NodeId) (n : Nat) : List TypeEdge :=
  newRows store.graph (closer store focus n) (hierarchyEdges store (ring store focus n) .down)

def returned (store : TypeStore) (focus : NodeId) : List NodeId :=
  (within store focus MAX_DESCENDANT_DEPTH).take MAX_DESCENDANTS

theorem closer_within : closer store focus n = focus :: within store focus n := by
  induction n with
  | zero => rfl
  | succ n ih =>
    rw [closer, Rows.closer_succ]
    exact congrArg (· ++ ring store focus (n + 1)) ih

theorem mem_ring {id : NodeId} :
    id ∈ ring store focus n ↔ IsDistance (DirectSubtype store.graph) focus id n := by
  rw [ring, Rows.mem_ring, below_step]

theorem mem_within {id : NodeId} : id ∈ within store focus n ↔
    ∃ m, 1 ≤ m ∧ m ≤ n ∧ IsDistance (DirectSubtype store.graph) focus id m := by
  induction n with
  | zero =>
    refine ⟨fun none_ => (nomatch none_), ?_⟩
    rintro ⟨m, some_, le, -⟩
    omega
  | succ n ih =>
    rw [within, List.mem_append, ih, mem_ring]
    constructor
    · rintro (⟨m, some_, le, far⟩ | far)
      · exact ⟨m, some_, by omega, far⟩
      · exact ⟨n + 1, by omega, Nat.le_refl _, far⟩
    · rintro ⟨m, some_, le, far⟩
      rcases Nat.lt_or_eq_of_le le with less | rfl
      · exact .inl ⟨m, some_, by omega, far⟩
      · exact .inr far

theorem within_nodup : (within store focus n).Nodup := by
  have nodup : (closer store focus n).Nodup := Rows.closer_nodup
  rw [closer_within, List.nodup_cons] at nodup
  exact nodup.2

variable (store focus) in
theorem within_prefix {m : Nat} (le : n ≤ m) : ∃ rest, within store focus m = within store focus n ++ rest := by
  induction le with
  | refl => exact ⟨[], (List.append_nil _).symm⟩
  | @step m _ ih =>
    obtain ⟨rest, whole⟩ := ih
    exact ⟨rest ++ ring store focus (m + 1), by rw [within, whole, List.append_assoc]⟩

variable (store focus) in
theorem within_length {m : Nat} (le : n ≤ m) :
    (within store focus n).length ≤ (within store focus m).length := by
  obtain ⟨rest, whole⟩ := within_prefix store focus le
  rw [whole, List.length_append]
  omega

theorem firstKeys_levelRows : firstKeys (·.source) (levelRows store focus n) = ring store focus (n + 1) := by
  rw [ring, Rows.ring_succ, Rows.nextRing]
  have split : keepNew (fun e : TypeEdge => e.source) ([] ++ closer store focus n)
      ((below store).rows (ring store focus n)) = _ := keepNew_filter []
  rw [List.nil_append] at split
  exact congrArg (List.map _) split.symm

theorem mem_levelRows {e : TypeEdge} : e ∈ levelRows store focus n ↔
    e ∈ store.graph.edges ∧ e.kind ∈ HIERARCHY_KINDS ∧ store.graph.Exists e.source ∧
      e.target ∈ ring store focus n ∧ e.source ∉ closer store focus n := by
  simp only [levelRows, newRows, List.mem_filter, mem_hierarchyEdges_down, decide_eq_true_eq]
  tauto

def roomAt (store : TypeStore) (focus : NodeId) (n : Nat) : Nat :=
  MAX_DESCENDANTS - (within store focus n).length

theorem kept_levelRows {room : Nat} :
    kept room (levelRows store focus n) = (ring store focus (n + 1)).take room := by
  rw [kept_firstKeys, firstKeys_levelRows]

theorem lostRows_fits (fits : (within store focus (n + 1)).length ≤ MAX_DESCENDANTS) :
    lostRows (roomAt store focus n) (levelRows store focus n) = [] := by
  refine List.filter_eq_nil_iff.mpr fun e listed => ?_
  rw [within, List.length_append] at fits
  rw [decide_eq_true_eq, not_not, kept_levelRows, roomAt, List.take_of_length_le (by omega),
    ← firstKeys_levelRows, mem_firstKeys]
  exact List.mem_map_of_mem listed

theorem lostRows_capped (few : (within store focus n).length ≤ MAX_DESCENDANTS)
    (capped : MAX_DESCENDANTS < (within store focus (n + 1)).length) :
    lostRows (roomAt store focus n) (levelRows store focus n) ≠ [] := by
  rw [within, List.length_append] at capped
  intro none_
  have all : ring store focus (n + 1) ⊆ (ring store focus (n + 1)).take (roomAt store focus n) := by
    intro id member
    rw [← firstKeys_levelRows, mem_firstKeys] at member
    obtain ⟨e, listed, rfl⟩ := List.mem_map.mp member
    have inside := List.filter_eq_nil_iff.mp none_ e listed
    rw [decide_eq_true_eq, not_not, kept_levelRows] at inside
    exact inside
  have nodup : (ring store focus (n + 1)).Nodup := Rows.ring_nodup
  have fits := (List.subperm_of_subset nodup all).length_le
  rw [List.length_take, roomAt] at fits
  omega

def withHidden (x : HierarchyEntry) (more : Nat) : HierarchyEntry :=
  { x with hiddenSubtypes := x.hiddenSubtypes + more }

theorem addHidden_all {overflow : List (NodeId × Nat)} (distinct : (overflow.map Prod.fst).Nodup)
    (entries : List HierarchyEntry) :
    overflow.foldl addHidden entries =
      entries.map fun x => withHidden x ((lookup overflow x.node.id).getD 0) := by
  induction overflow generalizing entries with
  | nil => exact (List.map_id entries).symm
  | cons o overflow ih =>
    rw [List.map_cons, List.nodup_cons] at distinct
    rw [List.foldl_cons, ih distinct.2, addHidden, List.map_map]
    refine List.map_congr_left fun x _ => ?_
    have absent := lookup_none.mpr distinct.1
    by_cases here : x.node.id = o.1
    · simp [withHidden, lookup_cons, here, absent]
    · have other : ¬o.1 = x.node.id := fun h => here h.symm
      simp [withHidden, lookup_cons, here, other]

theorem belowLast_all (seen : List NodeId) (edges : List TypeEdge) (entries : List HierarchyEntry)
    (bounded : Bool) :
    edges.foldl (belowLast seen) (entries, bounded) =
      (entries.map fun x =>
          withHidden x (edges.countP fun e => e.source ∉ seen ∧ e.target = x.node.id),
        bounded || edges.any fun e => e.source ∉ seen) := by
  induction edges generalizing entries bounded with
  | nil => exact Prod.ext (List.map_id entries).symm (Bool.or_false bounded).symm
  | cons e edges ih =>
    rw [List.foldl_cons, belowLast]
    by_cases old : e.source ∈ seen
    · rw [if_pos old, ih]
      simp [old]
    · rw [if_neg old, ih, addHidden, List.map_map]
      refine Prod.ext (List.map_congr_left fun x _ => ?_) (by simp [old])
      by_cases here : x.node.id = e.target
      · simp [withHidden, here, old, Nat.add_assoc, Nat.add_comm 1]
      · have other : ¬e.target = x.node.id := fun h => here h.symm
        simp [withHidden, here, other]

/-! ### The walk -/

structure DescendantEntry (store : TypeStore) (focus : NodeId) (x : HierarchyEntry) : Prop where
  node : store.graph.getNodeById x.node.id = some x.node
  positive : 1 ≤ x.depth
  distance : IsDistance (DirectSubtype store.graph) focus x.node.id x.depth
  parent : ∃ r, First (·.source) (levelRows store focus (x.depth - 1)) r ∧ r.source = x.node.id ∧
    x.parentId = r.target
  merged : Merged (levelRows store focus (x.depth - 1)) x

def directTotal (store : TypeStore) (focus : NodeId) : Nat :=
  (kept MAX_DESCENDANTS (levelRows store focus 0)).length +
    (lostRows MAX_DESCENDANTS (levelRows store focus 0)).length

def directImplementers (store : TypeStore) (focus : NodeId) : Nat :=
  (keptFirsts MAX_DESCENDANTS (levelRows store focus 0)).countP (·.kind = .implements) +
    (lostRows MAX_DESCENDANTS (levelRows store focus 0)).countP (·.kind = .implements)

/-- The hidden subtypes counted for a type at a distance: the rows of what there was no room for, and
at the last level every row from what has not been seen. -/
def hiddenOf (store : TypeStore) (focus : NodeId) (id : NodeId) (d : Nat) : Nat :=
  if MAX_DESCENDANTS < (within store focus d).length then 0
  else if d = MAX_DESCENDANT_DEPTH then
    (hierarchyEdges store (ring store focus d) .down).countP fun e =>
      e.source ∉ closer store focus d ∧ e.target = id
  else (lostRows (roomAt store focus d) (levelRows store focus d)).countP (·.target = id)

structure FanResult (store : TypeStore) (focus : NodeId) (fan : Fan) : Prop where
  ids : (entryIds fan.entries).Perm (returned store focus)
  entries : ∀ x ∈ fan.entries, DescendantEntry store focus x
  total : fan.directTotal = directTotal store focus
  implementers : fan.directImplementers = directImplementers store focus
  hidden : ∀ x ∈ fan.entries, x.hiddenSubtypes = hiddenOf store focus x.node.id x.depth
  bounded : fan.bounded = true ↔
    MAX_DESCENDANTS < (within store focus MAX_DESCENDANT_DEPTH).length ∨
      ∃ e ∈ hierarchyEdges store (ring store focus MAX_DESCENDANT_DEPTH) .down,
        e.source ∉ closer store focus MAX_DESCENDANT_DEPTH

/-- What the walk has when it has been through the levels up to `n` and there was room. -/
structure FanAt (store : TypeStore) (focus : NodeId) (n : Nat) (fan : Fan) (frontier : List NodeId) :
    Prop where
  level : AtLevel (below store) focus n fan.seen frontier
  few : (within store focus n).length ≤ MAX_DESCENDANTS
  ids : (entryIds fan.entries).Perm (within store focus n)
  entries : ∀ x ∈ fan.entries, DescendantEntry store focus x
  total : fan.directTotal = if n = 0 then 0 else directTotal store focus
  implementers : fan.directImplementers = if n = 0 then 0 else directImplementers store focus
  hidden : ∀ x ∈ fan.entries, x.hiddenSubtypes = 0
  bounded : fan.bounded = false

theorem lostRows_earlier {id : NodeId} {room : Nat}
    (far : IsDistance (DirectSubtype store.graph) focus id d) (other : d ≠ n) :
    (lostRows room (levelRows store focus n)).countP (·.target = id) = 0 := by
  refine List.countP_eq_zero.mpr fun e listed same => ?_
  have row := mem_levelRows.mp (List.mem_filter.mp listed).1
  have equal : e.target = id := of_decide_eq_true same
  exact other (far.unique (mem_ring.mp (equal ▸ row.2.2.2.1)))

theorem hiddenOf_fits {id : NodeId} (less : d < MAX_DESCENDANT_DEPTH)
    (fits : (within store focus (d + 1)).length ≤ MAX_DESCENDANTS) :
    hiddenOf store focus id d = 0 := by
  have here := within_length store focus (Nat.le_add_right d 1)
  rw [hiddenOf, if_neg (by omega), if_neg (by omega), lostRows_fits fits]
  rfl

theorem FanAt.depth_le (at_ : FanAt store focus n fan frontier) (member : x ∈ fan.entries) :
    x.depth ≤ n := by
  have listed := at_.ids.mem_iff.mp (List.mem_map_of_mem member)
  obtain ⟨m, -, le, far⟩ := mem_within.mp listed
  rw [(at_.entries x member).distance.unique far]
  exact le

/-- When there is nothing more below, what the walk has is what it returns. -/
theorem FanAt.finished (at_ : FanAt store focus n fan frontier) (less : n < MAX_DESCENDANT_DEPTH)
    (none_ : frontier = [] ∨ hierarchyEdges store frontier .down = []) : FanResult store focus fan := by
  have farthest : ∀ m, n < m → ring store focus m = [] := fun m more =>
    List.eq_nil_iff_forall_not_mem.mpr fun id listed => by
      refine at_.level.last (none_.imp_right fun edges => ?_) more (Rows.mem_ring.mp listed)
      simp only [below, edges, List.filter_nil]
  have same : ∀ m, n ≤ m → within store focus m = within store focus n := by
    intro m le
    induction le with
    | refl => rfl
    | @step m le ih => rw [within, ih, farthest (m + 1) (Nat.lt_succ_of_le le), List.append_nil]
  have whole := same MAX_DESCENDANT_DEPTH (Nat.le_of_lt less)
  have first : n = 0 → levelRows store focus 0 = [] := by
    rintro rfl
    refine List.eq_nil_iff_forall_not_mem.mpr fun e row => ?_
    have listed : e.source ∈ ring store focus 1 := by
      rw [← firstKeys_levelRows, mem_firstKeys]
      exact List.mem_map_of_mem row
    rw [farthest 1 (Nat.lt_succ_self 0)] at listed
    cases listed
  refine ⟨?_, at_.entries, ?_, ?_, fun x member => ?_, ?_⟩
  · rw [returned, whole, List.take_of_length_le at_.few]
    exact at_.ids
  · rw [at_.total]
    split
    · next zero => simp [directTotal, first zero, kept, keptFirsts, keepNew, lostRows]
    · rfl
  · rw [at_.implementers]
    split
    · next zero => simp [directImplementers, first zero, keptFirsts, keepNew, lostRows]
    · rfl
  · have le := at_.depth_le member
    rw [at_.hidden x member, hiddenOf_fits (by omega)]
    have length := within_length store focus
      (show x.depth + 1 ≤ MAX_DESCENDANT_DEPTH by omega)
    rw [whole] at length
    exact Nat.le_trans length at_.few
  · rw [at_.bounded, whole, farthest _ less]
    refine ⟨fun none_ => (by cases none_), ?_⟩
    rintro (capped | ⟨e, row, -⟩)
    · have few := at_.few
      omega
    · exact absurd (mem_hierarchyEdges_down.mp row).2.1 List.not_mem_nil

/-! ### One level -/

theorem withHidden_entry {more : Nat} (entry : DescendantEntry store focus x) :
    DescendantEntry store focus (withHidden x more) :=
  ⟨entry.node, entry.positive, entry.distance, entry.parent, entry.merged⟩

def scanLevel (store : TypeStore) (depth : Nat) (fan : Fan) (frontier : List NodeId) : LevelScan :=
  let edges := hierarchyEdges store frontier .down
  edges.foldl
    (descendantRow (store.graph.getNodesByIds (edges.map (·.source))) depth
      (MAX_DESCENDANTS - fan.entries.length) fan.seen)
    ⟨[], [], [], fan.directTotal, fan.directImplementers, fan.bounded⟩

def nextFan (store : TypeStore) (localeCompare : JsString → JsString → Int) (depth : Nat) (fan : Fan)
    (frontier : List NodeId) : Fan :=
  let scan := scanLevel store depth fan frontier
  { entries := scan.overflow.foldl addHidden (fan.entries ++ sortLevel localeCompare scan.level)
    seen := fan.seen ++ entryIds scan.level
    directTotal := scan.directTotal
    directImplementers := scan.directImplementers
    bounded := scan.bounded }

theorem FanAt.scanned (at_ : FanAt store focus n fan frontier) :
    LevelScanned store.graph (n + 1) (roomAt store focus n)
      ⟨[], [], [], fan.directTotal, fan.directImplementers, fan.bounded⟩ (levelRows store focus n)
      (scanLevel store (n + 1) fan frontier) := by
  have rows : newRows store.graph fan.seen (hierarchyEdges store frontier .down) =
      levelRows store focus n := by
    rw [levelRows, newRows, newRows, hierarchyEdges_congr at_.level.frontier]
    exact List.filter_congr fun e _ => by simp only [at_.level.seen]; rfl
  have room : MAX_DESCENDANTS - fan.entries.length = roomAt store focus n := by
    have length := at_.ids.length_eq
    rw [entryIds, List.length_map] at length
    rw [roomAt, length]
  have looked : ∀ e ∈ hierarchyEdges store frontier .down,
      store.graph.getNodesByIds ((hierarchyEdges store frontier .down).map (·.source)) e.source =
        store.graph.getNodeById e.source :=
    fun e row => if_pos (List.mem_map_of_mem row)
  have all := descendantRows_scanned fan.seen looked
    (fun e row => (mem_hierarchyEdges_down.mp row).2.2)
    (levelScanned_nil store.graph (n + 1) (roomAt store focus n) fan.directTotal
      fan.directImplementers fan.bounded)
  rw [List.nil_append, rows] at all
  rw [scanLevel, room]
  exact all

structure NextLevel (store : TypeStore) (focus : NodeId) (n : Nat) (fan : Fan) : Prop where
  ids : (entryIds fan.entries).Perm ((within store focus (n + 1)).take MAX_DESCENDANTS)
  entries : ∀ x ∈ fan.entries, DescendantEntry store focus x
  total : fan.directTotal = directTotal store focus
  implementers : fan.directImplementers = directImplementers store focus
  hidden : ∀ x ∈ fan.entries, x.hiddenSubtypes =
    (lostRows (roomAt store focus n) (levelRows store focus n)).countP (·.target = x.node.id)
  bounded : fan.bounded = decide (lostRows (roomAt store focus n) (levelRows store focus n) ≠ [])

variable (localeCompare) in
theorem FanAt.nextLevel (at_ : FanAt store focus n fan frontier) :
    NextLevel store focus n (nextFan store localeCompare (n + 1) fan frontier) := by
  have scanned := at_.scanned
  have perm := sortLevel_perm localeCompare (scanLevel store (n + 1) fan frontier).level
  have entries : (nextFan store localeCompare (n + 1) fan frontier).entries =
      (fan.entries ++ sortLevel localeCompare (scanLevel store (n + 1) fan frontier).level).map fun x =>
        withHidden x ((lookup (scanLevel store (n + 1) fan frontier).overflow x.node.id).getD 0) :=
    addHidden_all scanned.overflowKeys _
  have older : ∀ x ∈ fan.entries ++ sortLevel localeCompare (scanLevel store (n + 1) fan frontier).level,
      DescendantEntry store focus x ∧ x.hiddenSubtypes = 0 := by
    intro x member
    rcases List.mem_append.mp member with earlier | later
    · exact ⟨at_.entries x earlier, at_.hidden x earlier⟩
    · have listed := perm.mem_iff.mp later
      have entry := scanned.entries x listed
      have inRing : x.node.id ∈ ring store focus (n + 1) := by
        have inKept : x.node.id ∈ entryIds (scanLevel store (n + 1) fan frontier).level :=
          List.mem_map_of_mem listed
        rw [scanned.ids, kept_levelRows] at inKept
        exact List.mem_of_mem_take inKept
      refine ⟨⟨entry.node, ?_, ?_, ?_, ?_⟩, entry.hidden⟩
      · rw [entry.depth]
        omega
      · rw [entry.depth]
        exact mem_ring.mp inRing
      · rw [entry.depth, Nat.add_sub_cancel]
        exact entry.parent
      · rw [entry.depth, Nat.add_sub_cancel]
        exact entry.merged
  refine ⟨?_, fun x member => ?_, ?_, ?_, fun x member => ?_, ?_⟩
  · have ids : entryIds (nextFan store localeCompare (n + 1) fan frontier).entries =
        entryIds fan.entries ++
          entryIds (sortLevel localeCompare (scanLevel store (n + 1) fan frontier).level) := by
      rw [entries, entryIds, List.map_map, entryIds, entryIds, ← List.map_append]
      rfl
    have levelIds : (entryIds (sortLevel localeCompare (scanLevel store (n + 1) fan frontier).level)).Perm
        ((ring store focus (n + 1)).take (roomAt store focus n)) := by
      rw [← kept_levelRows, ← scanned.ids]
      exact perm.map _
    have few := at_.few
    rw [ids, within, List.take_append, List.take_of_length_le few]
    exact at_.ids.append levelIds
  · rw [entries] at member
    obtain ⟨y, held, rfl⟩ := List.mem_map.mp member
    exact withHidden_entry (older y held).1
  · have total : (scanLevel store (n + 1) fan frontier).directTotal = fan.directTotal + _ :=
      scanned.directTotal
    rw [at_.total] at total
    by_cases zero : n = 0
    · subst zero
      rw [if_pos rfl, if_pos rfl] at total
      exact total.trans (Nat.zero_add _)
    · rw [if_neg zero, if_neg (by omega), Nat.add_zero] at total
      exact total
  · have implementers : (scanLevel store (n + 1) fan frontier).directImplementers =
        fan.directImplementers + _ := scanned.directImplementers
    rw [at_.implementers] at implementers
    by_cases zero : n = 0
    · subst zero
      rw [if_pos rfl, if_pos rfl] at implementers
      exact implementers.trans (Nat.zero_add _)
    · rw [if_neg zero, if_neg (by omega), Nat.add_zero] at implementers
      exact implementers
  · rw [entries] at member
    obtain ⟨y, held, rfl⟩ := List.mem_map.mp member
    have none_ := (older y held).2
    simp only [withHidden, none_, Nat.zero_add]
    exact scanned.overflow y.node.id
  · have bounded := scanned.bounded
    simp only [at_.bounded, Bool.false_or] at bounded
    exact bounded

/-- With no room for the next level, what the fan has with it is what is returned. -/
theorem FanAt.capped (at_ : FanAt store focus n fan frontier) (less : n < MAX_DESCENDANT_DEPTH)
    (capped : MAX_DESCENDANTS < (within store focus (n + 1)).length) :
    FanResult store focus (nextFan store localeCompare (n + 1) fan frontier) := by
  obtain ⟨ids, entries, total, implementers, hidden, bounded⟩ :=
    at_.nextLevel localeCompare
  obtain ⟨rest, whole⟩ := within_prefix store focus
    (show n + 1 ≤ MAX_DESCENDANT_DEPTH from less)
  refine ⟨?_, entries, total, implementers, fun x member => ?_, ?_⟩
  · rw [returned, whole, List.take_append_of_le_length (Nat.le_of_lt capped)]
    exact ids
  · rw [hidden x member]
    have far := (entries x member).distance
    have listed := ids.mem_iff.mp (List.mem_map_of_mem member)
    obtain ⟨m, -, le, far'⟩ := mem_within.mp (List.mem_of_mem_take listed)
    have depth : x.depth ≤ n + 1 := far.unique far' ▸ le
    rcases Nat.lt_trichotomy x.depth n with earlier | rfl | later
    · have few := at_.few
      have length := within_length store focus (show x.depth + 1 ≤ n from earlier)
      rw [lostRows_earlier far (Nat.ne_of_lt earlier), hiddenOf_fits (by omega) (by omega)]
    · have few := at_.few
      rw [hiddenOf, if_neg (by omega), if_neg (Nat.ne_of_lt less)]
    · have last : x.depth = n + 1 := by omega
      rw [lostRows_earlier far (Nat.ne_of_gt later), hiddenOf, last, if_pos capped]
  · rw [bounded]
    refine ⟨fun _ => .inl ?_, fun _ => decide_eq_true (lostRows_capped at_.few capped)⟩
    rw [whole, List.length_append]
    omega

variable (localeCompare) in
theorem FanAt.next (at_ : FanAt store focus n fan frontier)
    (fits : (within store focus (n + 1)).length ≤ MAX_DESCENDANTS) :
    FanAt store focus (n + 1) (nextFan store localeCompare (n + 1) fan frontier)
      (entryIds (sortLevel localeCompare (scanLevel store (n + 1) fan frontier).level)) := by
  obtain ⟨ids, entries, total, implementers, hidden, bounded⟩ :=
    at_.nextLevel localeCompare
  have none_ := lostRows_fits fits
  have levelIds : entryIds (scanLevel store (n + 1) fan frontier).level = ring store focus (n + 1) := by
    rw [at_.scanned.ids, kept_levelRows]
    rw [within, List.length_append] at fits
    exact List.take_of_length_le (by rw [roomAt]; omega)
  have perm := sortLevel_perm localeCompare (scanLevel store (n + 1) fan frontier).level
  refine ⟨⟨fun y => ?_, fun y => ?_⟩, fits, ?_, entries, ?_, ?_, fun x member => ?_, ?_⟩
  · have seen : (nextFan store localeCompare (n + 1) fan frontier).seen =
        fan.seen ++ ring store focus (n + 1) := by
      rw [← levelIds]
      rfl
    rw [seen, List.mem_append, at_.level.seen, Rows.closer_succ, List.mem_append]
    rfl
  · rw [entryIds, (perm.map fun x : HierarchyEntry => x.node.id).mem_iff]
    exact iff_of_eq (congrArg (y ∈ ·) levelIds)
  · rwa [List.take_of_length_le fits] at ids
  · rw [total, if_neg (Nat.succ_ne_zero n)]
  · rw [implementers, if_neg (Nat.succ_ne_zero n)]
  · rw [hidden x member, none_]
    rfl
  · rw [bounded, none_]
    rfl

theorem FanAt.last (at_ : FanAt store focus n fan frontier) (here : n = MAX_DESCENDANT_DEPTH) :
    FanResult store focus
      { fan with
        entries := ((hierarchyEdges store frontier .down).foldl (belowLast fan.seen)
          (fan.entries, fan.bounded)).1
        bounded := ((hierarchyEdges store frontier .down).foldl (belowLast fan.seen)
          (fan.entries, fan.bounded)).2 } := by
  subst here
  rw [belowLast_all, hierarchyEdges_congr at_.level.frontier]
  have few := at_.few
  have seen : ∀ id, id ∉ fan.seen ↔ id ∉ closer store focus MAX_DESCENDANT_DEPTH :=
    fun id => (at_.level.seen id).not
  refine ⟨?_, fun x member => ?_, at_.total, at_.implementers, fun x member => ?_, ?_⟩
  · rw [returned, List.take_of_length_le few, entryIds, List.map_map]
    exact at_.ids
  · obtain ⟨y, held, rfl⟩ := List.mem_map.mp member
    exact withHidden_entry (at_.entries y held)
  · obtain ⟨y, held, rfl⟩ := List.mem_map.mp member
    have none_ := at_.hidden y held
    have far := (at_.entries y held).distance
    simp only [withHidden, none_, Nat.zero_add, seen]
    rcases Nat.lt_or_eq_of_le (at_.depth_le held) with earlier | last
    · have length := within_length store focus
        (show y.depth + 1 ≤ MAX_DESCENDANT_DEPTH from earlier)
      rw [hiddenOf_fits earlier (by omega)]
      refine List.countP_eq_zero.mpr fun e row counted => ?_
      have equal : e.target = y.node.id := (of_decide_eq_true counted).2
      have listed := (mem_hierarchyEdges_down.mp row).2.1
      rw [equal, ← ring, mem_ring] at listed
      exact absurd (far.unique listed) (Nat.ne_of_lt earlier)
    · rw [hiddenOf, last, if_neg (by omega), if_pos rfl]
      rfl
  · simp only [at_.bounded, Bool.false_or, List.any_eq_true, decide_eq_true_eq, seen]
    refine ⟨.inr, fun h => h.resolve_left ?_⟩
    omega

theorem descendantLevels_result {left : Nat} (at_ : FanAt store focus n fan frontier)
    (levels : n + left = MAX_DESCENDANT_DEPTH) (some_ : left ≠ 0) :
    FanResult store focus (descendantLevels store localeCompare left (n + 1) fan frontier) := by
  induction left generalizing n fan frontier with
  | zero => exact absurd rfl some_
  | succ left ih =>
    have less : n < MAX_DESCENDANT_DEPTH := by omega
    have unfolded : descendantLevels store localeCompare (left + 1) (n + 1) fan frontier =
        if frontier = [] ∨ hierarchyEdges store frontier .down = [] then fan
        else
          let next := nextFan store localeCompare (n + 1) fan frontier
          if next.bounded then next
          else
            let frontier' := entryIds (sortLevel localeCompare (scanLevel store (n + 1) fan frontier).level)
            if n + 1 = MAX_DESCENDANT_DEPTH ∧ frontier' ≠ [] then
              let last := (hierarchyEdges store frontier' .down).foldl (belowLast next.seen)
                (next.entries, next.bounded)
              descendantLevels store localeCompare left (n + 1 + 1)
                { next with entries := last.1, bounded := last.2 } frontier'
            else descendantLevels store localeCompare left (n + 1 + 1) next frontier' := rfl
    rw [unfolded]
    split
    · next none_ => exact at_.finished less none_
    have bounded := (at_.nextLevel localeCompare).bounded
    by_cases lost : (nextFan store localeCompare (n + 1) fan frontier).bounded = true
    · simp only [if_pos lost]
      rw [bounded, decide_eq_true_eq] at lost
      exact at_.capped less (Nat.lt_of_not_le fun fits => lost (lostRows_fits fits))
    · simp only [if_neg lost]
      rw [bounded, decide_eq_true_eq] at lost
      have fits : (within store focus (n + 1)).length ≤ MAX_DESCENDANTS :=
        Nat.le_of_not_lt fun capped => lost (lostRows_capped at_.few capped)
      have next := at_.next localeCompare fits
      split
      · next both =>
        have none_left : left = 0 := by omega
        subst none_left
        exact next.last both.1
      · next more =>
        by_cases here : n + 1 = MAX_DESCENDANT_DEPTH
        · have none_left : left = 0 := by omega
          subst none_left
          have empty := not_not.mp (not_and.mp more here)
          have result := next.last here
          have nothing : hierarchyEdges store [] .down = [] :=
            List.eq_nil_iff_forall_not_mem.mpr fun e row =>
              absurd (mem_hierarchyEdges_down.mp row).2.1 List.not_mem_nil
          rw [empty, nothing] at result
          exact result
        · exact ih next (by omega) (by omega)

theorem walkDescendants_result (store : TypeStore) (localeCompare : JsString → JsString → Int)
    (focus : TypeNode) : FanResult store focus.id (walkDescendants store localeCompare focus) := by
  have start : FanAt store focus.id 0 ⟨[], [focus.id], 0, 0, false⟩ [focus.id] :=
    ⟨⟨fun _ => Iff.rfl, fun _ => Iff.rfl⟩, Nat.zero_le _, .nil, fun _ none_ => (nomatch none_), rfl, rfl,
      fun _ none_ => (nomatch none_), rfl⟩
  exact descendantLevels_result start (Nat.zero_add _) (by decide)

end CodeGraph.Graph.TypeTree
