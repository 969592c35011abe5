import CodeGraph.Graph.TypeLevels

/-! What the downward walk makes of the rows of one level. -/
namespace CodeGraph.Graph.TypeTree

open Distance FirstByKey Rings InsertionMap Text

variable {store : TypeStore} {graph : TypeGraph} {focus : NodeId} {depth room : Nat}
  {rows : List TypeEdge} {e : TypeEdge} {before s : LevelScan} {x : HierarchyEntry}

def keptFirsts (room : Nat) (rows : List TypeEdge) : List TypeEdge :=
  (keepNew (·.source) [] rows).take room

def kept (room : Nat) (rows : List TypeEdge) : List NodeId := (keptFirsts room rows).map (·.source)

def lostRows (room : Nat) (rows : List TypeEdge) : List TypeEdge :=
  rows.filter fun e => e.source ∉ kept room rows

theorem kept_firstKeys : kept room rows = (firstKeys (·.source) rows).take room := List.map_take

/-- The relation and the provenance are those of the first `extends` row, or of the first row if
there is none. -/
def Merged (rows : List TypeEdge) (x : HierarchyEntry) : Prop :=
  (∃ r, First (·.source) (rows.filter (·.kind = .extends)) r ∧ r.source = x.node.id ∧
      x.relation = .extends ∧ x.synthesized = isHeuristic r) ∨
    (∀ r ∈ rows, r.source = x.node.id → r.kind ≠ .extends) ∧
      ∃ r, First (·.source) rows r ∧ r.source = x.node.id ∧
        x.relation = .implements ∧ x.synthesized = isHeuristic r

structure EntryOf (graph : TypeGraph) (depth : Nat) (rows : List TypeEdge) (x : HierarchyEntry) :
    Prop where
  node : graph.getNodeById x.node.id = some x.node
  depth : x.depth = depth
  parent : ∃ r, First (·.source) rows r ∧ r.source = x.node.id ∧ x.parentId = r.target
  merged : Merged rows x
  hidden : x.hiddenSubtypes = 0

/-- The data of the loop after some rows, each of an existing type that is not nearer. -/
structure LevelScanned (graph : TypeGraph) (depth room : Nat) (before : LevelScan)
    (rows : List TypeEdge) (s : LevelScan) : Prop where
  ids : entryIds s.level = kept room rows
  levelSeen : ∀ id, id ∈ s.levelSeen ↔ id ∈ rows.map (·.source)
  entries : ∀ x ∈ s.level, EntryOf graph depth rows x
  directTotal : s.directTotal = before.directTotal +
    if depth = 1 then (kept room rows).length + (lostRows room rows).length else 0
  directImplementers : s.directImplementers = before.directImplementers +
    if depth = 1 then (keptFirsts room rows).countP (·.kind = .implements) +
      (lostRows room rows).countP (·.kind = .implements) else 0
  bounded : s.bounded = (before.bounded || decide (lostRows room rows ≠ []))
  overflowKeys : (s.overflow.map Prod.fst).Nodup
  overflow : ∀ t, (lookup s.overflow t).getD 0 = (lostRows room rows).countP (·.target = t)

/-! ### One row -/

variable (room) in
theorem keptFirsts_old (old : e.source ∈ rows.map (·.source)) :
    keptFirsts room (rows ++ [e]) = keptFirsts room rows := by
  rw [keptFirsts, keepNew_snoc, if_pos (.inr old), List.append_nil, keptFirsts]

theorem keptFirsts_full (full : room ≤ (kept room rows).length) :
    keptFirsts room (rows ++ [e]) = keptFirsts room rows := by
  rw [kept, List.length_map, keptFirsts, List.length_take] at full
  rw [keptFirsts, keepNew_snoc, List.take_append_of_le_length (by omega), keptFirsts]

theorem keptFirsts_new (new : e.source ∉ rows.map (·.source)) (roomy : (kept room rows).length < room) :
    keptFirsts room (rows ++ [e]) = keptFirsts room rows ++ [e] := by
  rw [kept, List.length_map, keptFirsts, List.length_take] at roomy
  rw [keptFirsts, keepNew_snoc, if_neg (by simpa using new), List.take_of_length_le, keptFirsts,
    List.take_of_length_le (by omega)]
  rw [List.length_append, List.length_singleton]
  omega

theorem mem_kept_roomy (roomy : (kept room rows).length < room) {id : NodeId} :
    id ∈ kept room rows ↔ id ∈ rows.map (·.source) := by
  rw [kept_firstKeys, List.length_take] at roomy
  rw [kept_firstKeys, List.take_of_length_le (by omega), mem_firstKeys]

theorem kept_listed {id : NodeId} (member : id ∈ kept room rows) : id ∈ rows.map (·.source) := by
  rw [kept_firstKeys] at member
  exact mem_firstKeys.mp (List.mem_of_mem_take member)

theorem lostRows_roomy (roomy : (kept room rows).length < room) : lostRows room rows = [] := by
  refine List.filter_eq_nil_iff.mpr fun e listed => ?_
  rw [decide_eq_true_eq, not_not, mem_kept_roomy roomy]
  exact List.mem_map_of_mem listed

theorem lostRows_snoc (same : keptFirsts room (rows ++ [e]) = keptFirsts room rows) :
    lostRows room (rows ++ [e]) =
      lostRows room rows ++ if e.source ∈ kept room rows then [] else [e] := by
  rw [lostRows, List.filter_append, kept, same, ← kept, lostRows, List.filter_singleton]
  by_cases member : e.source ∈ kept room rows <;> simp [member]

private theorem extendsRows_snoc : (rows ++ [e]).filter (·.kind = .extends) =
    rows.filter (·.kind = .extends) ++ if e.kind = .extends then [e] else [] := by
  rw [List.filter_append]
  by_cases extends_ : e.kind = .extends <;> simp [extends_]

theorem EntryOf.other (entry : EntryOf graph depth rows x) (other : e.source ≠ x.node.id) :
    EntryOf graph depth (rows ++ [e]) x := by
  obtain ⟨node, depth', ⟨r, first, own, parent⟩, merged, hidden⟩ := entry
  refine ⟨node, depth', ⟨r, first.snoc, own, parent⟩, ?_, hidden⟩
  rcases merged with ⟨r, first, rest⟩ | ⟨none_, r, first, rest⟩
  · refine .inl ⟨r, ?_, rest⟩
    rw [extendsRows_snoc]
    split
    · exact first.snoc
    · rwa [List.append_nil]
  · refine .inr ⟨fun f listed own => ?_, r, first.snoc, rest⟩
    rcases mem_snoc.mp listed with earlier | last
    · exact none_ f earlier own
    · rw [last] at own
      exact absurd own other

theorem EntryOf.merge (entry : EntryOf graph depth rows x) (same : e.source = x.node.id) :
    EntryOf graph depth (rows ++ [e]) (mergeRow e x) := by
  obtain ⟨node, depth', ⟨r, first, own, parent⟩, merged, hidden⟩ := entry
  rw [mergeRow]
  rcases merged with ⟨f, firstExtends, own', relation, synthesized⟩ | ⟨none_, f, first', own', relation, synthesized⟩
  · rw [if_neg (by simp [relation])]
    refine ⟨node, depth', ⟨r, first.snoc, own, parent⟩, .inl ⟨f, ?_, own', relation, synthesized⟩, hidden⟩
    rw [extendsRows_snoc]
    split
    · exact firstExtends.snoc
    · rwa [List.append_nil]
  · by_cases extends_ : e.kind = .extends
    · rw [if_pos ⟨relation, extends_⟩]
      refine ⟨node, depth', ⟨r, first.snoc, own, parent⟩, .inl ⟨e, ?_, same, rfl, rfl⟩, hidden⟩
      rw [extendsRows_snoc, if_pos extends_]
      refine first_last fun listed => ?_
      obtain ⟨g, member, equal⟩ := List.mem_map.mp listed
      obtain ⟨member, isExtends⟩ := List.mem_filter.mp member
      exact none_ g member (equal.trans same) (of_decide_eq_true isExtends)
    · rw [if_neg fun both => extends_ both.2]
      refine ⟨node, depth', ⟨r, first.snoc, own, parent⟩,
        .inr ⟨fun g listed own => ?_, f, first'.snoc, own', relation, synthesized⟩, hidden⟩
      rcases mem_snoc.mp listed with earlier | last
      · exact none_ g earlier own
      · rw [last]
        exact extends_

theorem toEntry_entryOf {node : TypeNode} (new : e.source ∉ rows.map (·.source))
    (found : graph.getNodeById e.source = some node) (kind : e.kind ∈ HIERARCHY_KINDS) :
    EntryOf graph depth (rows ++ [e]) (toEntry node depth e.target e) := by
  have named := getNodeById_id found
  refine ⟨by rw [show (toEntry node depth e.target e).node = node from rfl, named, found], rfl,
    ⟨e, first_last new, named.symm, rfl⟩, ?_, rfl⟩
  have others : ∀ g ∈ rows, g.source ≠ node.id := fun g listed same =>
    new (List.mem_map.mpr ⟨g, listed, same.trans named⟩)
  rcases hierarchy_kind.mp kind with extends_ | implements_
  · refine .inl ⟨e, ?_, named.symm, by simp [toEntry, relationOf, extends_], rfl⟩
    rw [extendsRows_snoc, if_pos extends_]
    refine first_last fun listed => ?_
    obtain ⟨g, member, equal⟩ := List.mem_map.mp listed
    exact others g (List.mem_filter.mp member).1 (equal.trans named.symm)
  · refine .inr ⟨fun g listed own => ?_, e, first_last new, named.symm,
      by simp [toEntry, relationOf, implements_], rfl⟩
    rcases mem_snoc.mp listed with earlier | last
    · exact absurd own (others g earlier)
    · rw [last, implements_]
      decide

theorem mergeRow_node (e : TypeEdge) (x : HierarchyEntry) : (mergeRow e x).node = x.node := by
  rw [mergeRow]
  split <;> rfl

theorem increment_lookup (overflow : List (NodeId × Nat)) (id t : NodeId) :
    (lookup (increment overflow id) t).getD 0 =
      (lookup overflow t).getD 0 + if id = t then 1 else 0 := by
  rw [increment, lookup_assign]
  by_cases same : t = id
  · simp [same]
  · have other : ¬id = t := fun h => same h.symm
    simp [same, other]

theorem scanned_merge (scanned : LevelScanned graph depth room before rows s)
    (member : e.source ∈ kept room rows) :
    LevelScanned graph depth room before (rows ++ [e])
      { s with level := s.level.map fun x => if x.node.id = e.source then mergeRow e x else x } := by
  have old := kept_listed member
  have firsts := keptFirsts_old room old
  have same : kept room (rows ++ [e]) = kept room rows := by rw [kept, firsts, kept]
  have lost := lostRows_snoc firsts
  rw [if_pos member, List.append_nil] at lost
  refine ⟨?_, fun id => ?_, fun x listed => ?_, ?_, ?_, ?_, scanned.overflowKeys, fun t => ?_⟩
  · rw [same, ← scanned.ids, entryIds, List.map_map]
    refine List.map_congr_left fun x _ => ?_
    by_cases here : x.node.id = e.source <;> simp [here, mergeRow_node]
  · rw [scanned.levelSeen, List.map_append, List.mem_append, List.map_singleton, List.mem_singleton]
    exact ⟨.inl, fun h => h.elim (fun h => h) fun last => last ▸ old⟩
  · obtain ⟨y, held, rfl⟩ := List.mem_map.mp listed
    by_cases here : y.node.id = e.source
    · rw [if_pos here]
      exact (scanned.entries y held).merge here.symm
    · rw [if_neg here]
      exact (scanned.entries y held).other fun h => here h.symm
  · rw [same, lost]
    exact scanned.directTotal
  · rw [firsts, lost]
    exact scanned.directImplementers
  · rw [lost]
    exact scanned.bounded
  · rw [lost]
    exact scanned.overflow t

theorem scanned_lost (scanned : LevelScanned graph depth room before rows s) {node : TypeNode}
    (named : node.id = e.source) (outside : e.source ∉ kept room rows)
    (full : room ≤ s.level.length) :
    LevelScanned graph depth room before (rows ++ [e]) (newRow depth room s node e) := by
  have length : s.level.length = (kept room rows).length := by
    rw [← scanned.ids, entryIds, List.length_map]
  have firsts := keptFirsts_full (e := e) (length ▸ full)
  have same : kept room (rows ++ [e]) = kept room rows := by rw [kept, firsts, kept]
  have lost := lostRows_snoc firsts
  rw [if_neg outside] at lost
  have level : (newRow depth room s node e).level = s.level := by
    simp only [newRow]
    split <;> simp
  refine ⟨?_, fun id => ?_, fun x listed => ?_, ?_, ?_, ?_, ?_, fun t => ?_⟩
  · rw [level, same]
    exact scanned.ids
  · have seen : (newRow depth room s node e).levelSeen = s.levelSeen ++ [node.id] := by
      simp only [newRow]
      split <;> simp
    rw [seen, List.mem_append, scanned.levelSeen, List.map_append, List.mem_append, named]
    rfl
  · rw [level] at listed
    refine (scanned.entries x listed).other fun here => outside ?_
    rw [here, ← scanned.ids]
    exact List.mem_map_of_mem listed
  · rw [same, lost, List.length_append, List.length_singleton]
    have total := scanned.directTotal
    by_cases first : depth = 1
    · simp only [newRow, if_pos first, if_pos full] at total ⊢
      omega
    · simp only [newRow, if_neg first, if_pos full] at total ⊢
      exact total
  · rw [firsts, lost, List.countP_append, List.countP_singleton]
    have total := scanned.directImplementers
    by_cases first : depth = 1
    · simp only [newRow, if_pos first, if_pos full, decide_eq_true_eq] at total ⊢
      omega
    · simp only [newRow, if_neg first, if_pos full] at total ⊢
      exact total
  · rw [lost]
    simp only [newRow]
    split <;> simp
  · simp only [newRow]
    split <;> exact keys_assign_nodup scanned.overflowKeys _ _
  · have overflow : (newRow depth room s node e).overflow = increment s.overflow e.target := by
      simp only [newRow]
      split <;> simp
    rw [overflow, increment_lookup, scanned.overflow, lost, List.countP_append, List.countP_singleton]
    simp only [decide_eq_true_eq]

theorem scanned_new (scanned : LevelScanned graph depth room before rows s) {node : TypeNode}
    (found : graph.getNodeById e.source = some node) (kind : e.kind ∈ HIERARCHY_KINDS)
    (outside : e.source ∉ kept room rows) (roomy : s.level.length < room) :
    LevelScanned graph depth room before (rows ++ [e]) (newRow depth room s node e) := by
  have length : s.level.length = (kept room rows).length := by
    rw [← scanned.ids, entryIds, List.length_map]
  have full : ¬room ≤ s.level.length := by omega
  rw [length] at roomy
  have new := (mem_kept_roomy roomy).not.mp outside
  have firsts := keptFirsts_new new roomy
  have more : kept room (rows ++ [e]) = kept room rows ++ [e.source] := by
    rw [kept, firsts, List.map_append, kept]
    rfl
  have none_ := lostRows_roomy roomy
  have lost : lostRows room (rows ++ [e]) = [] := by
    refine List.filter_eq_nil_iff.mpr fun f listed => ?_
    rw [decide_eq_true_eq, not_not, more, List.mem_append, mem_kept_roomy roomy]
    rcases mem_snoc.mp listed with earlier | last
    · exact .inl (List.mem_map_of_mem earlier)
    · exact .inr (List.mem_singleton.mpr (congrArg (·.source) last))
  have named := getNodeById_id found
  have level : (newRow depth room s node e).level = s.level ++ [toEntry node depth e.target e] := by
    simp only [newRow]
    split <;> simp
  refine ⟨?_, fun id => ?_, fun x listed => ?_, ?_, ?_, ?_, ?_, fun t => ?_⟩
  · rw [level, more, ← scanned.ids, entryIds, List.map_append, ← named]
    rfl
  · have seen : (newRow depth room s node e).levelSeen = s.levelSeen ++ [node.id] := by
      simp only [newRow]
      split <;> simp
    rw [seen, List.mem_append, scanned.levelSeen, List.map_append, List.mem_append, named]
    rfl
  · rw [level] at listed
    rcases mem_snoc.mp listed with earlier | last
    · refine (scanned.entries x earlier).other fun here => outside ?_
      rw [here, ← scanned.ids]
      exact List.mem_map_of_mem earlier
    · rw [last]
      exact toEntry_entryOf new found kind
  · rw [more, lost, List.length_append, List.length_singleton]
    have total := scanned.directTotal
    rw [none_] at total
    by_cases first : depth = 1
    · simp only [newRow, if_pos first, if_neg full, List.length_nil] at total ⊢
      omega
    · simp only [newRow, if_neg first, if_neg full] at total ⊢
      exact total
  · rw [firsts, lost, List.countP_append, List.countP_singleton]
    have total := scanned.directImplementers
    rw [none_] at total
    by_cases first : depth = 1
    · simp only [newRow, if_pos first, if_neg full, decide_eq_true_eq, List.countP_nil] at total ⊢
      omega
    · simp only [newRow, if_neg first, if_neg full] at total ⊢
      exact total
  · have old := scanned.bounded
    rw [none_] at old
    rw [lost, ← old]
    simp only [newRow]
    split <;> simp
  · simp only [newRow]
    split <;> exact scanned.overflowKeys
  · have overflow : (newRow depth room s node e).overflow = s.overflow := by
      simp only [newRow]
      split <;> simp
    rw [overflow, scanned.overflow, lost, none_]

def newRows (graph : TypeGraph) (seen : List NodeId) (edges : List TypeEdge) : List TypeEdge :=
  (edges.filter fun e => graph.Exists e.source).filter fun e => e.source ∉ seen

theorem descendantRow_scanned {nodes : NodeId → Option TypeNode} (seen : List NodeId)
    (looked : nodes e.source = graph.getNodeById e.source) (kind : e.kind ∈ HIERARCHY_KINDS)
    (scanned : LevelScanned graph depth room before rows s) :
    LevelScanned graph depth room before (rows ++ newRows graph seen [e])
      (descendantRow nodes depth room seen s e) := by
  rw [descendantRow, looked]
  cases found : graph.getNodeById e.source with
  | none =>
    have missing : newRows graph seen [e] = [] := by simp [newRows, TypeGraph.Exists, found]
    rw [missing, List.append_nil]
    exact scanned
  | some node =>
    have named := getNodeById_id found
    simp only [named]
    by_cases old : e.source ∈ seen
    · have nothing : newRows graph seen [e] = [] := by simp [newRows, TypeGraph.Exists, found, old]
      rw [nothing, List.append_nil, if_pos old]
      exact scanned
    · have one : newRows graph seen [e] = [e] := by simp [newRows, TypeGraph.Exists, found, old]
      rw [one, if_neg old]
      by_cases member : e.source ∈ kept room rows
      · rw [if_pos ⟨(scanned.levelSeen e.source).mpr (kept_listed member), scanned.ids ▸ member⟩]
        exact scanned_merge scanned member
      · rw [if_neg fun both => member (scanned.ids ▸ both.2)]
        by_cases full : room ≤ s.level.length
        · exact scanned_lost scanned named member full
        · exact scanned_new scanned found kind member (by omega)

theorem newRows_append (seen : List NodeId) (left right : List TypeEdge) :
    newRows graph seen (left ++ right) = newRows graph seen left ++ newRows graph seen right := by
  simp only [newRows, List.filter_append]

theorem descendantRows_scanned {nodes : NodeId → Option TypeNode} (seen : List NodeId)
    {edges : List TypeEdge} (looked : ∀ e ∈ edges, nodes e.source = graph.getNodeById e.source)
    (kinds : ∀ e ∈ edges, e.kind ∈ HIERARCHY_KINDS)
    (scanned : LevelScanned graph depth room before rows s) :
    LevelScanned graph depth room before (rows ++ newRows graph seen edges)
      (edges.foldl (descendantRow nodes depth room seen) s) := by
  induction edges generalizing rows s with
  | nil => simpa [newRows] using scanned
  | cons e edges ih =>
    have step := descendantRow_scanned seen (looked e List.mem_cons_self)
      (kinds e List.mem_cons_self) scanned
    have rest := ih (fun f h => looked f (List.mem_cons_of_mem e h))
      (fun f h => kinds f (List.mem_cons_of_mem e h)) step
    rwa [List.append_assoc, ← newRows_append] at rest

theorem levelScanned_nil (graph : TypeGraph) (depth room total implementers : Nat) (bounded : Bool) :
    LevelScanned graph depth room ⟨[], [], [], total, implementers, bounded⟩ []
      ⟨[], [], [], total, implementers, bounded⟩ := by
  constructor <;> simp [entryIds, kept, keptFirsts, keepNew, lostRows, lookup]

end CodeGraph.Graph.TypeTree
