import CodeGraph.Foundation.Rings
import CodeGraph.Graph.TypeHierarchy

/-! The levels of the type hierarchy's walks are the distances from the focus. -/
namespace CodeGraph.Graph.TypeTree

open Distance FirstByKey Rings InsertionMap Text

variable {store : TypeStore} {graph : TypeGraph} {localeCompare : JsString → JsString → Int}
  {focus : NodeId} {depth room n : Nat} {e : TypeEdge}

/-! ### The edges -/

def TypeGraph.Exists (graph : TypeGraph) (id : NodeId) : Prop := (graph.getNodeById id).isSome

instance (graph : TypeGraph) (id : NodeId) : Decidable (graph.Exists id) :=
  inferInstanceAs (Decidable (_ = true))

/-- An edge that makes `sub` a subtype of `super`. -/
def Ties (graph : TypeGraph) (e : TypeEdge) (sub super : NodeId) : Prop :=
  e ∈ graph.edges ∧ e.kind ∈ HIERARCHY_KINDS ∧ e.source = sub ∧ e.target = super

/-- An existing type that is tied to `super`. -/
def DirectSubtype (graph : TypeGraph) (super sub : NodeId) : Prop :=
  graph.Exists sub ∧ ∃ e, Ties graph e sub super

def DirectSupertype (graph : TypeGraph) (sub super : NodeId) : Prop :=
  graph.Exists super ∧ ∃ e, Ties graph e sub super

theorem getNodeById_id {id : NodeId} {node : TypeNode} (found : graph.getNodeById id = some node) :
    node.id = id := by simpa using List.find?_some found

theorem hierarchy_kind {kind : EdgeKind} :
    kind ∈ HIERARCHY_KINDS ↔ kind = .extends ∨ kind = .implements := by
  simp [HIERARCHY_KINDS]

theorem mem_hierarchyEdges_up {ids : List NodeId} :
    e ∈ hierarchyEdges store ids .up ↔
      e ∈ store.graph.edges ∧ e.source ∈ ids ∧ e.kind ∈ HIERARCHY_KINDS := by
  simp only [hierarchyEdges, List.mem_filter, TypeStore.mem_getOutgoingEdgesFrom, decide_eq_true_eq,
    ← hierarchy_kind]
  tauto

theorem mem_hierarchyEdges_down {ids : List NodeId} :
    e ∈ hierarchyEdges store ids .down ↔
      e ∈ store.graph.edges ∧ e.target ∈ ids ∧ e.kind ∈ HIERARCHY_KINDS := by
  simp only [hierarchyEdges, List.mem_filter, TypeStore.mem_getIncomingEdgesTo, decide_eq_true_eq,
    ← hierarchy_kind]
  tauto

theorem hierarchyEdges_congr {a b : List NodeId} (same : ∀ x, x ∈ a ↔ x ∈ b)
    (direction : WalkDirection) : hierarchyEdges store a direction = hierarchyEdges store b direction := by
  cases direction <;>
    simp only [hierarchyEdges, TypeStore.getOutgoingEdgesFrom, TypeStore.getIncomingEdgesTo, same]

def above (store : TypeStore) : Rows NodeId TypeEdge where
  rows ids := (hierarchyEdges store ids .up).filter fun e => store.graph.Exists e.target
  near e := e.source
  far e := e.target
  valid e := e ∈ store.graph.edges ∧ e.kind ∈ HIERARCHY_KINDS ∧ store.graph.Exists e.target
  mem_rows ids e := by
    rw [List.mem_filter, mem_hierarchyEdges_up, decide_eq_true_eq]
    tauto
  rows_congr a b same := by rw [hierarchyEdges_congr same]

def below (store : TypeStore) : Rows NodeId TypeEdge where
  rows ids := (hierarchyEdges store ids .down).filter fun e => store.graph.Exists e.source
  near e := e.target
  far e := e.source
  valid e := e ∈ store.graph.edges ∧ e.kind ∈ HIERARCHY_KINDS ∧ store.graph.Exists e.source
  mem_rows ids e := by
    rw [List.mem_filter, mem_hierarchyEdges_down, decide_eq_true_eq]
    tauto
  rows_congr a b same := by rw [hierarchyEdges_congr same]

theorem above_step : (above store).Step = DirectSupertype store.graph := by
  funext a b
  refine propext ⟨?_, ?_⟩
  · rintro ⟨e, ⟨edge, kind, exists_⟩, source, target⟩
    have equal : e.target = b := target
    exact ⟨equal ▸ exists_, e, edge, kind, source, target⟩
  · rintro ⟨exists_, e, edge, kind, source, target⟩
    exact ⟨e, ⟨edge, kind, target ▸ exists_⟩, source, target⟩

theorem below_step : (below store).Step = DirectSubtype store.graph := by
  funext a b
  refine propext ⟨?_, ?_⟩
  · rintro ⟨e, ⟨edge, kind, exists_⟩, target, source⟩
    have equal : e.source = b := source
    exact ⟨equal ▸ exists_, e, edge, kind, source, target⟩
  · rintro ⟨exists_, e, edge, kind, source, target⟩
    exact ⟨e, ⟨edge, kind, source ▸ exists_⟩, target, source⟩

theorem sortLevel_perm (localeCompare : JsString → JsString → Int) (level : List HierarchyEntry) :
    (sortLevel localeCompare level).Perm level := List.perm_insertionSort _ _

/-- An entry of the upward walk comes from the first row that leads to its type. -/
structure AncestorEntry (store : TypeStore) (focus : NodeId) (x : HierarchyEntry) : Prop where
  node : store.graph.getNodeById x.node.id = some x.node
  hidden : x.hiddenSubtypes = 0
  distance : IsDistance (DirectSupertype store.graph) focus x.node.id x.depth
  first : ∃ e, First (·.target) ((above store).rows ((above store).ring focus (x.depth - 1))) e ∧
    e.target = x.node.id ∧ x.parentId = e.source ∧ x.relation = relationOf e ∧
    x.synthesized = isHeuristic e

variable (depth) in
theorem ancestorRow_level {edges : List TypeEdge} {nodes : NodeId → Option TypeNode}
    (looked : ∀ e ∈ edges, nodes e.target = store.graph.getNodeById e.target)
    (out : List HierarchyEntry) (seen : List NodeId) :
    ∃ level seen', edges.foldl (ancestorRow nodes depth) (out, seen) = (out ++ level, seen') ∧
      entryIds level =
        (keepNew (·.target) seen (edges.filter fun e => store.graph.Exists e.target)).map (·.target) ∧
      (∀ x, x ∈ seen' ↔ x ∈ seen ∨ x ∈ entryIds level) ∧
      ∀ x ∈ level, store.graph.getNodeById x.node.id = some x.node ∧
        ∃ e ∈ keepNew (·.target) seen (edges.filter fun e => store.graph.Exists e.target),
          e.target = x.node.id ∧ x = toEntry x.node depth e.source e := by
  induction edges generalizing out seen with
  | nil => exact ⟨[], seen, by simp, rfl, by simp [entryIds], fun _ none_ => nomatch none_⟩
  | cons e edges ih =>
    have later : ∀ f ∈ edges, nodes f.target = store.graph.getNodeById f.target :=
      fun f h => looked f (List.mem_cons_of_mem e h)
    rw [List.foldl_cons, ancestorRow, looked e List.mem_cons_self]
    cases found : store.graph.getNodeById e.target with
    | none =>
      have missing : ¬store.graph.Exists e.target := by simp [TypeGraph.Exists, found]
      rw [List.filter_cons_of_neg (by simpa using missing)]
      exact ih later out seen
    | some node =>
      have named := getNodeById_id found
      have there : store.graph.Exists e.target := by simp [TypeGraph.Exists, found]
      rw [List.filter_cons_of_pos (by simpa using there), keepNew]
      by_cases old : e.target ∈ seen
      · simp only [named, if_pos old]
        exact ih later out seen
      · simp only [named, if_neg old]
        obtain ⟨level, seen', run, ids, members, entries⟩ :=
          ih later (out ++ [toEntry node depth e.source e]) (seen ++ [e.target])
        have same : keepNew (·.target) (seen ++ [e.target])
            (edges.filter fun e => store.graph.Exists e.target) =
            keepNew (·.target) (e.target :: seen)
              (edges.filter fun e => store.graph.Exists e.target) :=
          keepNew_congr fun k => by simp [or_comm]
        rw [same] at ids entries
        refine ⟨toEntry node depth e.source e :: level, seen', ?_, ?_, fun x => ?_, fun x member => ?_⟩
        · rw [run, List.append_assoc]
          rfl
        · rw [List.map_cons, ← ids]
          exact congrArg (· :: entryIds level) named
        · rw [members]
          simp only [List.mem_append, entryIds, List.map_cons, List.mem_cons, toEntry, named]
          tauto
        · rcases List.mem_cons.mp member with rfl | member
          · exact ⟨by rw [show (toEntry node depth e.source e).node = node from rfl, named, found],
              e, List.mem_cons_self, named.symm, rfl⟩
          · obtain ⟨known, f, kept, rest⟩ := entries x member
            exact ⟨known, f, List.mem_cons_of_mem e kept, rest⟩

/-- What is next to look at when the levels up to `n` have been. -/
structure AtLevel (search : Rows NodeId TypeEdge) (focus : NodeId) (n : Nat)
    (seen frontier : List NodeId) : Prop where
  seen : ∀ x, x ∈ seen ↔ x ∈ search.closer focus n
  frontier : ∀ x, x ∈ frontier ↔ x ∈ search.ring focus n

theorem AtLevel.last {search : Rows NodeId TypeEdge} {seen frontier : List NodeId} {d : Nat} {x : NodeId}
    (level : AtLevel search focus n seen frontier) (none_ : frontier = [] ∨ search.rows frontier = [])
    (farther : n < d) : ¬IsDistance search.Step focus x d := by
  have empty : search.ring focus (n + 1) = [] := by
    rcases none_ with rfl | none_
    · have here : search.ring focus n = [] :=
        List.eq_nil_iff_forall_not_mem.mpr fun y listed => List.not_mem_nil ((level.frontier y).mpr listed)
      exact Rows.ring_empty here (Nat.le_succ n)
    · rw [Rows.ring_succ, Rows.nextRing, ← search.rows_congr _ _ level.frontier, none_]
      rfl
  intro far
  rw [← Rows.mem_ring, Rows.ring_empty empty farther] at far
  cases far

theorem AtLevel.next {search : Rows NodeId TypeEdge} {seen frontier ids : List NodeId}
    (level : AtLevel search focus n seen frontier)
    (listed : ids = (keepNew search.far seen (search.rows frontier)).map search.far) :
    ids = search.ring focus (n + 1) := by
  rw [listed, search.rows_congr _ _ level.frontier, keepNew_congr level.seen]
  rfl

variable (localeCompare) in
theorem ancestorLevels_entries (left : Nat) {out : List HierarchyEntry} {seen frontier : List NodeId}
    (level : AtLevel (above store) focus n seen frontier)
    (entries : ∀ x ∈ out, AncestorEntry store focus x) :
    (∀ x ∈ ancestorLevels store localeCompare left (n + 1) out seen frontier,
        AncestorEntry store focus x) ∧
      ∀ id, id ∈ entryIds (ancestorLevels store localeCompare left (n + 1) out seen frontier) ↔
        id ∈ entryIds out ∨
          ∃ d, n < d ∧ d ≤ n + left ∧ IsDistance (DirectSupertype store.graph) focus id d := by
  induction left generalizing n out seen frontier with
  | zero =>
    refine ⟨entries, fun id => ⟨.inl, ?_⟩⟩
    rintro (listed | ⟨d, less, le, -⟩)
    · exact listed
    · omega
  | succ left ih =>
    rw [ancestorLevels]
    split
    · next none_ =>
      refine ⟨entries, fun id => ⟨.inl, ?_⟩⟩
      rintro (listed | ⟨d, less, -, far⟩)
      · exact listed
      · rw [← above_step] at far
        refine absurd far (level.last (none_.imp_right fun edges => ?_) less)
        simp only [above, edges, List.filter_nil]
    · have looked : ∀ e ∈ hierarchyEdges store frontier .up,
          store.graph.getNodesByIds ((hierarchyEdges store frontier .up).map (·.target)) e.target =
            store.graph.getNodeById e.target :=
        fun e row => if_pos (List.mem_map_of_mem row)
      obtain ⟨new, seen', run, ids, members, made⟩ :=
        ancestorRow_level (n + 1) looked [] seen
      have ring : entryIds new = (above store).ring focus (n + 1) := level.next ids
      have perm := sortLevel_perm localeCompare new
      have sorted : ∀ x, x ∈ entryIds (sortLevel localeCompare new) ↔
          x ∈ (above store).ring focus (n + 1) := by
        intro x
        rw [← ring]
        exact (perm.map _).mem_iff
      simp only [run, List.nil_append]
      have level' : AtLevel (above store) focus (n + 1) seen' (entryIds (sortLevel localeCompare new)) := by
        refine ⟨fun x => ?_, sorted⟩
        rw [members, level.seen, ring, Rows.closer_succ, List.mem_append]
      have entries' : ∀ x ∈ out ++ sortLevel localeCompare new, AncestorEntry store focus x := by
        intro x member
        rcases List.mem_append.mp member with older | newer
        · exact entries x older
        · have listed := perm.mem_iff.mp newer
          obtain ⟨known, e, kept, target, equal⟩ := made x listed
          have depth' : x.depth = n + 1 := by rw [equal]; rfl
          refine ⟨known, ?_, ?_, e, ?_, target, ?_, ?_, ?_⟩
          · rw [equal]
            rfl
          · rw [depth', ← above_step, ← Rows.mem_ring, ← ring]
            exact List.mem_map_of_mem listed
          · rw [depth', Nat.add_sub_cancel, ← (above store).rows_congr _ _ level.frontier]
            exact (mem_keepNew.mp kept).2
          all_goals
            rw [equal]
            rfl
      obtain ⟨all, found⟩ := ih level' entries'
      refine ⟨all, fun id => (found id).trans ?_⟩
      have split : id ∈ entryIds (out ++ sortLevel localeCompare new) ↔
          id ∈ entryIds out ∨ IsDistance (DirectSupertype store.graph) focus id (n + 1) := by
        rw [← above_step, ← Rows.mem_ring, ← sorted, entryIds, List.map_append, List.mem_append]
        rfl
      rw [split]
      constructor
      · rintro ((listed | far) | ⟨d, less, le, far⟩)
        · exact .inl listed
        · exact .inr ⟨n + 1, by omega, by omega, far⟩
        · exact .inr ⟨d, by omega, by omega, far⟩
      · rintro (listed | ⟨d, less, le, far⟩)
        · exact .inl (.inl listed)
        · rcases Nat.lt_or_eq_of_le less with more | rfl
          · exact .inr ⟨d, more, by omega, far⟩
          · exact .inl (.inr far)

theorem walkAncestors_entries (store : TypeStore) (localeCompare : JsString → JsString → Int)
    (focus : TypeNode) :
    (∀ x ∈ walkAncestors store localeCompare focus, AncestorEntry store focus.id x) ∧
      ∀ id, id ∈ entryIds (walkAncestors store localeCompare focus) ↔
        ∃ d, 1 ≤ d ∧ d ≤ MAX_ANCESTOR_DEPTH ∧
          IsDistance (DirectSupertype store.graph) focus.id id d := by
  have start : AtLevel (above store) focus.id 0 [focus.id] [focus.id] :=
    ⟨fun _ => Iff.rfl, fun _ => Iff.rfl⟩
  obtain ⟨entries, found⟩ := ancestorLevels_entries localeCompare MAX_ANCESTOR_DEPTH start
    (show ∀ x ∈ [], AncestorEntry store focus.id x from fun _ none_ => nomatch none_)
  refine ⟨entries, fun id => (found id).trans ?_⟩
  rw [Nat.zero_add]
  exact ⟨fun h => h.resolve_left List.not_mem_nil, .inr⟩

end CodeGraph.Graph.TypeTree
