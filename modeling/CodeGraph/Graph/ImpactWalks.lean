import CodeGraph.Foundation.DepthWalk
import CodeGraph.Graph.Impact

/-! The walks that the impact radius stands for, and its search without budgets. -/
namespace CodeGraph.Graph

open DepthWalk (Steps)

/-- The nodes that depend on `start`, with a depth at which a walk enters them and whether the
walk stops there. -/
inductive Affects (db : Database) (maxDepth : MaxDepth) (start : NodeId) :
    NodeId → Nat → Bool → Prop where
  | start : Affects db maxDepth start start 0 false
  | child {d : Nat} {container node : Node} {e : Edge} :
      Affects db maxDepth start e.source d false → reachedLimit maxDepth d = false →
      db.getNodeById e.source = some container → container.kind ∈ containerKinds →
      e ∈ db.edges → e.kind = .contains → db.getNodeById e.target = some node →
      Affects db maxDepth start e.target d false
  | dependent {d : Nat} {node : Node} {e : Edge} :
      Affects db maxDepth start e.target d false → reachedLimit maxDepth d = false →
      e ∈ db.edges → e.kind ≠ .contains → db.getNodeById e.source = some node →
      Affects db maxDepth start e.source (d + 1) (isDocumentationNode node)

def HasSteps (db : Database) (id : NodeId) : Prop :=
  ∃ e ∈ db.edges,
    (e.target = id ∧ e.kind ≠ .contains ∧ (db.getNodeById e.source).isSome) ∨
    (e.source = id ∧ e.kind = .contains ∧ (db.getNodeById e.target).isSome ∧
      ∃ node, db.getNodeById id = some node ∧ node.kind ∈ containerKinds)

/-- A documentation node with steps that a walk enters from its container is so entered at a
lesser depth than by any dependency of the documentation on something. -/
def DocumentationNearest (db : Database) (maxDepth : MaxDepth) (start : NodeId) : Prop :=
  ∀ id d node, db.getNodeById id = some node → isDocumentationNode node = true →
    HasSteps db id → Affects db maxDepth start id d false → reachedLimit maxDepth d = false →
    ∃ c, Affects db maxDepth start id c false ∧
      ∀ b, Affects db maxDepth start id b true → c < b

def outgoingRows (db : Database) (id : NodeId) : List Edge :=
  (db.edges.filter fun e => e.source = id ∧ e.kind ∈ [EdgeKind.contains]).insertionSort byKindAndId

def incomingRows (db : Database) (id : NodeId) : List Edge :=
  (db.edges.filter fun e => e.target = id ∧ e.kind ∈ IMPACT_INCOMING_KINDS).insertionSort
    byKindAndId

def isContainer (db : Database) (id : NodeId) : Bool :=
  (db.getNodeById id).any fun node => node.kind ∈ containerKinds

def childRows (db : Database) (id : NodeId) : List Edge :=
  if isContainer db id then
    (outgoingRows db id).filter fun e => (db.getNodeById e.target).isSome
  else []

def dependentRows (db : Database) (id : NodeId) : List Edge :=
  (incomingRows db id).filter fun e => (db.getNodeById e.source).isSome

private theorem mem_outgoingRows {db : Database} {id : NodeId} {e : Edge} :
    e ∈ outgoingRows db id ↔ e ∈ db.edges ∧ e.source = id ∧ e.kind = .contains := by
  rw [outgoingRows, List.mem_insertionSort, List.mem_filter]
  simp

private theorem mem_incoming_kinds (kind : EdgeKind) :
    kind ∈ IMPACT_INCOMING_KINDS ↔ kind ≠ .contains := by
  cases kind <;> decide

private theorem mem_incomingRows {db : Database} {id : NodeId} {e : Edge} :
    e ∈ incomingRows db id ↔ e ∈ db.edges ∧ e.target = id ∧ e.kind ≠ .contains := by
  rw [incomingRows, List.mem_insertionSort, List.mem_filter]
  simp [mem_incoming_kinds]

theorem mem_childRows {db : Database} {id : NodeId} {e : Edge} :
    e ∈ childRows db id ↔ e ∈ db.edges ∧ e.source = id ∧ e.kind = .contains ∧
      (db.getNodeById e.target).isSome ∧ isContainer db id = true := by
  unfold childRows
  split
  · next container => simp [List.mem_filter, mem_outgoingRows, container, and_assoc]
  · next other => simp [other]

theorem mem_dependentRows {db : Database} {id : NodeId} {e : Edge} :
    e ∈ dependentRows db id ↔ e ∈ db.edges ∧ e.target = id ∧ e.kind ≠ .contains ∧
      (db.getNodeById e.source).isSome := by
  simp [dependentRows, List.mem_filter, mem_incomingRows, and_assoc]

private theorem edges_nodup (db : Database) : db.edges.Nodup := db.identities.of_map _

def impactSteps (db : Database) (maxDepth : MaxDepth) : Steps NodeId Edge where
  source := Edge.source
  target := Edge.target
  down := childRows db
  back := dependentRows db
  stops id := (db.getNodeById id).any isDocumentationNode
  within d := !reachedLimit maxDepth d
  down_source _ _ member := (mem_childRows.mp member).2.1
  back_target _ _ member := (mem_dependentRows.mp member).2.1
  apart _ _ _ down back := (mem_dependentRows.mp back).2.2.1 (mem_childRows.mp down).2.2.1
  back_nodup id := by
    have sorted : (incomingRows db id).Nodup :=
      (List.perm_insertionSort _ _).nodup_iff.mpr ((edges_nodup db).filter _)
    exact sorted.filter _
  shallower _ deep := reachedLimit_shallower deep

theorem affects_iff {db : Database} {maxDepth : MaxDepth} {start id : NodeId} {d : Nat} {b : Bool} :
    Affects db maxDepth start id d b ↔ DepthWalk.Walk (impactSteps db maxDepth) start id d b := by
  constructor
  · intro affects
    induction affects with
    | start => exact .start
    | @child d container node e _ within found kind member contains child ih =>
      have row : e ∈ (impactSteps db maxDepth).down e.source :=
        mem_childRows.mpr ⟨member, rfl, contains, by simp [child], by simp [isContainer, found, kind]⟩
      exact DepthWalk.Walk.down ih (by simp [impactSteps, within]) row
    | @dependent d node e _ within member kind found ih =>
      have row : e ∈ (impactSteps db maxDepth).back e.target :=
        mem_dependentRows.mpr ⟨member, rfl, kind, by simp [found]⟩
      have stops : (impactSteps db maxDepth).stops e.source = isDocumentationNode node := by
        simp [impactSteps, found]
      exact stops ▸ DepthWalk.Walk.back ih (by simp [impactSteps, within]) row
  · intro walk
    induction walk with
    | start => exact .start
    | @down n d e _ within member ih =>
      obtain ⟨row, rfl, contains, child, container⟩ := mem_childRows.mp member
      obtain ⟨node, found⟩ := Option.isSome_iff_exists.mp child
      obtain ⟨focal, focalFound, kind⟩ : ∃ focal, db.getNodeById e.source = some focal ∧
          focal.kind ∈ containerKinds := by
        simpa [isContainer, Option.any_eq_true] using container
      exact Affects.child ih (by simpa [impactSteps] using within) focalFound kind row contains
        found
    | @back n d e _ within member ih =>
      obtain ⟨row, rfl, kind, source⟩ := mem_dependentRows.mp member
      obtain ⟨node, found⟩ := Option.isSome_iff_exists.mp source
      have stops : (impactSteps db maxDepth).stops e.source = isDocumentationNode node := by
        simp [impactSteps, found]
      change Affects db maxDepth start e.source (d + 1) ((impactSteps db maxDepth).stops e.source)
      rw [stops]
      exact Affects.dependent ih (by simpa [impactSteps] using within) row kind found

/-! ### A run that is not truncated is the search without budgets -/

def searchState (s : Impact) : DepthWalk.State NodeId Edge :=
  ⟨s.visited, s.nodes.map Node.id, s.edges, s.expanded⟩

private theorem nearer_eq (visited : NodeId → Option Nat) (id : NodeId) (d : Nat) :
    nearerThanBefore visited id d = DepthWalk.nearer visited id d := by
  unfold nearerThanBefore DepthWalk.nearer
  cases visited id <;> rfl

private theorem has_iff (s : Impact) (id : NodeId) :
    s.has id = true ↔ id ∈ (searchState s).nodes := by
  simp [Impact.has, searchState]

private theorem searchState_setNode (s : Impact) (node : Node) :
    searchState (s.setNode node) = DepthWalk.addNode (searchState s) node.id := by
  unfold DepthWalk.addNode Impact.setNode
  by_cases known : node.id ∈ (searchState s).nodes
  · have same : ∀ n : Node, (if n.id = node.id then node else n).id = n.id := by
      intro n
      split
      · next equal => exact equal.symm
      · rfl
    rw [if_pos known, if_pos ((has_iff s node.id).mpr known)]
    simp only [searchState, List.map_map]
    congr 1
    exact List.map_congr_left fun n _ => same n
  · have absent : ¬ s.has node.id = true := fun h => known ((has_iff s node.id).mp h)
    rw [if_neg known, if_neg absent]
    simp [searchState]

section Simulation

variable {db : Database} {maxDepth : MaxDepth} {budget : Budget} {recurse : Recursion}
  {explore : NodeId → Nat → DepthWalk.State NodeId Edge → Option (DepthWalk.State NodeId Edge)}

def Simulates (recurse : Recursion)
    (explore : NodeId → Nat → DepthWalk.State NodeId Edge → Option (DepthWalk.State NodeId Edge)) :
    Prop :=
  ∀ id d s t, recurse id d s = some t → t.truncated = false →
    s.truncated = false ∧ explore id d (searchState s) = some (searchState t)

variable (simulates : Simulates recurse explore)

include simulates

variable (db maxDepth) in
private theorem childStep_simulates {children : NodeId → Option Node} {d : Nat} {s t : Impact}
    {e : Edge} {node : Node} (found : children e.target = some node) (named : node.id = e.target)
    (returned : childStep recurse budget children d s e = some t) (whole : t.truncated = false) :
    s.truncated = false ∧
      DepthWalk.downStep (impactSteps db maxDepth) explore d (searchState s) e =
        some (searchState t) := by
  unfold childStep at returned
  unfold DepthWalk.downStep
  rw [found] at returned
  simp only [named, nearer_eq] at returned
  change _ ∧ (if DepthWalk.nearer s.visited e.target d = true then explore e.target d
    (if e.target ∈ (searchState s).nodes then _ else _) else _) = _
  split at returned
  · next near =>
    rw [if_pos near]
    by_cases known : s.has e.target = true
    · rw [if_pos ((has_iff s e.target).mp known)]
      simp only [known, Bool.not_true, Bool.false_eq_true, if_false] at returned
      exact simulates _ _ _ _ returned whole
    · have absent : ¬ e.target ∈ (searchState s).nodes := fun h => known ((has_iff s _).mpr h)
      rw [if_neg absent]
      simp only [Bool.not_eq_true] at known
      simp only [known, Bool.not_false, if_true] at returned
      split at returned
      · cases returned
        cases whole
      · have added : searchState (s.setNode node) =
            { searchState s with nodes := (searchState s).nodes ++ [e.target] } := by
          rw [searchState_setNode, named]
          exact if_neg absent
        obtain ⟨clean, explored⟩ := simulates _ _ _ _ returned whole
        refine ⟨clean, ?_⟩
        rw [← explored]
        congr 1
        change _ = { searchState (s.setNode node) with edges := s.edges ++ [e] }
        rw [added]
        rfl
  · next far =>
    rw [if_neg far]
    cases returned
    exact ⟨whole, rfl⟩

variable (db maxDepth) in
private theorem childLoop_simulates {children : NodeId → Option Node} {d : Nat} (rows : List Edge)
    (looked : ∀ e ∈ rows, children e.target = db.getNodeById e.target) {s t : Impact}
    (returned : rows.foldlM (childStep recurse budget children d) s = some t)
    (whole : t.truncated = false) :
    s.truncated = false ∧
      (rows.filter fun e => (db.getNodeById e.target).isSome).foldlM
        (DepthWalk.downStep (impactSteps db maxDepth) explore d) (searchState s) =
          some (searchState t) := by
  induction rows generalizing s with
  | nil =>
    cases returned
    exact ⟨whole, rfl⟩
  | cons e rows ih =>
    rw [List.foldlM_cons] at returned
    obtain ⟨m, first, rest⟩ := Option.bind_eq_some_iff.mp returned
    obtain ⟨clean, explored⟩ := ih (fun f h => looked f (List.mem_cons_of_mem _ h)) rest
    have same := looked e List.mem_cons_self
    cases found : db.getNodeById e.target with
    | none =>
      rw [List.filter_cons_of_neg (by simp [found])]
      unfold childStep at first
      rw [same, found] at first
      cases first
      exact ⟨clean, explored⟩
    | some node =>
      rw [List.filter_cons_of_pos (by simp [found]), List.foldlM_cons]
      obtain ⟨clean', step⟩ := childStep_simulates db maxDepth simulates
        (same.trans found) (Database.getNodeById_id found) first clean
      rw [step]
      exact ⟨clean', explored⟩

variable (db maxDepth) in
private theorem sourceStep_simulates {sources : NodeId → Option Node} {first : Bool} {d : Nat}
    {s t : Impact} {e : Edge} {node : Node} (found : sources e.source = some node)
    (row : db.getNodeById e.source = some node)
    (returned : sourceStep recurse budget sources first d s e = some t)
    (whole : t.truncated = false) :
    s.truncated = false ∧
      DepthWalk.backStep (impactSteps db maxDepth) explore first d (searchState s) e =
        some (searchState t) := by
  have named : node.id = e.source := Database.getNodeById_id row
  have stops : (impactSteps db maxDepth).stops e.source = isDocumentationNode node := by
    simp [impactSteps, row]
  unfold sourceStep at returned
  unfold DepthWalk.backStep
  rw [found] at returned
  simp only [named, nearer_eq] at returned
  split at returned
  · cases returned
    cases whole
  split at returned
  · cases returned
    cases whole
  have recorded : searchState (if first = true then { s with edges := s.edges ++ [e] } else s) =
      DepthWalk.record first (searchState s) e := by
    cases first <;> rfl
  have flag : (if first = true then { s with edges := s.edges ++ [e] } else s).truncated =
      s.truncated := by
    cases first <;> rfl
  generalize (if first = true then { s with edges := s.edges ++ [e] } else s) = r
    at returned recorded flag
  rw [← recorded, ← flag]
  change _ ∧ (if DepthWalk.nearer r.visited e.source (d + 1) = true then
    (if (impactSteps db maxDepth).stops e.source = true then _ else
      explore e.source (d + 1) (DepthWalk.addNode (searchState r) e.source)) else _) = _
  have added := searchState_setNode r node
  rw [named] at added
  rw [stops, ← added]
  split at returned
  · next near =>
    rw [if_pos near]
    split at returned
    · next doc =>
      rw [if_pos doc]
      cases returned
      refine ⟨whole, ?_⟩
      change some { DepthWalk.addNode (searchState r) e.source with
        visited := DepthWalk.mark (DepthWalk.addNode (searchState r) e.source).visited e.source
          (d + 1) } = _
      rw [← added]
      rfl
    · next code =>
      rw [if_neg code]
      exact simulates _ _ _ _ returned whole
  · next far =>
    rw [if_neg far]
    cases returned
    exact ⟨whole, rfl⟩

variable (db maxDepth) in
private theorem sourceLoop_simulates {sources : NodeId → Option Node} {first : Bool} {d : Nat}
    (rows : List Edge) (looked : ∀ e ∈ rows, sources e.source = db.getNodeById e.source)
    {s t : Impact} (returned : rows.foldlM (sourceStep recurse budget sources first d) s = some t)
    (whole : t.truncated = false) :
    s.truncated = false ∧
      (rows.filter fun e => (db.getNodeById e.source).isSome).foldlM
        (DepthWalk.backStep (impactSteps db maxDepth) explore first d) (searchState s) =
          some (searchState t) := by
  induction rows generalizing s with
  | nil =>
    cases returned
    exact ⟨whole, rfl⟩
  | cons e rows ih =>
    rw [List.foldlM_cons] at returned
    obtain ⟨m, head, rest⟩ := Option.bind_eq_some_iff.mp returned
    obtain ⟨clean, explored⟩ := ih (fun f h => looked f (List.mem_cons_of_mem _ h)) rest
    have same := looked e List.mem_cons_self
    cases found : db.getNodeById e.source with
    | none =>
      rw [List.filter_cons_of_neg (by simp [found])]
      unfold sourceStep at head
      rw [same, found] at head
      cases head
      exact ⟨clean, explored⟩
    | some node =>
      rw [List.filter_cons_of_pos (by simp [found]), List.foldlM_cons]
      obtain ⟨clean', step⟩ := sourceStep_simulates db maxDepth simulates
        (same.trans found) found head clean
      rw [step]
      exact ⟨clean', explored⟩

omit simulates in
/-- Rows cut at one more than the budget are all there unless the cut is noticed. -/
private theorem fetched_whole (rows : List Edge) (remaining : Nat)
    (fits : ¬ remaining < (rows.take (remaining + 1)).length) :
    (rows.take (remaining + 1)).take remaining = rows := by
  rw [List.length_take] at fits
  rw [List.take_take, List.take_of_length_le (by omega)]

variable (db maxDepth) in
private theorem visitChildren_simulates {id : NodeId} {d : Nat} {s t : Impact}
    (returned : visitChildren db recurse budget id d s = some t) (whole : t.truncated = false) :
    s.truncated = false ∧
      (childRows db id).foldlM (DepthWalk.downStep (impactSteps db maxDepth) explore d)
        (searchState s) = some (searchState t) := by
  unfold visitChildren at returned
  cases found : db.getNodeById id with
  | none =>
    have none_left : childRows db id = [] := by simp [childRows, isContainer, found]
    rw [found] at returned
    cases returned
    rw [none_left]
    exact ⟨whole, rfl⟩
  | some focal =>
    rw [found] at returned
    simp only at returned
    split at returned
    · next kind =>
      have rows : childRows db id =
          (outgoingRows db id).filter fun e => (db.getNodeById e.target).isSome := by
        simp [childRows, isContainer, found, kind]
      obtain ⟨clean, explored⟩ := childLoop_simulates db maxDepth simulates _
        (fun e member => Database.getNodesByIds_mem (List.mem_map_of_mem member)) returned whole
      split at clean
      · cases clean
      · next fits =>
        rw [if_neg fits] at explored
        rw [Database.getOutgoingEdges, fetched_whole _ _ fits] at explored
        rw [rows]
        exact ⟨clean, explored⟩
    · next other =>
      have none_left : childRows db id = [] := by simp [childRows, isContainer, found, other]
      cases returned
      rw [none_left]
      exact ⟨whole, rfl⟩

variable (db maxDepth) in
private theorem visitSources_simulates {id : NodeId} {first : Bool} {d : Nat} {s t : Impact}
    (returned : visitSources db recurse budget id first d s = some t)
    (whole : t.truncated = false) :
    s.truncated = false ∧
      (dependentRows db id).foldlM (DepthWalk.backStep (impactSteps db maxDepth) explore first d)
        (searchState s) = some (searchState t) := by
  unfold visitSources at returned
  obtain ⟨clean, explored⟩ := sourceLoop_simulates db maxDepth simulates _
    (fun e member => Database.getNodesByIds_mem (List.mem_map_of_mem member)) returned whole
  split at clean
  · cases clean
  · next fits =>
    rw [if_neg fits] at explored
    rw [Database.getIncomingEdges, fetched_whole _ _ fits] at explored
    exact ⟨clean, explored⟩

end Simulation

theorem getImpactRecursive_simulates (db : Database) (maxDepth : MaxDepth)
    (budget : Budget) (fuel : Nat) :
    Simulates (getImpactRecursive db maxDepth budget fuel)
      (DepthWalk.visit (impactSteps db maxDepth) fuel) := by
  induction fuel with
  | zero =>
    intro id d s t returned
    cases returned
  | succ fuel ih =>
    intro id d s t returned whole
    rw [getImpactRecursive] at returned
    rw [DepthWalk.visit]
    simp only [nearer_eq, Bool.not_eq_true'] at returned
    split at returned
    · next far =>
      cases returned
      have far' : ¬ DepthWalk.nearer (searchState s).visited id d = true := by
        rw [Bool.not_eq_true]
        exact far
      rw [if_neg far']
      exact ⟨whole, rfl⟩
    · next near =>
      rw [Bool.not_eq_false] at near
      rw [if_pos (show DepthWalk.nearer (searchState s).visited id d = true from near)]
      split at returned
      · next limit =>
        rw [if_neg (by simp [impactSteps, limit])]
        cases returned
        exact ⟨whole, rfl⟩
      · next within =>
        rw [if_pos (by simpa [impactSteps] using within)]
        obtain ⟨m, children, sources⟩ := Option.bind_eq_some_iff.mp returned
        obtain ⟨clean, back⟩ := visitSources_simulates db maxDepth ih sources whole
        obtain ⟨clean', down⟩ := visitChildren_simulates db maxDepth ih children clean
        exact ⟨clean', Option.bind_eq_some_iff.mpr ⟨searchState m, down, back⟩⟩

end CodeGraph.Graph
