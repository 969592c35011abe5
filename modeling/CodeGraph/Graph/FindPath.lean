import CodeGraph.Foundation.BreadthFirst
import CodeGraph.Foundation.Transitions
import CodeGraph.Graph.Database

/-! The path between two nodes. -/
namespace CodeGraph.Graph

open Distance BreadthFirst

structure PathParent where
  parentId : NodeId
  node : Node
  edge : Edge

/-- What is left of the queue, the ids that have been put into it, and one predecessor of each. -/
structure PathSearch where
  enqueued : List NodeId
  parents : NodeId → Option PathParent
  queue : List NodeId

def pathStep (nodeId : NodeId) (nextNodes : NodeId → Option Node) (s : PathSearch) (edge : Edge) :
    PathSearch :=
  if edge.target ∈ s.enqueued then s
  else
    match nextNodes edge.target with
    | none => s
    | some nextNode =>
      { enqueued := edge.target :: s.enqueued
        parents := fun id => if id = edge.target then some ⟨nodeId, nextNode, edge⟩ else s.parents id
        queue := s.queue ++ [edge.target] }

def backtrack (parents : NodeId → Option PathParent) (fromId : NodeId) :
    Nat → NodeId → Option (List (Node × Option Edge))
  | 0, _ => none
  | fuel + 1, currentId =>
    if currentId = fromId then some []
    else
      match parents currentId with
      | none => none
      | some step => do
        let rest ← backtrack parents fromId fuel step.parentId
        return (step.node, some step.edge) :: rest

def pathRows (store : Store) (edgeKinds : List EdgeKind) (nodeId : NodeId) (s : PathSearch) :
    PathSearch :=
  let outgoingEdges := store.getOutgoingEdges nodeId edgeKinds
  let wantIds := (outgoingEdges.map Edge.target).dedup.filter (· ∉ s.enqueued)
  outgoingEdges.foldl (pathStep nodeId (store.db.getNodesByIds wantIds)) s

/-- The outer option stands for running out of fuel and for a missing predecessor, the inner one is
the answer. -/
def pathLoop (store : Store) (fromNode : Node) (toId : NodeId) (edgeKinds : List EdgeKind) :
    Nat → PathSearch → Option (Option (List (Node × Option Edge)))
  | 0, _ => none
  | fuel + 1, s =>
    match s.queue with
    | [] => some none
    | nodeId :: queue =>
      if nodeId = toId then
        (backtrack s.parents fromNode.id (store.db.nodes.length + 1) toId).map fun path =>
          some (path ++ [(fromNode, none)]).reverse
      else pathLoop store fromNode toId edgeKinds fuel
        (pathRows store edgeKinds nodeId { s with queue })

def findPath (store : Store) (fromId toId : NodeId) (edgeKinds : List EdgeKind := []) :
    Option (Option (List (Node × Option Edge))) :=
  match store.db.getNodeById fromId, store.db.getNodeById toId with
  | some fromNode, some _ =>
    pathLoop store fromNode toId edgeKinds (store.db.nodes.length + 1)
      ⟨[fromId], fun _ => none, [fromId]⟩
  | _, _ => some none

def PathEdge (db : Database) (edgeKinds : List EdgeKind) (a b : NodeId) : Prop :=
  ∃ e ∈ db.edges, (edgeKinds = [] ∨ e.kind ∈ edgeKinds) ∧ e.source = a ∧ e.target = b ∧
    (db.getNodeById b).isSome

/-- A sequence from a node with no edge to another, each entry with an edge from the one before. -/
inductive PathTo (db : Database) (edgeKinds : List EdgeKind) (fromNode : Node) :
    List (Node × Option Edge) → Node → Prop where
  | start : PathTo db edgeKinds fromNode [(fromNode, none)] fromNode
  | step {path : List (Node × Option Edge)} {a b : Node} {e : Edge} :
      PathTo db edgeKinds fromNode path a → e ∈ db.edges → (edgeKinds = [] ∨ e.kind ∈ edgeKinds) →
      e.source = a.id → e.target = b.id → db.getNodeById b.id = some b →
      PathTo db edgeKinds fromNode (path ++ [(b, some e)]) b

/-! ### The rows of one node -/

variable {store : Store} {edgeKinds : List EdgeKind} {fromId : NodeId} {depth : NodeId → Nat}
  {done : List NodeId}

def Preceded (store : Store) (edgeKinds : List EdgeKind) (fromId : NodeId) (depth : NodeId → Nat)
    (found : List NodeId) (parents : NodeId → Option PathParent) : Prop :=
  ∀ id ∈ found, id ≠ fromId → ∃ p, parents id = some p ∧ p.parentId ∈ found ∧
    depth id = depth p.parentId + 1 ∧ store.db.getNodeById id = some p.node ∧
    p.edge ∈ store.db.edges ∧ (edgeKinds = [] ∨ p.edge.kind ∈ edgeKinds) ∧
    p.edge.source = p.parentId ∧ p.edge.target = id

structure Added (store : Store) (nodeId : NodeId) (rows : List Edge) (s t : PathSearch)
    (new : List NodeId) : Prop where
  queue : t.queue = s.queue ++ new
  enqueued : ∀ id, id ∈ t.enqueued ↔ id ∈ s.enqueued ∨ id ∈ new
  distinct : new.Nodup
  fresh : ∀ id ∈ new, id ∉ s.enqueued
  parents : ∀ id ∉ new, t.parents id = s.parents id
  from_rows : ∀ id ∈ new, ∃ e ∈ rows, e.target = id ∧ ∃ node,
    store.db.getNodeById id = some node ∧ t.parents id = some ⟨nodeId, node, e⟩
  all : ∀ e ∈ rows, (store.db.getNodeById e.target).isSome → e.target ∈ t.enqueued

private theorem added_more {nodeId : NodeId} {rows : List Edge} {s t : PathSearch}
    {new : List NodeId} {e : Edge} (added : Added store nodeId rows s t new)
    (known : (store.db.getNodeById e.target).isSome → e.target ∈ t.enqueued) :
    Added store nodeId (rows ++ [e]) s t new :=
  { added with
    from_rows := fun id member => by
      obtain ⟨f, row, rest⟩ := added.from_rows id member
      exact ⟨f, List.mem_append_left [e] row, rest⟩
    all := fun f member exists_ => by
      rcases mem_snoc.mp member with row | last
      · exact added.all f row exists_
      · rw [last] at exists_ ⊢
        exact known exists_ }

theorem pathStep_added {nodeId : NodeId} {nextNodes : NodeId → Option Node} {rows : List Edge}
    {s t : PathSearch} {new : List NodeId} {e : Edge} (added : Added store nodeId rows s t new)
    (looked : e.target ∉ s.enqueued → nextNodes e.target = store.db.getNodeById e.target) :
    ∃ new', Added store nodeId (rows ++ [e]) s (pathStep nodeId nextNodes t e) new' := by
  unfold pathStep
  split
  · next known => exact ⟨new, added_more added fun _ => known⟩
  next unknown =>
  obtain ⟨before, other⟩ := not_or.mp ((added.enqueued e.target).not.mp unknown)
  rw [looked before]
  cases found : store.db.getNodeById e.target with
  | none =>
    refine ⟨new, added_more added fun exists_ => ?_⟩
    rw [found] at exists_
    cases exists_
  | some node =>
    refine ⟨new ++ [e.target], ?_⟩
    constructor
    · simp only [added.queue, List.append_assoc]
    · intro id
      simp only [List.mem_cons, added.enqueued, List.mem_append, List.not_mem_nil, or_false]
      tauto
    · exact nodup_snoc added.distinct other
    · exact forall_snoc added.fresh before
    · intro id absent
      rw [List.mem_append, not_or, List.mem_singleton] at absent
      simp only [if_neg absent.2]
      exact added.parents id absent.1
    · intro id member
      rcases mem_snoc.mp member with earlier | last
      · have apart : id ≠ e.target := fun same => other (same ▸ earlier)
        obtain ⟨f, row, target, n, exists_, parent⟩ := added.from_rows id earlier
        exact ⟨f, List.mem_append_left [e] row, target, n, exists_, by simp only [if_neg apart, parent]⟩
      · rw [last]
        exact ⟨e, List.mem_append_right rows (List.mem_singleton.mpr rfl), rfl, node, found, if_pos rfl⟩
    · intro f member exists_
      rcases mem_snoc.mp member with row | last
      · exact List.mem_cons_of_mem _ (added.all f row exists_)
      · rw [last]
        exact List.mem_cons_self

private theorem pathLoop_added {nodeId : NodeId} {nextNodes : NodeId → Option Node}
    {rows rest : List Edge} {s t : PathSearch} {new : List NodeId}
    (added : Added store nodeId rows s t new)
    (looked : ∀ e ∈ rest, e.target ∉ s.enqueued →
      nextNodes e.target = store.db.getNodeById e.target) :
    ∃ new', Added store nodeId (rows ++ rest) s (rest.foldl (pathStep nodeId nextNodes) t) new' := by
  induction rest generalizing rows t new with
  | nil => exact ⟨new, by simpa using added⟩
  | cons e rest ih =>
    obtain ⟨middle, step⟩ := pathStep_added added (looked e List.mem_cons_self)
    obtain ⟨new', done⟩ := ih step fun f h => looked f (List.mem_cons_of_mem e h)
    exact ⟨new', by simpa using done⟩

variable (store edgeKinds) in
theorem pathRows_added (nodeId : NodeId) (s : PathSearch) :
    ∃ new, Added store nodeId (store.getOutgoingEdges nodeId edgeKinds) s
      (pathRows store edgeKinds nodeId s) new := by
  have nothing : Added store nodeId [] s s [] :=
    ⟨by simp, by simp, List.nodup_nil, by simp, fun _ _ => rfl, by simp, by simp⟩
  refine pathLoop_added nothing fun e row unknown => Database.getNodesByIds_mem ?_
  rw [List.mem_filter, List.mem_dedup]
  exact ⟨List.mem_map_of_mem row, by simpa using unknown⟩

structure Searched (store : Store) (edgeKinds : List EdgeKind) (fromId : NodeId)
    (depth : NodeId → Nat) (done : List NodeId) (s : PathSearch) : Prop where
  frontier : Frontier (PathEdge store.db edgeKinds) (fun _ => True) fromId depth done s.queue
  enqueued : ∀ id, id ∈ s.enqueued ↔ id ∈ done ++ s.queue
  preceded : Preceded store edgeKinds fromId depth (done ++ s.queue) s.parents
  nodes : ∀ id ∈ done ++ s.queue, (store.db.getNodeById id).isSome

theorem pathRows_searched {nodeId : NodeId} {queue : List NodeId} {s : PathSearch}
    (searched : Searched store edgeKinds fromId depth done s) (head : s.queue = nodeId :: queue) :
    ∃ depth', Searched store edgeKinds fromId depth' (done ++ [nodeId])
      (pathRows store edgeKinds nodeId { s with queue }) := by
  obtain ⟨new, added⟩ := pathRows_added store edgeKinds nodeId
    { s with queue }
  have frontier := searched.frontier
  have enqueued := searched.enqueued
  have preceded := searched.preceded
  have nodes := searched.nodes
  rw [head] at frontier enqueued preceded nodes
  have row : ∀ e ∈ store.getOutgoingEdges nodeId edgeKinds, e ∈ store.db.edges ∧
      e.source = nodeId ∧ (edgeKinds = [] ∨ e.kind ∈ edgeKinds) :=
    fun e member => Store.mem_getOutgoingEdges.mp member
  have fresh : ∀ id ∈ new, id ∉ done ++ nodeId :: queue :=
    fun id member listed => added.fresh id member ((enqueued id).mpr listed)
  have whole : done ++ [nodeId] ++ (queue ++ new) = done ++ nodeId :: queue ++ new := by simp
  refine ⟨deepen depth nodeId new, ?_, ?_, ?_, ?_⟩
  · rw [added.queue]
    refine frontier.search added.distinct fresh (fun id member => ?_) fun _ id edge => ?_
    · obtain ⟨e, member, target, node, exists_, -⟩ := added.from_rows id member
      obtain ⟨edge, source, kind⟩ := row e member
      exact ⟨trivial, e, edge, kind, source, target, by rw [exists_]; rfl⟩
    · obtain ⟨e, edge, kind, source, rfl, exists_⟩ := edge
      have listed := added.all e (Store.mem_getOutgoingEdges.mpr ⟨edge, source, kind⟩) exists_
      rcases (added.enqueued e.target).mp listed with before | member
      · exact .inl ((enqueued e.target).mp before)
      · exact .inr member
  · intro id
    rw [added.enqueued, enqueued, added.queue, whole, List.mem_append (t := new)]
  · rw [added.queue, whole]
    intro id listed other
    have here : nodeId ∈ done ++ nodeId :: queue := List.mem_append_right done List.mem_cons_self
    rcases List.mem_append.mp listed with earlier | member
    · have old : id ∉ new := fun member => fresh id member earlier
      obtain ⟨p, parent, found, less, rest⟩ := preceded id earlier other
      refine ⟨p, by rw [added.parents id old, parent], List.mem_append_left new found, ?_, rest⟩
      rw [deepen_old old, deepen_old fun member => fresh _ member found]
      exact less
    · obtain ⟨e, member', target, node, exists_, parent⟩ := added.from_rows id member
      obtain ⟨edge, source, kind⟩ := row e member'
      refine ⟨_, parent, List.mem_append_left new here, ?_, exists_, edge, kind, source, target⟩
      rw [deepen_new member, deepen_old fun member => fresh _ member here]
  · rw [added.queue, whole]
    intro id listed
    rcases List.mem_append.mp listed with earlier | member
    · exact nodes id earlier
    · obtain ⟨e, -, -, node, exists_, -⟩ := added.from_rows id member
      rw [exists_]
      rfl

theorem backtrack_path {s : PathSearch} {fromNode : Node}
    (searched : Searched store edgeKinds fromNode.id depth done s)
    (start : store.db.getNodeById fromNode.id = some fromNode) {d : Nat} {id : NodeId}
    (listed : id ∈ done ++ s.queue) (level : depth id = d) {fuel : Nat} (enough : d < fuel)
    {node : Node} (found : store.db.getNodeById id = some node) :
    ∃ path, backtrack s.parents fromNode.id fuel id = some path ∧
      PathTo store.db edgeKinds fromNode (path ++ [(fromNode, none)]).reverse node ∧
      (path ++ [(fromNode, none)]).reverse.map (fun entry : Node × Option Edge => depth entry.1.id) =
        List.range (d + 1) := by
  induction d generalizing id fuel node with
  | zero =>
    obtain ⟨n, rfl⟩ : ∃ n, fuel = n + 1 := ⟨fuel - 1, by omega⟩
    have walk := searched.frontier.walks id listed
    rw [level] at walk
    cases walk
    cases start.symm.trans found
    exact ⟨[], by rw [backtrack, if_pos rfl], .start, by simp [level]⟩
  | succ d ih =>
    obtain ⟨n, rfl⟩ : ∃ n, fuel = n + 1 := ⟨fuel - 1, by omega⟩
    have other : id ≠ fromNode.id := by
      rintro rfl
      rw [searched.frontier.zero] at level
      omega
    obtain ⟨p, parent, before, less, exists_, edge, kind, source, target⟩ :=
      searched.preceded id listed other
    cases exists_.symm.trans found
    obtain ⟨previous, known⟩ := Option.isSome_iff_exists.mp (searched.nodes p.parentId before)
    obtain ⟨path, back, valid, levels⟩ := ih before (by omega) (show d < n by omega) known
    have named := Database.getNodeById_id found
    refine ⟨(p.node, some p.edge) :: path, ?_, ?_, ?_⟩
    · rw [backtrack, if_neg other, parent]
      simp only [back]
      rfl
    · rw [List.cons_append, List.reverse_cons]
      refine valid.step edge kind (source.trans (Database.getNodeById_id known).symm)
        (target.trans named.symm) ?_
      rw [named]
      exact found
    · rw [List.cons_append, List.reverse_cons, List.map_append, levels, List.range_succ (n := d + 1)]
      simp [named, level]

/-! ### The loop -/

theorem searched_length {s : PathSearch} (searched : Searched store edgeKinds fromId depth done s) :
    (done ++ s.queue).length ≤ store.db.nodes.length := by
  have inside : done ++ s.queue ⊆ store.db.nodes.map Node.id := by
    intro id listed
    obtain ⟨node, found⟩ := Option.isSome_iff_exists.mp (searched.nodes id listed)
    exact List.mem_map.mpr ⟨node, Database.getNodeById_mem found, Database.getNodeById_id found⟩
  have few := (List.subperm_of_subset searched.frontier.nodup inside).length_le
  rwa [List.length_map] at few

theorem distance_lt {id : NodeId} {d : Nat}
    (distance : IsDistance (PathEdge store.db edgeKinds) fromId id d)
    (start : (store.db.getNodeById fromId).isSome) : d < store.db.nodes.length := by
  have listed : ∀ c, (store.db.getNodeById c).isSome → c ∈ store.db.nodes.map Node.id := by
    intro c exists_
    obtain ⟨node, found⟩ := Option.isSome_iff_exists.mp exists_
    exact List.mem_map.mpr ⟨node, Database.getNodeById_mem found, Database.getNodeById_id found⟩
  have less : d < (store.db.nodes.map Node.id).length := distance.lt_length fun c m other => by
    cases m with
    | zero =>
      cases other.1
      exact listed fromId start
    | succ m =>
      obtain ⟨-, -, e, -, -, -, -, exists_⟩ := other.before
      exact listed c exists_
  rwa [List.length_map] at less

/-- The answer of a search: no path if there is none, else a shortest one. -/
def Answers (db : Database) (edgeKinds : List EdgeKind) (fromNode : Node) (toId : NodeId)
    (answer : Option (List (Node × Option Edge))) : Prop :=
  (answer = none ↔ ¬Relation.ReflTransGen (PathEdge db edgeKinds) fromNode.id toId) ∧
    ∀ path, answer = some path →
      (∃ toNode, db.getNodeById toId = some toNode ∧ PathTo db edgeKinds fromNode path toNode) ∧
      (path.map (·.1.id)).Nodup ∧
      IsDistance (PathEdge db edgeKinds) fromNode.id toId (path.length - 1)

theorem pathLoop_answers {fromNode : Node} {toId : NodeId} {s : PathSearch} {fuel : Nat}
    (start : store.db.getNodeById fromNode.id = some fromNode)
    (searched : Searched store edgeKinds fromNode.id depth done s) (before : toId ∉ done)
    (enough : store.db.nodes.length < done.length + fuel) :
    ∃ answer, pathLoop store fromNode toId edgeKinds fuel s = some answer ∧
      Answers store.db edgeKinds fromNode toId answer := by
  induction fuel generalizing s done depth with
  | zero =>
    have few := searched_length searched
    rw [List.length_append] at few
    omega
  | succ fuel ih =>
    rw [pathLoop]
    cases head : s.queue with
    | nil =>
      refine ⟨none, rfl, ⟨fun _ reaches => ?_, fun _ => rfl⟩, fun _ none_ => nomatch none_⟩
      obtain ⟨n, walk⟩ := exists_walk reaches
      have frontier := searched.frontier
      rw [head] at frontier
      have reached := (frontier.reaches walk (fun _ _ => trivial) fun _ none_ => nomatch none_).1
      rw [List.append_nil] at reached
      exact before reached
    | cons nodeId queue =>
      simp only
      split
      · next here =>
        subst here
        have listed : nodeId ∈ done ++ s.queue := by
          rw [head]
          exact List.mem_append_right done List.mem_cons_self
        obtain ⟨node, found⟩ := Option.isSome_iff_exists.mp (searched.nodes nodeId listed)
        have distance := searched.frontier.distance listed
        have near_ := distance_lt distance (by rw [start]; rfl)
        obtain ⟨path, back, valid, levels⟩ := backtrack_path searched start listed rfl
          (show depth nodeId < store.db.nodes.length + 1 by omega) found
        refine ⟨some (path ++ [(fromNode, none)]).reverse, by rw [back]; rfl, ?_, ?_⟩
        · refine ⟨fun none_ => (nomatch none_), fun unreachable => ?_⟩
          exact absurd distance.1.reaches unreachable
        · intro answer same
          cases same
          have length := congrArg List.length levels
          rw [List.length_map, List.length_range] at length
          refine ⟨⟨node, found, valid⟩, ?_, by rw [length]; exact distance⟩
          have nodup : ((path ++ [(fromNode, none)]).reverse.map
              fun entry : Node × Option Edge => depth entry.1.id).Nodup := by
            rw [levels]
            exact List.nodup_range
          have factored : ((path ++ [(fromNode, none)]).reverse.map
              fun entry : Node × Option Edge => depth entry.1.id) =
              ((path ++ [(fromNode, none)]).reverse.map
                fun entry : Node × Option Edge => entry.1.id).map depth := by
            rw [List.map_map]
            rfl
          exact List.Nodup.of_map depth (factored ▸ nodup)
      · next other =>
        obtain ⟨depth', next_⟩ := pathRows_searched searched head
        refine ih next_ ?_ ?_
        · rw [List.mem_append, not_or, List.mem_singleton]
          exact ⟨before, fun same => other same.symm⟩
        · rw [List.length_append, List.length_singleton]
          omega

/-- The path found between two existing nodes is a shortest one, and none is found exactly if there
is none. -/
theorem findPath_shortest (store : Store) (edgeKinds : List EdgeKind) {fromNode toNode : Node}
    (from_ : store.db.getNodeById fromNode.id = some fromNode)
    (to_ : store.db.getNodeById toNode.id = some toNode) :
    ∃ answer, findPath store fromNode.id toNode.id edgeKinds = some answer ∧
      Answers store.db edgeKinds fromNode toNode.id answer := by
  have searched : Searched store edgeKinds fromNode.id (fun _ => 0) []
      ⟨[fromNode.id], fun _ => none, [fromNode.id]⟩ := by
    refine ⟨frontier_start _ _ _, fun _ => Iff.rfl, fun id listed other => ?_, fun id listed => ?_⟩
    · exact absurd (List.mem_singleton.mp listed) other
    · rw [List.mem_singleton.mp listed, from_]
      rfl
  rw [findPath, from_, to_]
  exact pathLoop_answers from_ searched List.not_mem_nil (by simp)

def parallelCalls : Database where
  nodes := ["a", "b", "c"].map fun id => ⟨id, .function, .typescript⟩
  edges := [
    ⟨1, "a", "b", .calls, some 1, none⟩,
    ⟨2, "a", "b", .calls, some 2, none⟩,
    ⟨3, "b", "a", .calls, none, none⟩,
    ⟨4, "b", "gone", .calls, none, none⟩,
    ⟨5, "b", "c", .references, none, none⟩]
  identities := by decide

private theorem parallelCalls_a :
    parallelCalls.getNodeById "a" = some ⟨"a", .function, .typescript⟩ := by decide +kernel

private theorem parallelCalls_c :
    parallelCalls.getNodeById "c" = some ⟨"c", .function, .typescript⟩ := by decide +kernel

theorem findPath_shortest_parallelCalls :
    ∃ answer, findPath parallelCalls.store "a" "c" = some answer ∧
      Answers parallelCalls [] ⟨"a", .function, .typescript⟩ "c" answer := by
  have from_ : parallelCalls.store.db.getNodeById (Node.mk "a" .function .typescript).id =
      some ⟨"a", .function, .typescript⟩ := parallelCalls_a
  have to_ : parallelCalls.store.db.getNodeById (Node.mk "c" .function .typescript).id =
      some ⟨"c", .function, .typescript⟩ := parallelCalls_c
  exact findPath_shortest parallelCalls.store [] from_ to_

end CodeGraph.Graph
