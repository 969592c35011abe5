import CodeGraph.Foundation.DepthFirst
import CodeGraph.Graph.TraverseBFSExact

/-! The depth-first traversal, and the containers of a node. -/
namespace CodeGraph.Graph

open Relation DepthFirst Distance

/-- The data of the recursion; the map and the set are in the order of insertion. -/
structure Dfs where
  nodes : List Node
  edges : List Edge
  visited : List NodeId

/-- One round of the loop over the adjacent edges. Where the source breaks out of the loop, each later
round finds the limit reached as well. -/
def dfsEdge (opts : TraversalOptions) (nodeId : NodeId) (neighborNodes : NodeId → Option Node)
    (recurse : Node → Dfs → Option Dfs) (s : Dfs) (edge : Edge) : Option Dfs :=
  if !underLimit opts.limit s.nodes.length then some s
  else if farEnd nodeId edge ∈ s.visited then some s
  else
    match neighborNodes (farEnd nodeId edge) with
    | none => some s
    | some nextNode =>
      if !admitsKind opts.nodeKinds nextNode.kind then some s
      else recurse nextNode { s with nodes := setNode s.nodes nextNode, edges := s.edges ++ [edge] }

/-- The fuel bounds the nesting of the calls. -/
def dfsRecursive (store : Store) (opts : TraversalOptions) : Nat → Node → Nat → Dfs → Option Dfs
  | 0, _, _, _ => none
  | fuel + 1, node, depth, s =>
    if node.id ∈ s.visited then some s
    else if !underLimit opts.limit s.nodes.length then some s
    else if reachedLimit opts.maxDepth depth then some s
    else
      let visited := s.visited ++ [node.id]
      let adjacentEdges := getAdjacentEdges store node.id opts.direction opts.edgeKinds
      let wantIds := (adjacentEdges.map (farEnd node.id)).filter fun id => id ∉ visited
      adjacentEdges.foldlM
        (dfsEdge opts node.id (store.db.getNodesByIds wantIds)
          fun nextNode => dfsRecursive store opts fuel nextNode (depth + 1))
        { s with visited }

def traverseDFS (store : Store) (startId : NodeId) (opts : TraversalOptions := {}) : Option Subgraph :=
  match store.db.getNodeById startId with
  | none => some ⟨[], [], [], false⟩
  | some startNode =>
    (dfsRecursive store opts (store.db.nodes.length + 1) startNode 0
      ⟨if opts.includeStart then [startNode] else [], [], []⟩).map
      fun s => ⟨s.nodes, s.edges, [startId], false⟩

/-- One of some edges is admitted and leads from `a` to `b`. -/
def Joined (db : Database) (opts : TraversalOptions) (edges : List Edge) (a b : NodeId) : Prop :=
  ∃ e ∈ edges, Admits db opts e a b

/-- Each node returned is stored, is listed once and is reached within the depth through edges that
are returned as well; without a depth they are all that can be reached, unless the limit cuts in. -/
structure DepthSearch (db : Database) (opts : TraversalOptions) (startId : NodeId)
    (result : Subgraph) : Prop where
  limit : ∀ bound ∈ opts.limit, result.nodes.length ≤ max bound 1
  nodes : (result.nodes.map Node.id).Nodup ∧ ∀ n ∈ result.nodes, db.getNodeById n.id = some n
  reach : ∀ n ∈ result.nodes, ∃ d, Walk (Joined db opts result.edges) startId d n.id ∧
    (d = 0 ∨ withinDepth opts.maxDepth d)
  edges : ∀ e ∈ result.edges, ∃ a b, Admits db opts e a b ∧
    a ∈ startId :: result.nodes.map Node.id ∧ b ∈ result.nodes.map Node.id
  included : opts.includeStart = true → startId ∈ result.nodes.map Node.id
  exact : opts.maxDepth = none → underLimit opts.limit result.nodes.length = true → ∀ id,
    id ∈ startId :: result.nodes.map Node.id ↔ ReflTransGen (Adjacent db opts) startId id

/-! ### What every call keeps -/

variable {store : Store} {db : Database} {opts : TraversalOptions} {startId nodeId : NodeId}
  {s t u : Dfs} {depth fuel : Nat}

variable (db opts startId) in
structure DfsKept (s : Dfs) : Prop where
  distinct : (s.nodes.map Node.id).Nodup
  stored : ∀ n ∈ s.nodes, db.getNodeById n.id = some n
  few : ∀ bound ∈ opts.limit, s.nodes.length ≤ max bound 1
  reach : ∀ n ∈ s.nodes, ∃ d, Walk (Joined db opts s.edges) startId d n.id ∧
    (d = 0 ∨ withinDepth opts.maxDepth d)
  edges : ∀ e ∈ s.edges, ∃ a b, Admits db opts e a b ∧
    a ∈ startId :: s.nodes.map Node.id ∧ b ∈ s.nodes.map Node.id
  included : opts.includeStart = true → startId ∈ s.nodes.map Node.id
  visited : s.visited ⊆ startId :: s.nodes.map Node.id
  entered : s.visited.Nodup

structure Grows (s t : Dfs) : Prop where
  edges : s.edges ⊆ t.edges
  nodes : s.nodes.length ≤ t.nodes.length
  visited : s.visited ⊆ t.visited

theorem Grows.refl (s : Dfs) : Grows s s :=
  ⟨List.Subset.refl _, le_refl _, List.Subset.refl _⟩

theorem Grows.trans (first : Grows s t) (second : Grows t u) : Grows s u where
  edges := List.Subset.trans first.edges second.edges
  nodes := first.nodes.trans second.nodes
  visited := List.Subset.trans first.visited second.visited

theorem joined_mono {edges more : List Edge} (sub : edges ⊆ more) {a b : NodeId} {d : Nat}
    (walk : Walk (Joined db opts edges) a d b) : Walk (Joined db opts more) a d b := by
  induction walk with
  | start => exact .start
  | step _ last ih =>
    obtain ⟨e, listed, admits⟩ := last
    exact ih.step ⟨e, sub listed, admits⟩

theorem DfsKept.node_listed (kept : DfsKept db opts startId s) {startNode : Node}
    (start : db.getNodeById startId = some startNode) : s.visited.length ≤ db.nodes.length := by
  have inside : s.visited ⊆ db.nodes.map Node.id := by
    intro id visited
    rcases List.mem_cons.mp (kept.visited visited) with rfl | listed
    · rw [← Database.getNodeById_id start]
      exact List.mem_map_of_mem (Database.getNodeById_mem start)
    · obtain ⟨n, member, rfl⟩ := List.mem_map.mp listed
      exact List.mem_map_of_mem (Database.getNodeById_mem (kept.stored n member))
  have few := (List.subperm_of_subset kept.entered inside).length_le
  rwa [List.length_map] at few

/-- A step to a node that has not been visited: the node is listed, and so is the edge. -/
theorem DfsKept.push (kept : DfsKept db opts startId s) (here : nodeId ∈ s.visited)
    (walk : Walk (Joined db opts s.edges) startId depth nodeId)
    (deep : withinDepth opts.maxDepth (depth + 1))
    (under : underLimit opts.limit s.nodes.length = true) {e : Edge} {node : Node}
    (admits : Admits db opts e nodeId node.id) (found : db.getNodeById node.id = some node) :
    DfsKept db opts startId { s with nodes := setNode s.nodes node, edges := s.edges ++ [e] } ∧
      Walk (Joined db opts (s.edges ++ [e])) startId (depth + 1) node.id ∧
      node.id ∈ (setNode s.nodes node).map Node.id ∧
      s.nodes.length ≤ (setNode s.nodes node).length := by
  have grown : s.edges ⊆ s.edges ++ [e] := List.subset_append_left _ _
  have further : Walk (Joined db opts (s.edges ++ [e])) startId (depth + 1) node.id :=
    (joined_mono grown walk).step ⟨e, List.mem_append_right _ (List.mem_singleton.mpr rfl), admits⟩
  have reach : ∀ n ∈ s.nodes, ∃ d, Walk (Joined db opts (s.edges ++ [e])) startId d n.id ∧
      (d = 0 ∨ withinDepth opts.maxDepth d) := by
    intro n listed
    obtain ⟨d, reaches, within⟩ := kept.reach n listed
    exact ⟨d, joined_mono grown reaches, within⟩
  by_cases listed : node.id ∈ s.nodes.map Node.id
  · rw [setNode_stored kept.stored found listed]
    refine ⟨⟨kept.distinct, kept.stored, kept.few, reach, ?_, kept.included, kept.visited,
      kept.entered⟩, further, listed, le_refl _⟩
    exact forall_snoc kept.edges ⟨nodeId, node.id, admits, kept.visited here, listed⟩
  · rw [setNode_new listed]
    have ids : (s.nodes ++ [node]).map Node.id = s.nodes.map Node.id ++ [node.id] := List.map_append
    have wider : ∀ id, id ∈ startId :: s.nodes.map Node.id →
        id ∈ startId :: (s.nodes ++ [node]).map Node.id := by
      intro id member
      rw [ids, ← List.cons_append]
      exact List.mem_append_left _ member
    refine ⟨⟨?_, forall_snoc kept.stored found, ?_, forall_snoc reach ⟨_, further, .inr deep⟩, ?_,
      fun given => ?_, fun id visited => wider id (kept.visited visited), kept.entered⟩, further, ?_, ?_⟩
    · rw [ids]
      exact nodup_snoc kept.distinct listed
    · intro bound is
      have room := underLimit_iff.mp under bound is
      rw [List.length_append, List.length_singleton]
      exact le_max_of_le_left room
    · refine forall_snoc (fun f member => ?_) ⟨nodeId, node.id, admits, wider _ (kept.visited here), ?_⟩
      · obtain ⟨a, b, joins, source, target⟩ := kept.edges f member
        refine ⟨a, b, joins, wider a source, ?_⟩
        rw [ids]
        exact List.mem_append_left _ target
      · rw [ids]
        exact List.mem_append_right _ (List.mem_singleton.mpr rfl)
    · rw [ids]
      exact List.mem_append_left _ (kept.included given)
    · rw [ids]
      exact List.mem_append_right _ (List.mem_singleton.mpr rfl)
    · rw [List.length_append]
      exact Nat.le_add_right _ _

/-! ### What a call explores -/

variable (db opts) in
def DfsScans (nodeId : NodeId) (s t : Dfs) : Prop :=
  ∀ before new, s.visited = before ++ new →
    DepthFirst.Scanned (Adjacent db opts) before nodeId new →
    ∃ more, t.visited = before ++ more ∧ DepthFirst.Scanned (Adjacent db opts) before nodeId more

variable (db opts) in
def DfsFinds (nodeId : NodeId) (s t : Dfs) : Prop :=
  ∃ new, t.visited = s.visited ++ nodeId :: new ∧
    Explored (Adjacent db opts) (s.visited ++ [nodeId]) nodeId new

variable (store opts startId) in
/-- A call returns and keeps what holds of the state. It explores all that its node leads to, unless a
depth or the limit cuts in. -/
def DfsExplores (recurse : Node → Nat → Dfs → Option Dfs) (fuel : Nat) : Prop :=
  ∀ node depth s, DfsKept store.db opts startId s → store.db.getNodeById node.id = some node →
    node.id ∈ startId :: s.nodes.map Node.id →
    Walk (Joined store.db opts s.edges) startId depth node.id →
    store.db.nodes.length < s.visited.length + fuel →
    ∃ t, recurse node depth s = some t ∧ DfsKept store.db opts startId t ∧ Grows s t ∧
      (opts.maxDepth = none → underLimit opts.limit t.nodes.length = true → node.id ∉ s.visited →
        DfsFinds store.db opts node.id s t)

section Rows

variable {recurse : Node → Nat → Dfs → Option Dfs} {neighborNodes : NodeId → Option Node}

private theorem dfsEdge_explores (explores : DfsExplores store opts startId recurse fuel)
    (kept : DfsKept store.db opts startId s) (here : nodeId ∈ s.visited)
    (walk : Walk (Joined store.db opts s.edges) startId depth nodeId)
    (deep : withinDepth opts.maxDepth (depth + 1))
    (enough : store.db.nodes.length < s.visited.length + fuel) {e : Edge}
    (adjacent : e ∈ getAdjacentEdges store nodeId opts.direction opts.edgeKinds)
    (looked : farEnd nodeId e ∉ s.visited →
      neighborNodes (farEnd nodeId e) = store.db.getNodeById (farEnd nodeId e)) :
    ∃ t, dfsEdge opts nodeId neighborNodes (fun n => recurse n (depth + 1)) s e = some t ∧
      DfsKept store.db opts startId t ∧ Grows s t ∧
      (opts.maxDepth = none → underLimit opts.limit t.nodes.length = true →
        (AdmittedNode store.db opts.nodeKinds (farEnd nodeId e) → farEnd nodeId e ∈ t.visited) ∧
          DfsScans store.db opts nodeId s t) := by
  have stays : (underLimit opts.limit s.nodes.length = true →
      AdmittedNode store.db opts.nodeKinds (farEnd nodeId e) → farEnd nodeId e ∈ s.visited) →
      DfsKept store.db opts startId s ∧ Grows s s ∧
      (opts.maxDepth = none → underLimit opts.limit s.nodes.length = true →
        (AdmittedNode store.db opts.nodeKinds (farEnd nodeId e) → farEnd nodeId e ∈ s.visited) ∧
          DfsScans store.db opts nodeId s s) := fun known =>
    ⟨kept, Grows.refl s, fun _ under =>
      ⟨known under, fun before new is scanned => ⟨new, is, scanned⟩⟩⟩
  obtain ⟨row, kind, leads⟩ := mem_getAdjacentEdges.mp adjacent
  unfold dfsEdge
  by_cases under : underLimit opts.limit s.nodes.length = true
  swap
  · exact ⟨s, by rw [if_pos (by simp [under])], stays fun h => absurd h under⟩
  rw [if_neg (by simp [under])]
  by_cases seen : farEnd nodeId e ∈ s.visited
  · exact ⟨s, if_pos seen, stays fun _ _ => seen⟩
  rw [if_neg seen, looked seen]
  cases found : store.db.getNodeById (farEnd nodeId e) with
  | none =>
    refine ⟨s, rfl, stays fun _ admitted => ?_⟩
    obtain ⟨node, is, -⟩ := admitted
    rw [found] at is
    cases is
  | some node =>
    have named := Database.getNodeById_id found
    by_cases passes : admitsKind opts.nodeKinds node.kind = true
    swap
    · refine ⟨s, by simp [passes], stays fun _ admitted => ?_⟩
      obtain ⟨other, is, admits⟩ := admitted
      rw [found] at is
      cases is
      exact absurd admits passes
    have admits : Admits store.db opts e nodeId node.id :=
      ⟨row, kind, named.symm ▸ leads, node, named.symm ▸ found, passes⟩
    obtain ⟨pushed, further, listed, longer⟩ := kept.push here walk deep under admits
      (named.symm ▸ found)
    obtain ⟨t, returned, keptT, grown, explored⟩ := explores node (depth + 1) _ pushed
      (named.symm ▸ found) (List.mem_cons_of_mem _ listed) further enough
    have first : Grows s { s with nodes := setNode s.nodes node, edges := s.edges ++ [e] } :=
      ⟨List.subset_append_left _ _, longer, List.Subset.refl _⟩
    refine ⟨t, by simpa [passes] using returned, keptT, first.trans grown, fun free below => ?_⟩
    rw [← named] at seen ⊢
    obtain ⟨new, visited, below_⟩ := explored free below seen
    refine ⟨fun _ => ?_, fun before more is scanned => ⟨more ++ node.id :: new, ?_, ?_⟩⟩
    · rw [visited]
      exact List.mem_append_right _ List.mem_cons_self
    · rw [visited]
      change s.visited ++ _ = _
      rw [is, List.append_assoc]
    · change Explored _ (s.visited ++ _) _ _ at below_
      rw [is] at seen below_
      exact scanned.deeper ⟨e, admits⟩ seen below_

variable (neighborNodes) in
private theorem dfsRows_explores (explores : DfsExplores store opts startId recurse fuel)
    (deep : withinDepth opts.maxDepth (depth + 1)) {rest : List Edge}
    (kept : DfsKept store.db opts startId s) (here : nodeId ∈ s.visited)
    (walk : Walk (Joined store.db opts s.edges) startId depth nodeId)
    (enough : store.db.nodes.length < s.visited.length + fuel)
    (adjacent : rest ⊆ getAdjacentEdges store nodeId opts.direction opts.edgeKinds)
    (looked : ∀ e ∈ rest, farEnd nodeId e ∉ s.visited →
      neighborNodes (farEnd nodeId e) = store.db.getNodeById (farEnd nodeId e)) :
    ∃ t, rest.foldlM (dfsEdge opts nodeId neighborNodes fun n => recurse n (depth + 1)) s = some t ∧
      DfsKept store.db opts startId t ∧ Grows s t ∧
      (opts.maxDepth = none → underLimit opts.limit t.nodes.length = true →
        (∀ e ∈ rest, AdmittedNode store.db opts.nodeKinds (farEnd nodeId e) →
          farEnd nodeId e ∈ t.visited) ∧ DfsScans store.db opts nodeId s t) := by
  induction rest generalizing s with
  | nil =>
    exact ⟨s, rfl, kept, Grows.refl s, fun _ _ => ⟨List.forall_mem_nil _,
      fun before new is scanned => ⟨new, is, scanned⟩⟩⟩
  | cons e rest ih =>
    have member : e ∈ e :: rest := List.mem_cons_self
    obtain ⟨m, step, keptM, first, scans⟩ := dfsEdge_explores explores kept here walk deep enough
      (adjacent member) (looked e member)
    have longer : s.visited.length ≤ m.visited.length :=
      (List.subperm_of_subset kept.entered first.visited).length_le
    obtain ⟨t, run, keptT, second, scanned⟩ := ih keptM (first.visited here)
      (joined_mono first.edges walk) (by omega) (fun f h => adjacent (List.mem_cons_of_mem e h))
      (fun f h unseen => looked f (List.mem_cons_of_mem e h) fun seen => unseen (first.visited seen))
    refine ⟨t, ?_, keptT, first.trans second, fun free under => ?_⟩
    · rw [List.foldlM_cons, step]
      exact run
    · obtain ⟨entered, whole⟩ := scanned free under
      obtain ⟨head, part⟩ := scans free (underLimit_mono second.nodes under)
      refine ⟨List.forall_mem_cons.mpr ⟨fun admitted => second.visited (head admitted), entered⟩,
        fun before new is before_ => ?_⟩
      obtain ⟨more, visited, between⟩ := part before new is before_
      exact whole before more visited between

end Rows

variable (opts) in
theorem dfsRecursive_explores {startNode : Node} (start : store.db.getNodeById startId = some startNode)
    (fuel : Nat) : DfsExplores store opts startId (dfsRecursive store opts fuel) fuel := by
  induction fuel with
  | zero =>
    intro node depth s kept _ _ _ enough
    have few := kept.node_listed start
    omega
  | succ fuel ih =>
    intro node depth s kept found listed walk enough
    have stays : (opts.maxDepth = none → underLimit opts.limit s.nodes.length = true →
        node.id ∉ s.visited → False) → DfsKept store.db opts startId s ∧ Grows s s ∧
        (opts.maxDepth = none → underLimit opts.limit s.nodes.length = true → node.id ∉ s.visited →
          DfsFinds store.db opts node.id s s) := fun cut =>
      ⟨kept, Grows.refl s, fun free under unseen => (cut free under unseen).elim⟩
    rw [dfsRecursive]
    by_cases seen : node.id ∈ s.visited
    · exact ⟨s, if_pos seen, stays fun _ _ unseen => unseen seen⟩
    rw [if_neg seen]
    by_cases under : underLimit opts.limit s.nodes.length = true
    swap
    · exact ⟨s, by rw [if_pos (by simp [under])], stays fun _ h _ => under h⟩
    rw [if_neg (by simp [under])]
    by_cases reached : reachedLimit opts.maxDepth depth = true
    · refine ⟨s, if_pos reached, stays fun free _ _ => ?_⟩
      rw [free] at reached
      cases reached
    rw [if_neg reached]
    have deep := reachedLimit_iff.mp (Bool.eq_false_iff.mpr reached)
    have marked : DfsKept store.db opts startId { s with visited := s.visited ++ [node.id] } :=
      { kept with
        visited := forall_snoc kept.visited listed
        entered := nodup_snoc kept.entered seen }
    obtain ⟨t, run, keptT, grown, scans⟩ := dfsRows_explores (store.db.getNodesByIds
      (((getAdjacentEdges store node.id opts.direction opts.edgeKinds).map (farEnd node.id)).filter
        fun id => id ∉ s.visited ++ [node.id])) ih deep marked
      (List.mem_append_right _ (List.mem_singleton.mpr rfl)) walk
      (by rw [List.length_append, List.length_singleton]; omega) (List.Subset.refl _)
      (fun e row unseen => Database.getNodesByIds_mem (List.mem_filter.mpr
        ⟨List.mem_map_of_mem row, decide_eq_true unseen⟩))
    refine ⟨t, run, keptT, ⟨grown.edges, grown.nodes,
      List.Subset.trans (List.subset_append_left _ _) grown.visited⟩, fun free below _ => ?_⟩
    obtain ⟨entered, whole⟩ := scans free below
    obtain ⟨new, visited, scanned⟩ := whole (s.visited ++ [node.id]) [] (List.append_nil _).symm
      (scanned_nil _ _ _)
    refine ⟨new, by rw [visited, List.append_assoc, List.singleton_append], scanned, fun c step => ?_⟩
    obtain ⟨e, row, kind, leads, admitted⟩ := step
    have far := leads.far
    have adjacent := mem_getAdjacentEdges.mpr ⟨row, kind, far ▸ leads⟩
    have there := entered e adjacent (far ▸ admitted)
    rwa [visited, ← far, List.mem_append] at there

theorem joined_adjacent {edges : List Edge} {a b : NodeId} {d : Nat}
    (walk : Walk (Joined db opts edges) a d b) : ReflTransGen (Adjacent db opts) a b :=
  ReflTransGen.mono (fun _ _ joined => joined.imp fun _ each => each.2) a b walk.reaches

theorem dfsKept_start {startNode : Node} (start : db.getNodeById startId = some startNode) :
    DfsKept db opts startId ⟨if opts.includeStart then [startNode] else [], [], []⟩ := by
  have named := Database.getNodeById_id start
  cases given : opts.includeStart with
  | false =>
    refine ⟨List.nodup_nil, List.forall_mem_nil _, fun _ _ => Nat.zero_le _, List.forall_mem_nil _,
      List.forall_mem_nil _, fun other => ?_, List.nil_subset _, List.nodup_nil⟩
    rw [given] at other
    cases other
  | true =>
    exact ⟨List.nodup_singleton _, List.forall_mem_singleton.mpr (named.symm ▸ start),
      fun bound _ => le_max_right bound 1, List.forall_mem_singleton.mpr ⟨0, named ▸ .start, .inl rfl⟩,
      List.forall_mem_nil _, fun _ => List.mem_singleton.mpr named.symm, List.nil_subset _,
      List.nodup_nil⟩

theorem DfsKept.reached (kept : DfsKept db opts startId s) {id : NodeId}
    (listed : id ∈ startId :: s.nodes.map Node.id) : ReflTransGen (Adjacent db opts) startId id := by
  rcases List.mem_cons.mp listed with rfl | member
  · exact .refl
  · obtain ⟨n, is, rfl⟩ := List.mem_map.mp member
    obtain ⟨d, walk, -⟩ := kept.reach n is
    exact joined_adjacent walk

theorem traverseDFS_ends (opts : TraversalOptions) {startNode : Node}
    (start : store.db.getNodeById startId = some startNode) :
    ∃ s, traverseDFS store startId opts = some ⟨s.nodes, s.edges, [startId], false⟩ ∧
      DfsKept store.db opts startId s ∧
      (opts.maxDepth = none → underLimit opts.limit s.nodes.length = true → ∀ id,
        ReflTransGen (Adjacent store.db opts) startId id → id ∈ startId :: s.nodes.map Node.id) := by
  have named := Database.getNodeById_id start
  obtain ⟨s, returned, kept, -, explored⟩ := dfsRecursive_explores opts start
    (store.db.nodes.length + 1) startNode 0 _ (dfsKept_start start) (named.symm ▸ start)
    (named ▸ List.mem_cons_self) (named ▸ .start) (Nat.lt_add_left _ (Nat.lt_succ_self _))
  refine ⟨s, by simp only [traverseDFS, start, returned, Option.map_some], kept,
    fun free under id reached => ?_⟩
  obtain ⟨new, visited, all⟩ := explored free under List.not_mem_nil
  by_cases same : id = startId
  · exact same ▸ List.mem_cons_self
  · refine kept.visited ?_
    rw [visited]
    refine List.mem_cons_of_mem _ (all.exact.mpr ?_)
    rw [named]
    obtain ⟨c, step, rest⟩ := (ReflTransGen.cases_head_iff.mp reached).resolve_left
      fun is => same is.symm
    exact fresh_start.mpr ⟨TransGen.head' step rest, same⟩

theorem traverse_dfs_searches (store : Store) (opts : TraversalOptions) {startId : NodeId}
    {startNode : Node} (start : store.db.getNodeById startId = some startNode) :
    ∃ result, traverseDFS store startId opts = some result ∧
      DepthSearch store.db opts startId result := by
  obtain ⟨s, returned, kept, all⟩ := traverseDFS_ends opts start
  exact ⟨_, returned, kept.few, ⟨kept.distinct, kept.stored⟩, kept.reach, kept.edges, kept.included,
    fun free under id => ⟨kept.reached, all free under id⟩⟩

theorem traverse_dfs_searches_barPaths :
    ∃ result, traverseDFS barPaths.store "file:s" = some result ∧
      DepthSearch barPaths {} "file:s" result :=
  traverse_dfs_searches barPaths.store {}
    (by decide +kernel : barPaths.getNodeById "file:s" = some ⟨"file:s", .file, .typescript⟩)

/-! ### Both traversals -/

theorem inReach_iff (free : opts.maxDepth = none) {id : NodeId} :
    InReach db opts startId id ↔ ReflTransGen (Adjacent db opts) startId id := by
  constructor
  · rintro (rfl | ⟨d, far, -⟩)
    · exact .refl
    · exact far.1.reaches
  · intro reached
    obtain ⟨n, walk⟩ := exists_walk reached
    obtain ⟨d, -, far⟩ := walk.distance
    refine .inr ⟨d, far, fun limit is => ?_⟩
    rw [free] at is
    cases is

/-! ### Containers -/

/-- `parentNode` in a round of the loop, which ends where there is none. -/
def container (store : Store) (currentId : NodeId) : Option Node :=
  (store.getIncomingEdges currentId [.contains]).head?.bind fun firstEdge =>
    store.db.getNodeById firstEdge.source

def getAncestorsLoop (store : Store) : Nat → List NodeId → NodeId → List Node → Option (List Node)
  | 0, _, _, _ => none
  | fuel + 1, visited, currentId, ancestors =>
    if currentId ∈ visited then some ancestors
    else
      match container store currentId with
      | none => some ancestors
      | some parentNode =>
        getAncestorsLoop store fuel (visited ++ [currentId]) parentNode.id (ancestors ++ [parentNode])

def getAncestors (store : Store) (nodeId : NodeId) : Option (List Node) :=
  getAncestorsLoop store (store.db.nodes.length + 2) [] nodeId []

def ContainedIn (store : Store) (a b : NodeId) : Prop := (container store a).map Node.id = some b

/-- The containers, from the nearest to the outermost. Only the last may be a repetition, where the
nodes contain each other. -/
structure Containers (store : Store) (nodeId : NodeId) (ancestors : List Node) : Prop where
  stored : ∀ n ∈ ancestors, store.db.getNodeById n.id = some n
  chain : (nodeId :: ancestors.map Node.id).IsChain (ContainedIn store)
  once : (nodeId :: ancestors.map Node.id).dropLast.Nodup
  exact : ∀ id, id ∈ ancestors.map Node.id ↔ TransGen (ContainedIn store) nodeId id

variable (store nodeId) in
structure Climbs (visited : List NodeId) (currentId : NodeId) (ancestors : List Node) : Prop where
  path : nodeId :: ancestors.map Node.id = visited ++ [currentId]
  stored : ∀ n ∈ ancestors, store.db.getNodeById n.id = some n
  chain : (nodeId :: ancestors.map Node.id).IsChain (ContainedIn store)
  distinct : visited.Nodup
  closed : ∀ a ∈ visited, ∀ b, ContainedIn store a b → b ∈ ancestors.map Node.id
  reached : ∀ b ∈ ancestors.map Node.id, TransGen (ContainedIn store) nodeId b

variable {visited : List NodeId} {currentId : NodeId} {ancestors : List Node}

theorem Climbs.few (climbs : Climbs store nodeId visited currentId ancestors) :
    visited.length ≤ store.db.nodes.length + 1 := by
  have inside : visited ⊆ nodeId :: store.db.nodes.map Node.id := by
    intro id member
    have listed : id ∈ nodeId :: ancestors.map Node.id := climbs.path ▸ List.mem_append_left _ member
    refine (List.mem_cons.mp listed).elim (fun is => is ▸ List.mem_cons_self) fun h => ?_
    obtain ⟨n, is, rfl⟩ := List.mem_map.mp h
    exact List.mem_cons_of_mem _
      (List.mem_map_of_mem (Database.getNodeById_mem (climbs.stored n is)))
  have few := (List.subperm_of_subset climbs.distinct inside).length_le
  rwa [List.length_cons, List.length_map] at few

theorem Climbs.ends (climbs : Climbs store nodeId visited currentId ancestors)
    (last : currentId ∈ visited ∨ container store currentId = none) :
    Containers store nodeId ancestors := by
  have all : ∀ a ∈ nodeId :: ancestors.map Node.id, ∀ b, ContainedIn store a b →
      b ∈ ancestors.map Node.id := by
    rw [climbs.path]
    refine forall_snoc climbs.closed fun b step => ?_
    rcases last with seen | top
    · exact climbs.closed _ seen b step
    · rw [ContainedIn, top] at step
      cases step
  refine ⟨climbs.stored, climbs.chain, ?_, fun id => ⟨climbs.reached id, fun reached => ?_⟩⟩
  · rw [climbs.path, List.dropLast_concat]
    exact climbs.distinct
  · induction reached with
    | single step => exact all _ List.mem_cons_self _ step
    | tail _ step ih => exact all _ (List.mem_cons_of_mem _ ih) _ step

theorem Climbs.further (climbs : Climbs store nodeId visited currentId ancestors)
    (fresh : currentId ∉ visited) {parentNode : Node}
    (found : container store currentId = some parentNode) :
    Climbs store nodeId (visited ++ [currentId]) parentNode.id (ancestors ++ [parentNode]) := by
  have step : ContainedIn store currentId parentNode.id := by rw [ContainedIn, found]; rfl
  obtain ⟨firstEdge, -, is⟩ := Option.bind_eq_some_iff.mp found
  have here : currentId ∈ nodeId :: ancestors.map Node.id :=
    climbs.path ▸ mem_snoc.mpr (.inr rfl)
  have ids : (ancestors ++ [parentNode]).map Node.id = ancestors.map Node.id ++ [parentNode.id] :=
    List.map_append
  refine ⟨?_, forall_snoc climbs.stored ((Database.getNodeById_id is).symm ▸ is), ?_,
    nodup_snoc climbs.distinct fresh, ?_, ?_⟩ <;> rw [ids]
  · rw [← List.cons_append, climbs.path]
  · rw [← List.cons_append]
    refine climbs.chain.append (List.isChain_singleton _) fun x last y same => ?_
    rw [climbs.path, List.getLast?_concat] at last
    cases last
    cases same
    exact step
  · refine forall_snoc (fun a early b next => List.mem_append_left _ (climbs.closed a early b next))
      fun b next => mem_snoc.mpr (.inr (Option.some.inj (next.symm.trans step)))
  · refine forall_snoc climbs.reached ?_
    rcases List.mem_cons.mp here with rfl | listed
    · exact .single step
    · exact (climbs.reached _ listed).tail step

theorem getAncestorsLoop_ends (climbs : Climbs store nodeId visited currentId ancestors)
    (enough : store.db.nodes.length + 1 < visited.length + fuel) :
    ∃ result, getAncestorsLoop store fuel visited currentId ancestors = some result ∧
      Containers store nodeId result := by
  induction fuel generalizing visited currentId ancestors with
  | zero =>
    have few := climbs.few
    omega
  | succ fuel ih =>
    rw [getAncestorsLoop]
    by_cases seen : currentId ∈ visited
    · exact ⟨ancestors, if_pos seen, climbs.ends (.inl seen)⟩
    rw [if_neg seen]
    cases found : container store currentId with
    | none => exact ⟨ancestors, rfl, climbs.ends (.inr found)⟩
    | some parentNode =>
      refine ih (climbs.further seen found) ?_
      rw [List.length_append, List.length_singleton]
      omega

theorem get_ancestors_containers (store : Store) (nodeId : NodeId) :
    ∃ result, getAncestors store nodeId = some result ∧ Containers store nodeId result :=
  getAncestorsLoop_ends ⟨rfl, List.forall_mem_nil _, List.isChain_singleton _, List.nodup_nil,
    List.forall_mem_nil _, List.forall_mem_nil _⟩ (by rw [List.length_nil]; omega)

end CodeGraph.Graph
