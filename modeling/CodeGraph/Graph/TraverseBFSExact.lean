import CodeGraph.Graph.TraverseBFS

/-! What the breadth-first traversal returns. -/
namespace CodeGraph.Graph

open Distance BreadthFirst

variable {store : Store} {db : Database} {opts : TraversalOptions} {startId : NodeId}

theorem Leads.far {direction : Direction} {e : Edge} {a b : NodeId} (leads : Leads direction e a b) :
    b = farEnd a e := by
  unfold farEnd
  cases direction with
  | outgoing =>
    obtain ⟨rfl, rfl⟩ := leads
    rw [if_pos rfl]
  | incoming =>
    obtain ⟨rfl, rfl⟩ := leads
    split
    · next same => exact same
    · rfl
  | both =>
    rcases leads with ⟨rfl, rfl⟩ | ⟨rfl, rfl⟩
    · rw [if_pos rfl]
    · split
      · next same => exact same
      · rfl

theorem Leads.ends {direction : Direction} {e : Edge} {a b : NodeId} (leads : Leads direction e a b) :
    e.source = a ∧ e.target = b ∨ e.source = b ∧ e.target = a := by
  cases direction with
  | outgoing => exact .inl leads
  | incoming => exact .inr leads.symm
  | both => exact leads.imp_right And.symm

theorem mem_getAdjacentEdges {nodeId : NodeId} {e : Edge} :
    e ∈ getAdjacentEdges store nodeId opts.direction opts.edgeKinds ↔ e ∈ store.db.edges ∧
      (opts.edgeKinds = [] ∨ e.kind ∈ opts.edgeKinds) ∧
      Leads opts.direction e nodeId (farEnd nodeId e) := by
  unfold getAdjacentEdges farEnd
  cases opts.direction with
  | outgoing =>
    simp only [Store.mem_getOutgoingEdges, Leads]
    constructor
    · rintro ⟨edge, rfl, kind⟩
      exact ⟨edge, kind, rfl, by rw [if_pos rfl]⟩
    · rintro ⟨edge, kind, rfl, -⟩
      exact ⟨edge, rfl, kind⟩
  | incoming =>
    simp only [Store.mem_getIncomingEdges, Leads]
    constructor
    · rintro ⟨edge, rfl, kind⟩
      refine ⟨edge, kind, rfl, ?_⟩
      split
      · next same => exact same
      · rfl
    · rintro ⟨edge, kind, rfl, -⟩
      exact ⟨edge, rfl, kind⟩
  | both =>
    simp only [List.mem_append, Store.mem_getOutgoingEdges, Store.mem_getIncomingEdges, Leads]
    constructor
    · rintro (⟨edge, rfl, kind⟩ | ⟨edge, rfl, kind⟩)
      · exact ⟨edge, kind, .inl ⟨rfl, by rw [if_pos rfl]⟩⟩
      · refine ⟨edge, kind, ?_⟩
        split
        · next same => exact .inl ⟨same, rfl⟩
        · exact .inr ⟨rfl, rfl⟩
    · rintro ⟨edge, kind, ⟨rfl, -⟩ | ⟨rfl, -⟩⟩
      · exact .inl ⟨edge, rfl, kind⟩
      · exact .inr ⟨edge, rfl, kind⟩

theorem getNode_eq {nodes : List Node} (stored : ∀ n ∈ nodes, db.getNodeById n.id = some n)
    {id : NodeId} (listed : id ∈ nodes.map Node.id) : getNode nodes id = db.getNodeById id := by
  obtain ⟨n, member, rfl⟩ := List.mem_map.mp listed
  cases found : getNode nodes n.id with
  | none =>
    have absent := List.find?_eq_none.mp found n member
    simp at absent
  | some m =>
    have same : m.id = n.id := by simpa using List.find?_some found
    rw [← same]
    exact (stored m (List.mem_of_find?_eq_some found)).symm

theorem setNode_new {nodes : List Node} {node : Node} (fresh : node.id ∉ nodes.map Node.id) :
    setNode nodes node = nodes ++ [node] := if_neg fresh

theorem setNode_stored {nodes : List Node} {node : Node}
    (stored : ∀ n ∈ nodes, db.getNodeById n.id = some n)
    (found : db.getNodeById node.id = some node) (listed : node.id ∈ nodes.map Node.id) :
    setNode nodes node = nodes := by
  rw [setNode, if_pos listed]
  refine (List.map_congr_left fun n member => ?_).trans (List.map_id nodes)
  split
  · next same =>
    have is := stored n member
    rw [same, found] at is
    exact Option.some.inj is
  · rfl

/-! ### What holds of every state -/

variable (db opts startId) in
structure Kept (s : Bfs) : Prop where
  ids : s.nodes.map Node.id = s.visited ++ s.queue.map (·.1.id)
  enqueued : s.enqueued = s.nodes.map Node.id
  nodup : (s.nodes.map Node.id).Nodup
  nodes : ∀ n ∈ s.nodes, db.getNodeById n.id = some n
  reach : ∀ n ∈ s.nodes, InReach db opts startId n.id
  walks : ∀ step ∈ s.queue, Walk (Adjacent db opts) startId step.2 step.1.id
  sites : s.seenEdges = s.edges.map edgeSite
  once : s.seenEdges.Nodup
  ends : ∀ e ∈ s.edges, e ∈ db.edges ∧ e.source ∈ s.enqueued ∧ e.target ∈ s.enqueued
  limit : withinLimit opts.limit s.nodes.length

variable (db opts) in
/-- What the loop over the adjacent edges of a node has added, some of them being past. -/
structure Expanded (nodeId : NodeId) (depth : Nat) (rows past : List Edge) (s t : Bfs)
    (new : List Node) : Prop where
  nodes : t.nodes = s.nodes ++ new
  enqueued : t.enqueued = s.enqueued ++ new.map Node.id
  visited : t.visited = s.visited
  queue : t.queue = s.queue ++ new.map fun n => (n, depth + 1)
  distinct : t.enqueued.Nodup
  from_rows : ∀ n ∈ new, db.getNodeById n.id = some n ∧ admitsKind opts.nodeKinds n.kind = true ∧
    ∃ e ∈ rows, farEnd nodeId e = n.id
  sites : t.seenEdges = t.edges.map edgeSite
  once : t.seenEdges.Nodup
  kept : s.edges ⊆ t.edges
  edges : ∀ e ∈ t.edges, e ∈ s.edges ∨ e ∈ rows ∧ farEnd nodeId e ∈ t.enqueued ∧
    AdmittedNode db opts.nodeKinds (farEnd nodeId e)
  limit : withinLimit opts.limit t.nodes.length
  all : underLimit opts.limit t.nodes.length = true → ∀ e ∈ past,
    AdmittedNode db opts.nodeKinds (farEnd nodeId e) →
      farEnd nodeId e ∈ t.enqueued ∧ edgeSite e ∈ t.seenEdges

theorem underLimit_iff {limit : Option Nat} {size : Nat} :
    underLimit limit size = true ↔ withinLimit limit (size + 1) := by
  cases limit with
  | none => exact ⟨fun _ _ none_ => (nomatch none_), fun _ => rfl⟩
  | some bound =>
    rw [underLimit, withinLimit, Option.all_some, decide_eq_true_eq]
    refine ⟨fun less other same => ?_, fun within => within bound rfl⟩
    rw [← Option.mem_some_iff.mp same]
    exact less

theorem underLimit_mono {limit : Option Nat} {m n : Nat} (le : m ≤ n)
    (under : underLimit limit n = true) : underLimit limit m = true := by
  rw [underLimit_iff] at under ⊢
  intro bound member
  have few := under bound member
  omega

section Rows

variable {nodeId : NodeId} {depth : Nat} {rows past : List Edge} {s t : Bfs} {new : List Node}
  {e : Edge}

private theorem expanded_skip (expanded : Expanded db opts nodeId depth rows past s t new)
    (away : underLimit opts.limit t.nodes.length = true →
      ¬AdmittedNode db opts.nodeKinds (farEnd nodeId e)) :
    Expanded db opts nodeId depth rows (past ++ [e]) s t new :=
  { expanded with
    all := fun under f row admitted => by
      rcases mem_snoc.mp row with earlier | last
      · exact expanded.all under f earlier admitted
      · rw [last] at admitted
        exact absurd admitted (away under) }

private theorem expanded_record (expanded : Expanded db opts nodeId depth rows past s t new)
    (row : e ∈ rows) (known : farEnd nodeId e ∈ t.enqueued)
    (admitted : AdmittedNode db opts.nodeKinds (farEnd nodeId e)) :
    Expanded db opts nodeId depth rows (past ++ [e]) s (recordEdge t e) new := by
  unfold recordEdge
  split
  · next seen =>
    refine { expanded with all := fun under f past admitted => ?_ }
    rcases mem_snoc.mp past with earlier | last
    · exact expanded.all under f earlier admitted
    · rw [last]
      exact ⟨known, seen⟩
  · next unseen =>
    refine ⟨expanded.nodes, expanded.enqueued, expanded.visited, expanded.queue, expanded.distinct,
      expanded.from_rows, ?_, ?_, ?_, ?_, expanded.limit, ?_⟩
    · simp only [expanded.sites, List.map_append, List.map_cons, List.map_nil]
    · exact nodup_snoc expanded.once unseen
    · exact fun f member => List.mem_append_left [e] (expanded.kept member)
    · exact forall_snoc expanded.edges (.inr ⟨row, known, admitted⟩)
    · intro under f past admitted
      rcases mem_snoc.mp past with earlier | last
      · obtain ⟨found, seen⟩ := expanded.all under f earlier admitted
        exact ⟨found, List.mem_append_left _ seen⟩
      · rw [last]
        exact ⟨known, List.mem_append_right _ (List.mem_singleton.mpr rfl)⟩

private theorem expanded_enqueue (expanded : Expanded db opts nodeId depth rows past s t new)
    (same : t.enqueued = t.nodes.map Node.id) (row : e ∈ rows) {node : Node}
    (found : db.getNodeById (farEnd nodeId e) = some node)
    (kind : admitsKind opts.nodeKinds node.kind = true) (fresh : farEnd nodeId e ∉ t.enqueued)
    (under : underLimit opts.limit t.nodes.length = true) :
    Expanded db opts nodeId depth rows past s
      { t with
        enqueued := t.enqueued ++ [farEnd nodeId e]
        nodes := setNode t.nodes node
        queue := t.queue ++ [(node, depth + 1)] } (new ++ [node]) := by
  have named := Database.getNodeById_id found
  have added : setNode t.nodes node = t.nodes ++ [node] := by
    refine setNode_new ?_
    rw [named, ← same]
    exact fresh
  constructor
  · rw [added, expanded.nodes, List.append_assoc]
  · simp only [expanded.enqueued, List.map_append, List.map_cons, List.map_nil, named,
      List.append_assoc]
  · exact expanded.visited
  · simp only [expanded.queue, List.map_append, List.map_cons, List.map_nil, List.append_assoc]
  · exact nodup_snoc expanded.distinct fresh
  · exact forall_snoc expanded.from_rows (⟨named ▸ found, kind, e, row, named.symm⟩)
  · exact expanded.sites
  · exact expanded.once
  · exact expanded.kept
  · intro f member
    exact (expanded.edges f member).imp_right fun ⟨row, listed, admitted⟩ =>
      ⟨row, List.mem_append_left _ listed, admitted⟩
  · rw [added, List.length_append, List.length_singleton]
    exact underLimit_iff.mp under
  · intro _ f past admitted
    obtain ⟨listed, seen⟩ := expanded.all under f past admitted
    exact ⟨List.mem_append_left _ listed, seen⟩

private theorem bfsEdge_expanded {neighborNodes : NodeId → Option Node}
    (expanded : Expanded db opts nodeId depth rows past s t new)
    (same : t.enqueued = t.nodes.map Node.id)
    (looked : (neighborNodes (farEnd nodeId e)).or (getNode t.nodes (farEnd nodeId e)) =
      db.getNodeById (farEnd nodeId e))
    (visited : t.visited ⊆ t.enqueued) (row : e ∈ rows) :
    ∃ new', Expanded db opts nodeId depth rows (past ++ [e]) s
      (bfsEdge opts nodeId depth neighborNodes t e) new' := by
  simp only [bfsEdge, looked]
  cases found : db.getNodeById (farEnd nodeId e) with
  | none =>
    refine ⟨new, expanded_skip expanded fun _ ⟨node, exists_, _⟩ => ?_⟩
    rw [found] at exists_
    cases exists_
  | some node =>
    simp only
    split
    · next refused =>
      refine ⟨new, expanded_skip expanded fun _ ⟨other, exists_, kind⟩ => ?_⟩
      cases found.symm.trans exists_
      rw [kind] at refused
      cases refused
    next admits =>
    have kind : admitsKind opts.nodeKinds node.kind = true := by simpa using admits
    split
    · next fresh =>
      split
      · next full =>
        refine ⟨new, expanded_skip expanded fun under => ?_⟩
        rw [under] at full
        cases full
      · next room =>
        have under : underLimit opts.limit t.nodes.length = true := by simpa using room
        have more := expanded_enqueue expanded same row found kind fresh.2 under
        exact ⟨_, expanded_record more row
          (List.mem_append_right _ (List.mem_singleton.mpr rfl)) ⟨node, found, kind⟩⟩
    · next old =>
      have known : farEnd nodeId e ∈ t.enqueued := by
        by_contra absent
        exact old ⟨fun seen => absent (visited seen), absent⟩
      exact ⟨new, expanded_record expanded row known ⟨node, found, kind⟩⟩

private theorem bfsRows_expanded {neighborNodes : NodeId → Option Node}
    (kept : Kept db opts startId s)
    (looked : ∀ e ∈ rows, farEnd nodeId e ∉ s.enqueued →
      neighborNodes (farEnd nodeId e) = db.getNodeById (farEnd nodeId e))
    (known : ∀ id, neighborNodes id = none ∨ neighborNodes id = db.getNodeById id)
    {rest : List Edge} (whole : past ++ rest ⊆ rows)
    (expanded : Expanded db opts nodeId depth rows past s t new) :
    ∃ new', Expanded db opts nodeId depth rows (past ++ rest) s
      (rest.foldl (bfsEdge opts nodeId depth neighborNodes) t) new' := by
  induction rest generalizing past t new with
  | nil => exact ⟨new, by simpa using expanded⟩
  | cons e rest ih =>
    have row : e ∈ rows := whole (List.mem_append_right past List.mem_cons_self)
    have same : t.enqueued = t.nodes.map Node.id := by
      rw [expanded.enqueued, expanded.nodes, kept.enqueued, List.map_append]
    have stored : ∀ n ∈ t.nodes, db.getNodeById n.id = some n := by
      intro n member
      rw [expanded.nodes] at member
      rcases List.mem_append.mp member with old | added
      · exact kept.nodes n old
      · exact (expanded.from_rows n added).1
    have lookup : (neighborNodes (farEnd nodeId e)).or (getNode t.nodes (farEnd nodeId e)) =
        db.getNodeById (farEnd nodeId e) := by
      by_cases listed : farEnd nodeId e ∈ t.nodes.map Node.id
      · rw [getNode_eq stored listed]
        rcases known (farEnd nodeId e) with none_ | same
        · rw [none_, Option.none_or]
        · rw [same, Option.or_self]
      · have before : farEnd nodeId e ∉ s.enqueued := fun h => listed
          (same ▸ expanded.enqueued ▸ List.mem_append_left _ h)
        have absent : getNode t.nodes (farEnd nodeId e) = none := by
          refine List.find?_eq_none.mpr fun n member => ?_
          have other : n.id ≠ farEnd nodeId e := fun h => listed (List.mem_map.mpr ⟨n, member, h⟩)
          simpa using other
        rw [looked e row before, absent, Option.or_none]
    have visited : t.visited ⊆ t.enqueued := by
      rw [expanded.visited, same, expanded.nodes, List.map_append, kept.ids]
      exact fun id seen => List.mem_append_left _ (List.mem_append_left _ seen)
    obtain ⟨middle, step⟩ := bfsEdge_expanded expanded same lookup visited row
    have whole' : past ++ [e] ++ rest ⊆ rows := by simpa using whole
    obtain ⟨new', done⟩ := ih whole' step
    exact ⟨new', by simpa using done⟩

theorem bfsNode_expanded (kept : Kept store.db opts startId s) (nodeId : NodeId) (depth : Nat) :
    ∃ rows new, (∀ e, e ∈ rows ↔ e ∈ getAdjacentEdges store nodeId opts.direction opts.edgeKinds) ∧
      Expanded store.db opts nodeId depth rows rows s (bfsNode store opts nodeId depth s) new := by
  have sorted : ∃ rows, rows = (getAdjacentEdges store nodeId opts.direction
      opts.edgeKinds).insertionSort fun a b => edgePriority a ≤ edgePriority b := ⟨_, rfl⟩
  obtain ⟨rows, listed⟩ := sorted
  have wanted : ∃ wantIds, wantIds = (rows.map (farEnd nodeId)).filter
      fun id => id ∉ s.visited ∧ id ∉ s.enqueued := ⟨_, rfl⟩
  obtain ⟨wantIds, want⟩ := wanted
  have looked : ∀ e ∈ rows, farEnd nodeId e ∉ s.enqueued →
      store.db.getNodesByIds wantIds (farEnd nodeId e) = store.db.getNodeById (farEnd nodeId e) := by
    intro e row fresh
    refine Database.getNodesByIds_mem ?_
    have unseen : farEnd nodeId e ∉ s.visited := by
      intro seen
      refine fresh ?_
      rw [kept.enqueued, kept.ids]
      exact List.mem_append_left _ seen
    rw [want, List.mem_filter]
    exact ⟨List.mem_map_of_mem row, decide_eq_true ⟨unseen, fresh⟩⟩
  have known : ∀ id, store.db.getNodesByIds wantIds id = none ∨
      store.db.getNodesByIds wantIds id = store.db.getNodeById id := by
    intro id
    unfold Database.getNodesByIds
    split
    · exact .inr rfl
    · exact .inl rfl
  have nothing : Expanded store.db opts nodeId depth rows [] s s [] :=
    ⟨by simp, by simp, rfl, by simp, kept.enqueued ▸ kept.nodup, by simp, kept.sites, kept.once,
      List.Subset.refl _, fun e member => .inl member, kept.limit, by simp⟩
  obtain ⟨new, done⟩ := bfsRows_expanded kept looked known (List.Subset.refl ([] ++ rows)) nothing
  refine ⟨rows, new, fun e => ?_, ?_⟩
  · rw [listed]
    exact List.mem_insertionSort _
  · rw [List.nil_append, want, listed] at done
    rw [listed]
    exact done

end Rows

theorem inReach_step {nodeId : NodeId} {d : Nat} {e : Edge} {b : NodeId}
    (walk : Walk (Adjacent db opts) startId d nodeId) (admits : Admits db opts e nodeId b)
    (within : withinDepth opts.maxDepth (d + 1)) : InReach db opts startId b := by
  obtain ⟨n, near_, distance⟩ := (walk.step ⟨e, admits⟩).distance
  refine .inr ⟨n, distance, fun limit bound => ?_⟩
  have below := within limit bound
  omega

def takeHead (s : Bfs) (nodeId : NodeId) (queue : List (Node × Nat)) : Bfs :=
  { s with queue, visited := s.visited ++ [nodeId] }

theorem kept_takeHead {s : Bfs} {node : Node} {depth : Nat} {queue : List (Node × Nat)}
    (kept : Kept db opts startId s) (head : s.queue = (node, depth) :: queue) :
    Kept db opts startId (takeHead s node.id queue) :=
  { kept with
    ids := by
      rw [takeHead, kept.ids, head]
      simp
    walks := fun step queued => kept.walks step (head ▸ List.mem_cons_of_mem _ queued) }

theorem kept_expanded {s t : Bfs} {nodeId : NodeId} {depth : Nat} {rows : List Edge} {new : List Node}
    (kept : Kept store.db opts startId s)
    (expanded : Expanded store.db opts nodeId depth rows rows s t new)
    (adjacent : ∀ e, e ∈ rows ↔ e ∈ getAdjacentEdges store nodeId opts.direction opts.edgeKinds)
    (walk : Walk (Adjacent store.db opts) startId depth nodeId)
    (within : withinDepth opts.maxDepth (depth + 1)) (here : nodeId ∈ s.enqueued) :
    Kept store.db opts startId t := by
  have admits : ∀ n ∈ new, ∃ e, Admits store.db opts e nodeId n.id := by
    intro n member
    obtain ⟨stored, kind, e, row, far⟩ := expanded.from_rows n member
    obtain ⟨edge, kinds, leads⟩ := mem_getAdjacentEdges.mp ((adjacent e).mp row)
    exact ⟨e, edge, kinds, far ▸ leads, n, stored, kind⟩
  have same : t.enqueued = t.nodes.map Node.id := by
    rw [expanded.enqueued, expanded.nodes, kept.enqueued, List.map_append]
  constructor
  · rw [expanded.nodes, List.map_append, kept.ids, expanded.visited, expanded.queue, List.map_append,
      List.map_map, List.append_assoc]
    rfl
  · exact same
  · exact same ▸ expanded.distinct
  · intro n member
    rw [expanded.nodes] at member
    rcases List.mem_append.mp member with old | added
    · exact kept.nodes n old
    · exact (expanded.from_rows n added).1
  · intro n member
    rw [expanded.nodes] at member
    rcases List.mem_append.mp member with old | added
    · exact kept.reach n old
    · obtain ⟨e, admits⟩ := admits n added
      exact inReach_step walk admits within
  · intro step queued
    rw [expanded.queue] at queued
    rcases List.mem_append.mp queued with old | added
    · exact kept.walks step old
    · obtain ⟨n, member, rfl⟩ := List.mem_map.mp added
      obtain ⟨e, admits⟩ := admits n member
      exact walk.step ⟨e, admits⟩
  · exact expanded.sites
  · exact expanded.once
  · intro e member
    rcases expanded.edges e member with old | ⟨row, far, -⟩
    · obtain ⟨edge, source, target⟩ := kept.ends e old
      rw [expanded.enqueued]
      exact ⟨edge, List.mem_append_left _ source, List.mem_append_left _ target⟩
    · obtain ⟨edge, -, leads⟩ := mem_getAdjacentEdges.mp ((adjacent e).mp row)
      have here' : nodeId ∈ t.enqueued := expanded.enqueued ▸ List.mem_append_left _ here
      rcases leads.ends with ⟨source, target⟩ | ⟨source, target⟩
      · exact ⟨edge, source ▸ here', target ▸ far⟩
      · exact ⟨edge, source ▸ far, target ▸ here'⟩
  · exact expanded.limit

variable (db opts startId) in
/-- The levels of the search, the edges it has seen, and that the start looks at its own first. -/
structure Leveled (depth : NodeId → Nat) (s : Bfs) : Prop where
  frontier : Frontier (Adjacent db opts) (fun d => withinDepth opts.maxDepth (d + 1)) startId depth
    s.visited (s.queue.map (·.1.id))
  depths : ∀ step ∈ s.queue, depth step.1.id = step.2
  scanned : ∀ e a b, a ∈ s.visited → Scanned db opts startId e a b → edgeSite e ∈ s.seenEdges
  looked : ∀ e ∈ s.edges, ∃ a b, Scanned db opts startId e a b
  first : ∀ e b, s.visited ≠ [] → Scanned db opts startId e startId b →
    ∃ f ∈ s.edges, edgeSite f = edgeSite e ∧ ∃ c, Scanned db opts startId f startId c
  unseen : s.visited = [] → s.edges = []

section Levels

variable {s t : Bfs} {node : Node} {d : Nat} {queue : List (Node × Nat)} {depth : NodeId → Nat}

theorem leveled_frontier (leveled : Leveled db opts startId depth s)
    (head : s.queue = (node, d) :: queue) :
    Frontier (Adjacent db opts) (fun d => withinDepth opts.maxDepth (d + 1)) startId depth s.visited
      (node.id :: queue.map (·.1.id)) := by
  have frontier := leveled.frontier
  rw [head] at frontier
  exact frontier

theorem head_depth (leveled : Leveled db opts startId depth s) (head : s.queue = (node, d) :: queue) :
    depth node.id = d := by
  have listed : (node, d) ∈ s.queue := by
    rw [head]
    exact List.mem_cons_self
  exact leveled.depths (node, d) listed

theorem head_distance (leveled : Leveled db opts startId depth s)
    (head : s.queue = (node, d) :: queue) : IsDistance (Adjacent db opts) startId node.id d := by
  have distance := (leveled_frontier leveled head).distance (y := node.id)
    (List.mem_append_right _ List.mem_cons_self)
  rwa [head_depth leveled head] at distance

theorem head_start (leveled : Leveled db opts startId depth s)
    (head : s.queue = (node, d) :: queue) (none_ : s.visited = []) : node.id = startId := by
  have frontier := leveled_frontier leveled head
  rw [none_] at frontier
  rcases List.mem_cons.mp frontier.found with same | later
  · exact same.symm
  · have least := List.rel_of_pairwise_cons frontier.sorted later
    rw [frontier.zero, head_depth leveled head] at least
    have walk := (head_distance leveled head).1
    obtain rfl : d = 0 := by omega
    cases walk
    rfl

/-- A node at the depth limit is not searched. -/
theorem leveled_limit (leveled : Leveled db opts startId depth s)
    (head : s.queue = (node, d) :: queue) (beyond : ¬withinDepth opts.maxDepth (d + 1)) :
    Leveled db opts startId depth (takeHead s node.id queue) := by
  have same := head_depth leveled head
  have distance := head_distance leveled head
  have none_ : ∀ e b, ¬Scanned db opts startId e node.id b := by
    rintro e b ⟨-, m, other, within⟩
    exact beyond (other.unique distance ▸ within)
  have searched := (leveled_frontier leveled head).search (List.nodup_nil : ([] : List NodeId).Nodup)
    (fun _ h => nomatch h) (fun _ h => nomatch h) fun within => absurd (same ▸ within) beyond
  have still : deepen depth node.id [] = depth := funext fun y => deepen_old List.not_mem_nil
  rw [still, List.append_nil] at searched
  refine ⟨searched, ?_, ?_, leveled.looked, ?_, fun visited => ?_⟩
  · exact fun step queued => leveled.depths step (head ▸ List.mem_cons_of_mem _ queued)
  · intro e a b seen scanned
    rcases mem_snoc.mp seen with earlier | last
    · exact leveled.scanned e a b earlier scanned
    · rw [last] at scanned
      exact absurd scanned (none_ e b)
  · intro e b _ scanned
    by_cases visited : s.visited = []
    · have own : Scanned db opts startId e node.id b := by
        rw [head_start leveled head visited]
        exact scanned
      exact absurd own (none_ e b)
    · exact leveled.first e b visited scanned
  · simp [takeHead] at visited

theorem leveled_expanded {rows : List Edge} {new : List Node}
    (leveled : Leveled store.db opts startId depth s) (head : s.queue = (node, d) :: queue)
    (within : withinDepth opts.maxDepth (d + 1)) (kept : Kept store.db opts startId s)
    (expanded : Expanded store.db opts node.id d rows rows (takeHead s node.id queue) t new)
    (adjacent : ∀ e, e ∈ rows ↔ e ∈ getAdjacentEdges store node.id opts.direction opts.edgeKinds)
    (under : underLimit opts.limit t.nodes.length = true) :
    Leveled store.db opts startId (deepen depth node.id (new.map Node.id)) t := by
  have same := head_depth leveled head
  have distance := head_distance leveled head
  have all := expanded.all under
  have enqueued : s.enqueued = s.visited ++ node.id :: queue.map (·.1.id) := by
    rw [kept.enqueued, kept.ids, head]
    rfl
  have distinct : (s.enqueued ++ new.map Node.id).Nodup := by
    have whole := expanded.distinct
    rwa [expanded.enqueued] at whole
  have seen_more : s.seenEdges ⊆ t.seenEdges := by
    rw [kept.sites, expanded.sites]
    exact List.map_subset edgeSite expanded.kept
  -- the rows are the edges that the node looks at
  have row : ∀ e b, Admits store.db opts e node.id b → e ∈ rows ∧ b = farEnd node.id e := by
    rintro e b ⟨edge, kinds, leads, -⟩
    refine ⟨(adjacent e).mpr (mem_getAdjacentEdges.mpr ⟨edge, kinds, ?_⟩), leads.far⟩
    exact leads.far ▸ leads
  have scans : ∀ e ∈ rows, AdmittedNode store.db opts.nodeKinds (farEnd node.id e) →
      Scanned store.db opts startId e node.id (farEnd node.id e) := by
    intro e member admitted
    obtain ⟨edge, kinds, leads⟩ := mem_getAdjacentEdges.mp ((adjacent e).mp member)
    exact ⟨⟨edge, kinds, leads, admitted⟩, d, distance, within⟩
  have found : ∀ e b, Scanned store.db opts startId e node.id b →
      b ∈ t.enqueued ∧ edgeSite e ∈ t.seenEdges := by
    rintro e b ⟨admits, -⟩
    obtain ⟨member, rfl⟩ := row e b admits
    exact all e member admits.2.2.2
  constructor
  · rw [expanded.visited, expanded.queue, List.map_append, List.map_map]
    refine (leveled_frontier leveled head).search ?_ ?_ ?_ ?_
    · exact (List.nodup_append.mp distinct).2.1
    · intro id member listed
      rw [← enqueued] at listed
      exact (List.nodup_append.mp distinct).2.2 id listed id member rfl
    · intro id member
      obtain ⟨n, added, rfl⟩ := List.mem_map.mp member
      obtain ⟨stored, kind, e, member, far⟩ := expanded.from_rows n added
      have admitted : AdmittedNode store.db opts.nodeKinds (farEnd node.id e) :=
        far ▸ ⟨n, stored, kind⟩
      rw [same]
      exact ⟨within, e, far ▸ (scans e member admitted).1⟩
    · rintro - b ⟨e, admits⟩
      obtain ⟨member, rfl⟩ := row e b admits
      have listed := (all e member admits.2.2.2).1
      rw [expanded.enqueued] at listed
      rw [← enqueued]
      exact List.mem_append.mp listed
  · intro step queued
    rw [expanded.queue] at queued
    rcases List.mem_append.mp queued with old | added
    · have before : step ∈ s.queue := head ▸ List.mem_cons_of_mem _ old
      have listed : step.1.id ∈ s.enqueued := by
        rw [enqueued]
        exact List.mem_append_right _ (List.mem_cons_of_mem _
          (List.mem_map.mpr ⟨step, old, rfl⟩))
      rw [deepen_old fun member => (List.nodup_append.mp distinct).2.2 _ listed _ member rfl]
      exact leveled.depths step before
    · obtain ⟨n, member, rfl⟩ := List.mem_map.mp added
      rw [deepen_new (List.mem_map_of_mem member), same]
  · intro e a b visited scanned
    rw [expanded.visited] at visited
    rcases mem_snoc.mp visited with earlier | last
    · exact seen_more (leveled.scanned e a b earlier scanned)
    · rw [last] at scanned
      exact (found e b scanned).2
  · intro e member
    rcases expanded.edges e member with old | ⟨member, -, admitted⟩
    · exact leveled.looked e old
    · exact ⟨node.id, _, scans e member admitted⟩
  · intro e b _ scanned
    by_cases visited : s.visited = []
    · have start := head_start leveled head visited
      have own : Scanned store.db opts startId e node.id b := by
        rw [start]
        exact scanned
      obtain ⟨-, seen⟩ := found e b own
      rw [expanded.sites] at seen
      obtain ⟨f, member, site⟩ := List.mem_map.mp seen
      refine ⟨f, member, site, ?_⟩
      rcases expanded.edges f member with old | ⟨member, -, admitted⟩
      · change f ∈ s.edges at old
        rw [leveled.unseen visited] at old
        cases old
      · have looks := scans f member admitted
        rw [start] at looks
        exact ⟨_, looks⟩
    · obtain ⟨f, member, rest⟩ := leveled.first e b visited scanned
      exact ⟨f, expanded.kept member, rest⟩
  · intro visited
    rw [expanded.visited] at visited
    simp [takeHead] at visited

end Levels

/-! ### The whole traversal -/

theorem kept_length {s : Bfs} (kept : Kept db opts startId s) :
    s.visited.length + s.queue.length ≤ db.nodes.length := by
  have inside : s.nodes.map Node.id ⊆ db.nodes.map Node.id := by
    intro id listed
    obtain ⟨n, member, rfl⟩ := List.mem_map.mp listed
    exact List.mem_map_of_mem (Database.getNodeById_mem (kept.nodes n member))
  have few := (List.subperm_of_subset kept.nodup inside).length_le
  rw [kept.ids, List.length_append, List.length_map, List.length_map] at few
  exact few

theorem bfsLoop_returns {s : Bfs} {fuel : Nat} (kept : Kept store.db opts startId s)
    (enough : store.db.nodes.length < s.visited.length + fuel) :
    ∃ t, bfsLoop store opts fuel s = some t ∧ Kept store.db opts startId t ∧
      s.nodes.length ≤ t.nodes.length ∧
      (underLimit opts.limit t.nodes.length = true → ∀ depth, Leveled store.db opts startId depth s →
        ∃ depth', Leveled store.db opts startId depth' t ∧ t.queue = []) := by
  induction fuel generalizing s with
  | zero =>
    have few := kept_length kept
    omega
  | succ fuel ih =>
    rw [bfsLoop]
    cases head : s.queue with
    | nil => exact ⟨s, rfl, kept, Nat.le_refl _, fun _ depth leveled => ⟨depth, leveled, head⟩⟩
    | cons step queue =>
      obtain ⟨node, d⟩ := step
      simp only
      split
      · next full =>
        refine ⟨s, rfl, kept, Nat.le_refl _, fun under => ?_⟩
        rw [under] at full
        cases full
      have taken := kept_takeHead kept head
      have longer : store.db.nodes.length < (takeHead s node.id queue).visited.length + fuel := by
        simp only [takeHead, List.length_append, List.length_singleton]
        omega
      have here : node.id ∈ s.enqueued := by
        rw [kept.enqueued, kept.ids, head]
        exact List.mem_append_right _ List.mem_cons_self
      split
      · next again =>
        have nodup := kept.nodup
        rw [kept.ids, head] at nodup
        exact absurd rfl ((List.nodup_append.mp nodup).2.2 _ again _ List.mem_cons_self)
      split
      · next limit =>
        have beyond : ¬withinDepth opts.maxDepth (d + 1) := by
          rw [← reachedLimit_iff, limit]
          exact Bool.noConfusion
        obtain ⟨t, returned, kept', grown, levels⟩ := ih taken longer
        exact ⟨t, returned, kept', grown, fun under depth leveled =>
          levels under depth (leveled_limit leveled head beyond)⟩
      · next limit =>
        have within : withinDepth opts.maxDepth (d + 1) :=
          reachedLimit_iff.mp (Bool.eq_false_iff.mpr limit)
        obtain ⟨rows, new, adjacent, expanded⟩ := bfsNode_expanded taken node.id d
        have walk := kept.walks (node, d) (head ▸ List.mem_cons_self)
        have kept' := kept_expanded taken expanded adjacent walk within here
        obtain ⟨t, returned, kept'', grown, levels⟩ := ih kept' (by rw [expanded.visited]; exact longer)
        have more : s.nodes.length ≤ t.nodes.length := by
          refine Nat.le_trans ?_ grown
          rw [expanded.nodes, List.length_append]
          exact Nat.le_add_right _ _
        exact ⟨t, returned, kept'', more, fun under depth leveled =>
          levels under _ (leveled_expanded leveled head within kept expanded adjacent
            (underLimit_mono grown under))⟩

theorem traverseBFS_ends {startNode : Node}
    (start : store.db.getNodeById startId = some startNode) (included : opts.includeStart = true)
    (positive : withinLimit opts.limit 1) :
    ∃ s, traverseBFS store startId opts = some ⟨s.nodes, s.edges, [startId], false⟩ ∧
      Kept store.db opts startId s ∧ (underLimit opts.limit s.nodes.length = true →
        ∃ depth, Leveled store.db opts startId depth s ∧ s.queue = []) := by
  have named := Database.getNodeById_id start
  have kept : Kept store.db opts startId
      ⟨[startNode], [], [], [startNode.id], [], [(startNode, 0)]⟩ := by
    refine ⟨rfl, rfl, List.nodup_singleton _, ?_, ?_, ?_, rfl, List.nodup_nil, ?_, positive⟩
    · intro n member
      rw [List.mem_singleton.mp member, named]
      exact start
    · intro n member
      rw [List.mem_singleton.mp member]
      exact .inl named
    · intro step queued
      rw [List.mem_singleton.mp queued, named]
      exact .start
    · exact fun _ none_ => nomatch none_
  have leveled : Leveled store.db opts startId (fun _ => 0)
      ⟨[startNode], [], [], [startNode.id], [], [(startNode, 0)]⟩ := by
    refine ⟨?_, ?_, ?_, ?_, ?_, fun _ => rfl⟩
    · have frontier := frontier_start (Adjacent store.db opts)
        (fun d => withinDepth opts.maxDepth (d + 1)) startNode.id
      rw [named] at frontier
      simp only [List.map_cons, List.map_nil, named]
      exact frontier
    · intro step queued
      rw [List.mem_singleton.mp queued]
    · exact fun _ _ _ none_ => nomatch none_
    · exact fun _ none_ => nomatch none_
    · exact fun _ _ none_ => absurd rfl none_
  obtain ⟨s, returned, kept', -, levels⟩ := bfsLoop_returns kept
    (show store.db.nodes.length < 0 + (store.db.nodes.length + 1) by omega)
  refine ⟨s, ?_, kept', fun under => levels under _ leveled⟩
  rw [traverseBFS, start]
  simp only [included, if_true, returned, Option.map_some]

theorem sites_of_identities {edges : List Edge} (sites : (edges.map edgeSite).Nodup) :
    (edges.map Edge.identity).Nodup := by
  have factored : edges.map edgeSite = (edges.map Edge.identity).map
      fun i => i.1 ++ "|" ++ i.2.1 ++ "|" ++ edgeKindText i.2.2.1 ++ "|" ++ positionText i.2.2.2.1 ++
        "|" ++ positionText i.2.2.2.2 := by
    rw [List.map_map]
    rfl
  exact List.Nodup.of_map _ (factored ▸ sites)

/-- When the limit is not reached the nodes are those in reach. -/
theorem leveled_nodes {s : Bfs} {depth : NodeId → Nat} (kept : Kept db opts startId s)
    (leveled : Leveled db opts startId depth s) (done : s.queue = []) (id : NodeId) :
    id ∈ s.nodes.map Node.id ↔ InReach db opts startId id := by
  have frontier := leveled.frontier
  rw [done] at frontier
  have visited : s.nodes.map Node.id = s.visited := by
    rw [kept.ids, done]
    simp
  rw [visited, frontier.exact]
  constructor
  · rintro ⟨n, distance, inside⟩
    cases n with
    | zero =>
      have walk := distance.1
      cases walk
      exact .inl rfl
    | succ n => exact .inr ⟨n + 1, distance, inside n (Nat.lt_succ_self n)⟩
  · rintro (rfl | ⟨n, distance, within⟩)
    · exact ⟨0, distance_zero id, fun _ none_ => absurd none_ (Nat.not_lt_zero _)⟩
    · refine ⟨n, distance, fun d less limit bound => ?_⟩
      have below := within limit bound
      omega

theorem scanned_listed {s : Bfs} {depth : NodeId → Nat} (kept : Kept db opts startId s)
    (leveled : Leveled db opts startId depth s) (done : s.queue = []) {e : Edge} {a b : NodeId}
    (scanned : Scanned db opts startId e a b) : a ∈ s.visited := by
  obtain ⟨-, d, distance, within⟩ := scanned
  have reach : InReach db opts startId a := by
    refine .inr ⟨d, distance, fun limit bound => ?_⟩
    have below := within limit bound
    omega
  have listed := (leveled_nodes kept leveled done a).mpr reach
  rw [kept.ids, done] at listed
  simpa using listed

theorem site_unique {s : Bfs} (kept : Kept db opts startId s) {e f : Edge} (one : e ∈ s.edges)
    (other : f ∈ s.edges) (same : edgeSite e = edgeSite f) : e = f :=
  List.inj_on_of_nodup_map (kept.sites ▸ kept.once) one other same

/-- An edge that has to be returned is, if no other has its site. -/
theorem required_returned {s : Bfs} {depth : NodeId → Nat} (kept : Kept db opts startId s)
    (leveled : Leveled db opts startId depth s) (done : s.queue = [])
    (apart : ∀ e f a b, Required db opts startId e → Scanned db opts startId f a b →
      edgeSite f = edgeSite e → f = e) {e : Edge} (required : Required db opts startId e) :
    e ∈ s.edges := by
  have ⟨a, b, scanned, _⟩ := required
  have seen := leveled.scanned e a b (scanned_listed kept leveled done scanned) scanned
  rw [kept.sites] at seen
  obtain ⟨f, member, site⟩ := List.mem_map.mp seen
  obtain ⟨c, d, looked⟩ := leveled.looked f member
  exact apart e f c d required looked site ▸ member

theorem required_ends {e : Edge} (required : Required db opts startId e) :
    AdmittedNode db opts.nodeKinds e.source ∧ AdmittedNode db opts.nodeKinds e.target := by
  obtain ⟨a, b, ⟨⟨-, -, leads, kind⟩, -⟩, kind'⟩ := required
  rcases leads.ends with ⟨rfl, rfl⟩ | ⟨rfl, rfl⟩
  · exact ⟨kind', kind⟩
  · exact ⟨kind, kind'⟩

/-- If all that have to be returned are, no other edge has the site of one of them. -/
theorem required_apart {s : Bfs} {depth : NodeId → Nat} (kept : Kept db opts startId s)
    (leveled : Leveled db opts startId depth s) (done : s.queue = [])
    (returned : ∀ e, Required db opts startId e → e ∈ s.edges) {e f : Edge} {a b : NodeId}
    (required : Required db opts startId e) (scanned : Scanned db opts startId f a b)
    (site : edgeSite f = edgeSite e) : f = e := by
  by_cases admitted : AdmittedNode db opts.nodeKinds a
  · exact site_unique kept (returned f ⟨a, b, scanned, admitted⟩) (returned e required) site
  -- only the start can be of a kind that is not admitted, and it looks at its edges first
  have start : a = startId := by
    obtain ⟨-, d, distance, -⟩ := scanned
    cases d with
    | zero =>
      have walk := distance.1
      cases walk
      rfl
    | succ d =>
      obtain ⟨c, -, g, admits⟩ := distance.before
      exact absurd admits.2.2.2 admitted
  subst start
  have some_ : s.visited ≠ [] := List.ne_nil_of_mem (scanned_listed kept leveled done scanned)
  obtain ⟨g, member, same, c, looks⟩ := leveled.first f b some_ scanned
  have equal := site_unique kept member (returned e required) (same.trans site)
  subst equal
  obtain ⟨source, target⟩ := required_ends required
  rcases looks.1.2.2.1.ends with ⟨here, -⟩ | ⟨-, here⟩
  · exact absurd (here ▸ source) admitted
  · exact absurd (here ▸ target) admitted

/-- The traversal is a bounded breadth-first search exactly if the limit is in reach or the texts of
the edges' sites tell them apart. -/
theorem traverse_bfs_bounded (store : Store) (opts : TraversalOptions) {startId : NodeId}
    {startNode : Node} (start : store.db.getNodeById startId = some startNode)
    (included : opts.includeStart = true) (positive : withinLimit opts.limit 1) :
    ∃ result, traverseBFS store startId opts = some result ∧
      (BoundedSearch store.db opts startId result ↔ SitesApart store.db opts startId) := by
  obtain ⟨s, returned, kept, levels⟩ := traverseBFS_ends start included positive
  refine ⟨_, returned, fun bounded => ?_, fun apart => ?_⟩
  · by_cases under : underLimit opts.limit s.nodes.length = true
    · obtain ⟨depth, leveled, done⟩ := levels under
      have all : ∀ e, Required store.db opts startId e → e ∈ s.edges := fun e required =>
        List.one_le_count_iff.mp (Nat.le_of_eq ((bounded.exact under).2 e required).symm)
      exact .inr fun e f a b required scanned site =>
        required_apart kept leveled done all required scanned site
    · refine .inl ⟨s.nodes.map Node.id, kept.nodup, fun id listed => ?_, ?_⟩
      · obtain ⟨n, member, rfl⟩ := List.mem_map.mp listed
        exact kept.reach n member
      · rw [List.length_map]
        exact Bool.eq_false_iff.mpr under
  · have once := sites_of_identities (kept.sites ▸ kept.once)
    refine ⟨kept.limit, fun e member => ?_, once, ⟨kept.nodup, kept.nodes⟩, fun under => ?_⟩
    · have ends := kept.ends e member
      rwa [kept.enqueued] at ends
    · obtain ⟨depth, leveled, done⟩ := levels under
      have nodes := leveled_nodes kept leveled done
      refine ⟨nodes, fun e required => ?_⟩
      rcases apart with ⟨ids, distinct, reach, full⟩ | apart
      · have sub : ids ⊆ s.nodes.map Node.id := fun id listed => (nodes id).mpr (reach id listed)
        have few := (List.subperm_of_subset distinct sub).length_le
        rw [List.length_map] at few
        rw [underLimit_mono few under] at full
        cases full
      · exact List.count_eq_one_of_mem (once.of_map _)
          (required_returned kept leveled done apart required)

/-- Files whose paths have a bar in them: `s` imports `a` and `a|file:q`, the one imports
`q|file:r`, the other `r`. -/
def barPaths : Database where
  nodes := ["file:s", "file:a", "file:a|file:q", "file:q|file:r", "file:r"].map
    fun id => ⟨id, .file, .typescript⟩
  edges := [
    ⟨1, "file:s", "file:a", .imports, none, none⟩,
    ⟨2, "file:s", "file:a|file:q", .imports, none, none⟩,
    ⟨3, "file:a", "file:q|file:r", .imports, none, none⟩,
    ⟨4, "file:a|file:q", "file:r", .imports, none, none⟩]
  identities := by decide

theorem traverse_bfs_bounded_barPaths :
    ∃ result, traverseBFS barPaths.store "file:s" = some result ∧
      (BoundedSearch barPaths {} "file:s" result ↔ SitesApart barPaths {} "file:s") :=
  traverse_bfs_bounded barPaths.store {}
    (by decide +kernel : barPaths.getNodeById "file:s" = some ⟨"file:s", .file, .typescript⟩) rfl
    (by rintro _ ⟨⟩; decide)

/-- The second of the two imports with one site text is not returned. -/
theorem traverse_bfs_loses :
    (traverseBFS barPaths.store "file:s").map (fun r => (r.nodes.map Node.id, r.edges.map Edge.id)) =
        some (["file:s", "file:a", "file:a|file:q", "file:q|file:r", "file:r"], [1, 2, 3]) ∧
      ∀ result, traverseBFS barPaths.store "file:s" = some result →
        ¬BoundedSearch barPaths {} "file:s" result := by
  have run : (traverseBFS barPaths.store "file:s").map
      (fun r => (r.nodes.map Node.id, r.edges.map Edge.id)) =
        some (["file:s", "file:a", "file:a|file:q", "file:q|file:r", "file:r"], [1, 2, 3]) := by
    decide +kernel
  refine ⟨run, fun result returned bounded => ?_⟩
  rw [returned] at run
  obtain ⟨nodes, edges⟩ := Prod.mk.inj (Option.some.inj run)
  have under : underLimit (some 1000) result.nodes.length = true := by
    have five := congrArg List.length nodes
    rw [List.length_map] at five
    rw [five]
    rfl
  have admitted : ∀ id ∈ barPaths.nodes.map Node.id, AdmittedNode barPaths [] id := by
    intro id listed
    obtain ⟨n, member, rfl⟩ := List.mem_map.mp listed
    have every : ∀ n ∈ barPaths.nodes, barPaths.getNodeById n.id = some n := by decide +kernel
    exact ⟨n, every n member, rfl⟩
  have first : Adjacent barPaths {} "file:s" "file:a|file:q" :=
    ⟨⟨2, "file:s", "file:a|file:q", .imports, none, none⟩, by decide, .inl rfl, ⟨rfl, rfl⟩,
      admitted _ (by decide)⟩
  have distance : IsDistance (Adjacent barPaths {}) "file:s" "file:a|file:q" 1 := by
    refine ⟨Walk.start.step first, fun m walk => ?_⟩
    cases m with
    | zero => exact absurd walk.zero (by decide)
    | succ m => omega
  have required : Required barPaths {} "file:s" ⟨4, "file:a|file:q", "file:r", .imports, none, none⟩ := by
    refine ⟨"file:a|file:q", "file:r", ⟨⟨by decide, .inl rfl, ⟨rfl, rfl⟩, admitted _ (by decide)⟩, 1,
      distance, fun _ none_ => nomatch none_⟩, admitted _ (by decide)⟩
  have member := List.one_le_count_iff.mp (Nat.le_of_eq ((bounded.exact under).2 _ required).symm)
  have fourth : 4 ∈ result.edges.map Edge.id := List.mem_map.mpr ⟨_, member, rfl⟩
  rw [edges] at fourth
  revert fourth
  decide

end CodeGraph.Graph
