import CodeGraph.Foundation.DepthWalk
import CodeGraph.Foundation.Distance
import CodeGraph.Foundation.Transitions
import CodeGraph.Graph.Impact

/-! Callers and callees up to a depth. -/
namespace CodeGraph.Graph

open Distance

def CALL_EDGE_KINDS : List EdgeKind := [.calls, .references, .imports, .instantiates, .navigates]

structure CallWalk where
  result : List (Node × Edge)
  visited : NodeId → Option Nat
  reported : List NodeId

def callStep (far : Edge → NodeId) (nodes : NodeId → Option Node)
    (recurse : NodeId → Nat → CallWalk → Option CallWalk) (currentDepth : Nat) (s : CallWalk)
    (edge : Edge) : Option CallWalk :=
  match nodes (far edge) with
  | none => some s
  | some node =>
    if !nearerThanBefore s.visited node.id (currentDepth + 1) then some s
    else
      recurse node.id (currentDepth + 1)
        (if node.id ∈ s.reported then s
        else { s with reported := node.id :: s.reported, result := s.result ++ [(node, edge)] })

/-- The recursion of both directions: the rows of a node, and where they lead. The fuel bounds the
nesting of the calls. -/
def callRecursive (db : Database) (rows : NodeId → List Edge) (far : Edge → NodeId)
    (maxDepth : MaxDepth) : Nat → NodeId → Nat → CallWalk → Option CallWalk
  | 0, _, _, _ => none
  | fuel + 1, nodeId, currentDepth, s =>
    if !nearerThanBefore s.visited nodeId currentDepth then some s
    else
      let s := { s with visited := visitedSet s.visited nodeId currentDepth }
      if reachedLimit maxDepth currentDepth then some s
      else
        (rows nodeId).foldlM
          (callStep far (db.getNodesByIds ((rows nodeId).map far))
            (callRecursive db rows far maxDepth fuel) currentDepth) s

def callFuel (db : Database) : Nat := db.nodes.length + 2

def callsFrom (db : Database) (rows : NodeId → List Edge) (far : Edge → NodeId) (nodeId : NodeId)
    (maxDepth : MaxDepth) : Option (List (Node × Edge)) :=
  (callRecursive db rows far maxDepth (callFuel db) nodeId 0 ⟨[], fun _ => none, [nodeId]⟩).map
    CallWalk.result

def getCallers (store : Store) (nodeId : NodeId) (maxDepth : MaxDepth := some 1) :
    Option (List (Node × Edge)) :=
  callsFrom store.db (store.getIncomingEdges · CALL_EDGE_KINDS) Edge.source nodeId maxDepth

def getCallees (store : Store) (nodeId : NodeId) (maxDepth : MaxDepth := some 1) :
    Option (List (Node × Edge)) :=
  callsFrom store.db (store.getOutgoingEdges · CALL_EDGE_KINDS) Edge.target nodeId maxDepth

/-! ### What the walks are for -/

/-- An edge of the call graph leads from `near` to an existing node. -/
def CallEdge (db : Database) (near far : Edge → NodeId) (a b : NodeId) : Prop :=
  ∃ e ∈ db.edges, e.kind ∈ CALL_EDGE_KINDS ∧ near e = a ∧ far e = b ∧ (db.getNodeById b).isSome

def CalledBy (db : Database) : NodeId → NodeId → Prop := CallEdge db Edge.target Edge.source

def Calls (db : Database) : NodeId → NodeId → Prop := CallEdge db Edge.source Edge.target

def withinDepth (maxDepth : MaxDepth) (d : Nat) : Prop := ∀ limit ∈ maxDepth, (d : Int) ≤ limit

theorem reachedLimit_iff {maxDepth : MaxDepth} {d : Nat} : reachedLimit maxDepth d = false ↔ withinDepth maxDepth (d + 1) := by
  cases maxDepth with
  | none => simp [reachedLimit, withinDepth]
  | some limit =>
    simp only [reachedLimit, withinDepth, Option.any_some, decide_eq_false_iff_not, Option.mem_some,
      forall_eq']
    omega

/-- Each existing node at a distance from 1 to `maxDepth` once, with an edge from a node that is
nearer than `maxDepth`. -/
structure Neighbourhood (db : Database) (near far : Edge → NodeId) (start : NodeId)
    (maxDepth : MaxDepth) (rows : List (Node × Edge)) : Prop where
  once : (rows.map (·.1.id)).Nodup
  nodes : ∀ row ∈ rows, db.getNodeById row.1.id = some row.1
  exact : ∀ id, id ∈ rows.map (·.1.id) ↔
    ∃ d, IsDistance (CallEdge db near far) start id d ∧ 1 ≤ d ∧ withinDepth maxDepth d
  edges : ∀ row ∈ rows, row.2 ∈ db.edges ∧ row.2.kind ∈ CALL_EDGE_KINDS ∧ far row.2 = row.1.id ∧
    ∃ d, IsDistance (CallEdge db near far) start (near row.2) d ∧ withinDepth maxDepth (d + 1)

open DepthWalk (Steps)

/-- Both directions: the rows of a node are the call edges at it, in some order. -/
structure CallRows (db : Database) (near far : Edge → NodeId) (rows : NodeId → List Edge) :
    Prop where
  mem : ∀ id e, e ∈ rows id ↔ e ∈ db.edges ∧ near e = id ∧ e.kind ∈ CALL_EDGE_KINDS
  nodup : ∀ id, (rows id).Nodup

theorem callRows_incoming (store : Store) :
    CallRows store.db Edge.target Edge.source (store.getIncomingEdges · CALL_EDGE_KINDS) where
  mem id e := by
    rw [Store.mem_getIncomingEdges]
    simp [CALL_EDGE_KINDS]
  nodup id := Store.getIncomingEdges_nodup id CALL_EDGE_KINDS

theorem callRows_outgoing (store : Store) :
    CallRows store.db Edge.source Edge.target (store.getOutgoingEdges · CALL_EDGE_KINDS) where
  mem id e := by
    rw [Store.mem_getOutgoingEdges]
    simp [CALL_EDGE_KINDS]
  nodup id := Store.getOutgoingEdges_nodup id CALL_EDGE_KINDS

section Exact

variable {db : Database} {near far : Edge → NodeId} {rows : NodeId → List Edge}
  {maxDepth : MaxDepth} {start : NodeId}

/-! ### The search that it is an instance of -/

/-- All steps go back along the call edges; none stops. -/
def callSteps (db : Database) (near far : Edge → NodeId) (rows : NodeId → List Edge)
    (maxDepth : MaxDepth) (each : CallRows db near far rows) : Steps NodeId Edge where
  source := far
  target := near
  down _ := []
  back id := (rows id).filter fun e => (db.getNodeById (far e)).isSome
  stops _ := false
  within d := !reachedLimit maxDepth d
  down_source _ _ member := nomatch member
  back_target id e member := ((each.mem id e).mp (List.mem_filter.mp member).1).2.1
  apart _ _ _ down := nomatch down
  back_nodup id := (each.nodup id).filter _
  shallower _ deep := reachedLimit_shallower deep

variable (each : CallRows db near far rows)

theorem mem_back {id : NodeId} {e : Edge} :
    e ∈ (callSteps db near far rows maxDepth each).back id ↔
      e ∈ db.edges ∧ e.kind ∈ CALL_EDGE_KINDS ∧ near e = id ∧ (db.getNodeById (far e)).isSome := by
  simp only [callSteps, List.mem_filter, each.mem]
  tauto

/-- The walks of the search are the walks of the call graph that leave no node at the limit. -/
theorem walk_iff {id : NodeId} {d : Nat} :
    (∃ b, DepthWalk.Walk (callSteps db near far rows maxDepth each) start id d b) ↔
      Walk (CallEdge db near far) start d id ∧ (d = 0 ∨ withinDepth maxDepth d) := by
  constructor
  · rintro ⟨b, walk⟩
    induction walk with
    | start => exact ⟨.start, .inl rfl⟩
    | down _ _ member => cases member
    | @back n d e _ within member ih =>
      obtain ⟨row, kind, from_, exists_⟩ := (mem_back each).mp member
      have limit : reachedLimit maxDepth d = false := by simpa [callSteps] using within
      exact ⟨ih.1.step ⟨e, row, kind, from_, rfl, exists_⟩, .inr (reachedLimit_iff.mp limit)⟩
  · rintro ⟨walk, within⟩
    refine ⟨false, ?_⟩
    induction walk with
    | start => exact .start
    | @step n b c _ last ih =>
      obtain ⟨e, row, kind, from_, rfl, exists_⟩ := last
      have deep := within.resolve_left (Nat.succ_ne_zero n)
      have before : n = 0 ∨ withinDepth maxDepth n := by
        right
        intro limit bound
        have below := deep limit bound
        omega
      have limit : (callSteps db near far rows maxDepth each).within n = true := by
        simp only [callSteps, reachedLimit_iff.mpr deep, Bool.not_false]
      exact DepthWalk.Walk.back (ih before) limit ((mem_back each).mpr ⟨row, kind, from_, exists_⟩)

structure Alike (s : CallWalk) (t : DepthWalk.State NodeId Edge) : Prop where
  visited : t.visited = s.visited
  nodes : ∀ id, id ∈ t.nodes ↔ id ∈ s.reported

theorem nearer_alike {s : CallWalk} {t : DepthWalk.State NodeId Edge} (alike : Alike s t)
    (id : NodeId) (d : Nat) : DepthWalk.nearer t.visited id d = nearerThanBefore s.visited id d := by
  rw [alike.visited]
  unfold nearerThanBefore DepthWalk.nearer
  cases s.visited id <;> rfl

def Follows (recurse : NodeId → Nat → CallWalk → Option CallWalk)
    (explore : NodeId → Nat → DepthWalk.State NodeId Edge → Option (DepthWalk.State NodeId Edge)) :
    Prop :=
  ∀ id d s t u, Alike s t → explore id d t = some u → ∃ r, recurse id d s = some r ∧ Alike r u

variable {recurse : NodeId → Nat → CallWalk → Option CallWalk}
  {explore : NodeId → Nat → DepthWalk.State NodeId Edge → Option (DepthWalk.State NodeId Edge)}

private theorem callStep_follows (follows : Follows recurse explore) {nodes : NodeId → Option Node}
    {d : Nat} {first : Bool} {e : Edge} {node : Node} {s : CallWalk} {t u : DepthWalk.State NodeId Edge}
    (found : nodes (far e) = some node) (named : node.id = far e) (alike : Alike s t)
    (done : DepthWalk.backStep (callSteps db near far rows maxDepth each) explore first d t e = some u) :
    ∃ r, callStep far nodes recurse d s e = some r ∧ Alike r u := by
  have recorded : Alike s (DepthWalk.record first t e) := by
    cases first <;> exact ⟨alike.visited, alike.nodes⟩
  unfold DepthWalk.backStep at done
  simp only [callStep, found, named]
  change (if DepthWalk.nearer (DepthWalk.record first t e).visited (far e) (d + 1) = true then
    explore (far e) (d + 1) (DepthWalk.addNode (DepthWalk.record first t e) (far e)) else _) = _ at done
  rw [nearer_alike recorded] at done
  split at done
  · next near_ =>
    simp only [near_, Bool.not_true, Bool.false_eq_true, if_false]
    refine follows (far e) (d + 1) _ _ u ?_ done
    unfold DepthWalk.addNode
    by_cases known : far e ∈ s.reported
    · rw [if_pos known, if_pos ((recorded.nodes _).mpr known)]
      exact recorded
    · rw [if_neg known, if_neg fun h => known ((recorded.nodes _).mp h)]
      refine ⟨recorded.visited, fun id => ?_⟩
      simp only [List.mem_append, List.mem_cons, recorded.nodes]
      tauto
  · next beyond =>
    cases done
    simp only [beyond, Bool.not_false, if_true]
    exact ⟨s, rfl, recorded⟩

private theorem callLoop_follows (follows : Follows recurse explore) {nodes : NodeId → Option Node}
    {d : Nat} {first : Bool} {es : List Edge}
    (looked : ∀ e ∈ es, nodes (far e) = db.getNodeById (far e)) {s : CallWalk}
    {t u : DepthWalk.State NodeId Edge} (alike : Alike s t)
    (done : (es.filter fun e => (db.getNodeById (far e)).isSome).foldlM
      (DepthWalk.backStep (callSteps db near far rows maxDepth each) explore first d) t = some u) :
    ∃ r, es.foldlM (callStep far nodes recurse d) s = some r ∧ Alike r u := by
  induction es generalizing s t with
  | nil =>
    cases done
    exact ⟨s, rfl, alike⟩
  | cons e es ih =>
    have same := looked e List.mem_cons_self
    have later := fun f h => looked f (List.mem_cons_of_mem e h)
    cases found : db.getNodeById (far e) with
    | none =>
      rw [List.filter_cons_of_neg (by simp [found])] at done
      obtain ⟨r, rest, after⟩ := ih later alike done
      refine ⟨r, ?_, after⟩
      rw [List.foldlM_cons, callStep, same, found]
      exact rest
    | some node =>
      rw [List.filter_cons_of_pos (by simp [found]), List.foldlM_cons] at done
      obtain ⟨m, head, tail⟩ := Option.bind_eq_some_iff.mp done
      obtain ⟨q, step, between⟩ := callStep_follows each follows (same.trans found)
        (Database.getNodeById_id found) alike head
      obtain ⟨r, rest, after⟩ := ih later between tail
      refine ⟨r, ?_, after⟩
      rw [List.foldlM_cons, step]
      exact rest

theorem callRecursive_follows (fuel : Nat) :
    Follows (callRecursive db rows far maxDepth fuel)
      (DepthWalk.visit (callSteps db near far rows maxDepth each) fuel) := by
  induction fuel with
  | zero =>
    intro id d s t u _ done
    cases done
  | succ fuel ih =>
    intro id d s t u alike done
    rw [DepthWalk.visit, nearer_alike alike] at done
    rw [callRecursive]
    split at done
    · next near_ =>
      simp only [near_, Bool.not_true, Bool.false_eq_true, if_false]
      have marked : Alike { s with visited := visitedSet s.visited id d }
          { t with visited := DepthWalk.mark t.visited id d } :=
        ⟨by rw [alike.visited]; rfl, alike.nodes⟩
      split at done
      · next within =>
        have limit : ¬reachedLimit maxDepth d = true := by simpa [callSteps] using within
        simp only [if_neg limit]
        obtain ⟨m, downs, backs⟩ := Option.bind_eq_some_iff.mp done
        cases downs
        have entered : Alike { s with visited := visitedSet s.visited id d }
            (DepthWalk.enter t id d) := ⟨marked.visited, marked.nodes⟩
        have looked : ∀ e ∈ rows id, db.getNodesByIds ((rows id).map far) (far e) =
            db.getNodeById (far e) :=
          fun e member => Database.getNodesByIds_mem (List.mem_map_of_mem member)
        exact callLoop_follows each ih looked entered backs
      · next beyond =>
        have limit : reachedLimit maxDepth d = true := by simpa [callSteps] using beyond
        cases done
        simp only [limit, if_true]
        exact ⟨_, rfl, marked⟩
    · next beyond =>
      cases done
      simp only [beyond, Bool.not_false, if_true]
      exact ⟨s, rfl, alike⟩

variable (maxDepth) in
theorem callRecursive_returns (start : NodeId) : ∃ s t,
    callRecursive db rows far maxDepth (callFuel db) start 0 ⟨[], fun _ => none, [start]⟩ = some s ∧
      DepthWalk.visit (callSteps db near far rows maxDepth each) (callFuel db) start 0
        (DepthWalk.initial start) = some t ∧ Alike s t := by
  have inside : ∀ n, (∀ e ∈ (callSteps db near far rows maxDepth each).down n,
        (callSteps db near far rows maxDepth each).target e ∈ start :: db.nodes.map Node.id) ∧
      ∀ e ∈ (callSteps db near far rows maxDepth each).back n,
        (callSteps db near far rows maxDepth each).source e ∈ start :: db.nodes.map Node.id := by
    refine fun n => ⟨(fun e none_ => nomatch none_), fun e member => ?_⟩
    obtain ⟨-, -, -, exists_⟩ := (mem_back each).mp member
    obtain ⟨node, found⟩ := Option.isSome_iff_exists.mp exists_
    exact List.mem_cons_of_mem _ (List.mem_map.mpr
      ⟨node, Database.getNodeById_mem found, Database.getNodeById_id found⟩)
  have few : DepthWalk.room (start :: db.nodes.map Node.id)
      (DepthWalk.initial start : DepthWalk.State NodeId Edge) 0 < callFuel db := by
    have bound := List.countP_le_length (l := start :: db.nodes.map Node.id)
      (p := fun n => DepthWalk.nearer
        (DepthWalk.initial start : DepthWalk.State NodeId Edge).visited n 0)
    rw [List.length_cons, List.length_map] at bound
    unfold DepthWalk.room callFuel
    omega
  obtain ⟨t, done, -⟩ := DepthWalk.visit_returns inside (callFuel db) start 0
    (DepthWalk.initial start) List.mem_cons_self few
  have alike : Alike ⟨[], fun _ => none, [start]⟩ (DepthWalk.initial start) := ⟨rfl, fun _ => Iff.rfl⟩
  obtain ⟨s, returned, after⟩ := callRecursive_follows each (callFuel db) start 0 _ _ t alike done
  exact ⟨s, t, returned, done, after⟩

/-- The reported nodes are the start and those of the rows, each once, and every row has an edge
from a node that a walk enters above the limit. -/
structure Reports (db : Database) (near far : Edge → NodeId) (maxDepth : MaxDepth) (start : NodeId)
    (s : CallWalk) : Prop where
  reported : ∀ id, id ∈ s.reported ↔ id = start ∨ id ∈ s.result.map (·.1.id)
  once : (start :: s.result.map (·.1.id)).Nodup
  nodes : ∀ row ∈ s.result, db.getNodeById row.1.id = some row.1
  edges : ∀ row ∈ s.result, row.2 ∈ db.edges ∧ row.2.kind ∈ CALL_EDGE_KINDS ∧ far row.2 = row.1.id ∧
    ∃ d, Walk (CallEdge db near far) start d (near row.2) ∧ withinDepth maxDepth (d + 1)

variable (db near far maxDepth start) in
def KeepsReports (recurse : NodeId → Nat → CallWalk → Option CallWalk) : Prop :=
  ∀ id d s t, Walk (CallEdge db near far) start d id → Reports db near far maxDepth start s →
    recurse id d s = some t → Reports db near far maxDepth start t

omit each in
private theorem reports_push {s : CallWalk} {node : Node} {e : Edge} {d : Nat}
    (reports : Reports db near far maxDepth start s) (fresh : node.id ∉ s.reported)
    (found : db.getNodeById node.id = some node) (row : e ∈ db.edges)
    (kind : e.kind ∈ CALL_EDGE_KINDS) (named : node.id = far e)
    (walk : Walk (CallEdge db near far) start d (near e)) (deep : withinDepth maxDepth (d + 1)) :
    Reports db near far maxDepth start
      { s with reported := node.id :: s.reported, result := s.result ++ [(node, e)] } where
  reported id := by
    simp only [List.mem_cons, reports.reported, List.map_append, List.mem_append, List.map_cons,
      List.map_nil, List.not_mem_nil, or_false]
    tauto
  once := by
    have apart : node.id ∉ start :: s.result.map (·.1.id) := by
      intro member
      exact fresh ((reports.reported _).mpr (List.mem_cons.mp member))
    have whole : start :: (s.result ++ [(node, e)]).map (·.1.id) =
        (start :: s.result.map (·.1.id)) ++ [node.id] := by simp
    rw [whole]
    exact nodup_snoc reports.once apart
  nodes r member := by
    rcases mem_snoc.mp member with old | new
    · exact reports.nodes r old
    · rw [new]
      exact found
  edges r member := by
    rcases mem_snoc.mp member with old | new
    · exact reports.edges r old
    · rw [new]
      exact ⟨row, kind, named.symm, d, walk, deep⟩

omit each in
private theorem callStep_reports (keeps : KeepsReports db near far maxDepth start recurse)
    {nodes : NodeId → Option Node} {d : Nat} {e : Edge} {s t : CallWalk}
    (looked : nodes (far e) = db.getNodeById (far e)) (row : e ∈ db.edges)
    (kind : e.kind ∈ CALL_EDGE_KINDS) (walk : Walk (CallEdge db near far) start d (near e))
    (deep : withinDepth maxDepth (d + 1)) (reports : Reports db near far maxDepth start s)
    (done : callStep far nodes recurse d s e = some t) : Reports db near far maxDepth start t := by
  unfold callStep at done
  rw [looked] at done
  cases found : db.getNodeById (far e) with
  | none =>
    rw [found] at done
    cases done
    exact reports
  | some node =>
    have named := Database.getNodeById_id found
    rw [found] at done
    simp only [named] at done
    split at done
    · cases done
      exact reports
    · have further : Walk (CallEdge db near far) start (d + 1) (far e) :=
        walk.step ⟨e, row, kind, rfl, rfl, by rw [found]; rfl⟩
      refine keeps (far e) (d + 1) _ t further ?_ done
      split
      · exact reports
      · next fresh =>
        rw [← named] at fresh found ⊢
        exact reports_push reports fresh found row kind named walk deep

include each in
theorem callRecursive_reports (fuel : Nat) :
    KeepsReports db near far maxDepth start (callRecursive db rows far maxDepth fuel) := by
  induction fuel with
  | zero =>
    intro id d s t _ _ done
    cases done
  | succ fuel ih =>
    intro id d s t walk reports done
    rw [callRecursive] at done
    split at done
    · cases done
      exact reports
    · have marked : Reports db near far maxDepth start { s with visited := visitedSet s.visited id d } :=
        ⟨reports.reported, reports.once, reports.nodes, reports.edges⟩
      simp only at done
      split at done
      · cases done
        exact marked
      · next limit =>
        have deep := reachedLimit_iff.mp (Bool.eq_false_iff.mpr limit)
        refine Transitions.foldlM_invariant (fun e member s t reports done => ?_) marked done
        obtain ⟨row, here, kind⟩ := (each.mem id e).mp member
        exact callStep_reports ih (Database.getNodesByIds_mem (List.mem_map_of_mem member)) row kind
          (here ▸ walk) deep reports done

include each in
theorem callsFrom_neighbourhood (maxDepth : MaxDepth) (start : NodeId) :
    ∃ result, callsFrom db rows far start maxDepth = some result ∧
      Neighbourhood db near far start maxDepth result := by
  obtain ⟨s, t, returned, searched, alike⟩ := callRecursive_returns maxDepth each start
  have unblocked : DepthWalk.Unblocked (callSteps db near far rows maxDepth each) start :=
    fun _ _ stops => nomatch stops
  obtain ⟨entered, -⟩ := DepthWalk.visit_exact unblocked searched
  have reports : Reports db near far maxDepth start s := by
    refine callRecursive_reports each (callFuel db) start 0 _ s .start ?_ returned
    exact ⟨by simp, by simp, by simp, by simp⟩
  refine ⟨s.result, by rw [callsFrom, returned]; rfl, ?_⟩
  obtain ⟨fresh, once⟩ := List.nodup_cons.mp reports.once
  constructor
  · exact once
  · exact reports.nodes
  · intro id
    have known : id ∈ s.reported ↔ ∃ d, Walk (CallEdge db near far) start d id ∧
        (d = 0 ∨ withinDepth maxDepth d) := by
      rw [← alike.nodes, entered]
      exact exists_congr fun d => walk_iff each
    constructor
    · intro listed
      have other : id ≠ start := fun same => fresh (same ▸ listed)
      obtain ⟨n, walk, within⟩ := known.mp ((reports.reported id).mpr (.inr listed))
      obtain ⟨d, near_, distance⟩ := walk.distance
      refine ⟨d, distance, (distance_pos distance).mpr other, fun limit bound => ?_⟩
      have some_ := (distance_pos distance).mpr other
      have below := within.resolve_left (by omega) limit bound
      omega
    · rintro ⟨d, distance, some_, within⟩
      have member := (reports.reported id).mp (known.mpr ⟨d, distance.1, .inr within⟩)
      exact member.resolve_left ((distance_pos distance).mp some_)
  · intro row member
    obtain ⟨edge, kind, leads, n, walk, deep⟩ := reports.edges row member
    obtain ⟨d, near_, distance⟩ := walk.distance
    refine ⟨edge, kind, leads, d, distance, fun limit bound => ?_⟩
    have below := deep limit bound
    omega

end Exact

theorem getCallers_neighbourhood (store : Store) (nodeId : NodeId) (maxDepth : MaxDepth) :
    ∃ callers, getCallers store nodeId maxDepth = some callers ∧
      Neighbourhood store.db Edge.target Edge.source nodeId maxDepth callers :=
  callsFrom_neighbourhood (callRows_incoming store) maxDepth nodeId

/-- Callers and callees up to a depth are those at the distances asked for, each once, in whatever
order the store lists the edges. -/
theorem callers_and_callees (store : Store) (nodeId : NodeId) (maxDepth : MaxDepth) :
    (∃ callers, getCallers store nodeId maxDepth = some callers ∧
      Neighbourhood store.db Edge.target Edge.source nodeId maxDepth callers) ∧
    ∃ callees, getCallees store nodeId maxDepth = some callees ∧
      Neighbourhood store.db Edge.source Edge.target nodeId maxDepth callees :=
  ⟨getCallers_neighbourhood store nodeId maxDepth,
    callsFrom_neighbourhood (callRows_outgoing store) maxDepth nodeId⟩

end CodeGraph.Graph
