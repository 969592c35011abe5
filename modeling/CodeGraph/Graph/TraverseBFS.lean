import CodeGraph.Foundation.BreadthFirst
import CodeGraph.Graph.Callers

/-! The breadth-first traversal. -/
namespace CodeGraph.Graph

open Distance BreadthFirst

def edgeKindText : EdgeKind → String
  | .contains => "contains"
  | .calls => "calls"
  | .imports => "imports"
  | .exports => "exports"
  | .extends => "extends"
  | .implements => "implements"
  | .references => "references"
  | .typeOf => "type_of"
  | .returns => "returns"
  | .instantiates => "instantiates"
  | .overrides => "overrides"
  | .decorates => "decorates"
  | .navigates => "navigates"

/-- A missing position is written as -1. -/
def positionText : Option Nat → String
  | none => "-1"
  | some n => toString n

def edgeSite (e : Edge) : String :=
  e.source ++ "|" ++ e.target ++ "|" ++ edgeKindText e.kind ++ "|" ++ positionText e.line ++ "|" ++
    positionText e.column

inductive Direction where
  | outgoing | incoming | both
  deriving DecidableEq

structure TraversalOptions where
  maxDepth : MaxDepth := none
  edgeKinds : List EdgeKind := []
  nodeKinds : List NodeKind := []
  direction : Direction := .outgoing
  limit : Option Nat := some 1000
  includeStart : Bool := true

def underLimit (limit : Option Nat) (size : Nat) : Bool := limit.all fun bound => size < bound

/-- The data of the traversal; the maps and sets are in the order of insertion. -/
structure Bfs where
  nodes : List Node
  edges : List Edge
  visited : List NodeId
  enqueued : List NodeId
  seenEdges : List String
  queue : List (Node × Nat)

def getNode (nodes : List Node) (id : NodeId) : Option Node := nodes.find? (·.id = id)

def setNode (nodes : List Node) (node : Node) : List Node :=
  if node.id ∈ nodes.map Node.id then nodes.map fun n => if n.id = node.id then node else n
  else nodes ++ [node]

def getAdjacentEdges (store : Store) (nodeId : NodeId) (direction : Direction)
    (edgeKinds : List EdgeKind) : List Edge :=
  match direction with
  | .outgoing => store.getOutgoingEdges nodeId edgeKinds
  | .incoming => store.getIncomingEdges nodeId edgeKinds
  | .both => store.getOutgoingEdges nodeId edgeKinds ++ store.getIncomingEdges nodeId edgeKinds

def edgePriority (e : Edge) : Nat :=
  match e.kind with
  | .contains => 0
  | .calls => 1
  | _ => 2

def farEnd (nodeId : NodeId) (e : Edge) : NodeId := if e.source = nodeId then e.target else e.source

def admitsKind (nodeKinds : List NodeKind) (kind : NodeKind) : Bool :=
  nodeKinds.isEmpty || decide (kind ∈ nodeKinds)

def recordEdge (s : Bfs) (e : Edge) : Bfs :=
  if edgeSite e ∈ s.seenEdges then s
  else { s with seenEdges := s.seenEdges ++ [edgeSite e], edges := s.edges ++ [e] }

def bfsEdge (opts : TraversalOptions) (nodeId : NodeId) (depth : Nat)
    (neighborNodes : NodeId → Option Node) (s : Bfs) (adjEdge : Edge) : Bfs :=
  let nextNodeId := farEnd nodeId adjEdge
  match (neighborNodes nextNodeId).or (getNode s.nodes nextNodeId) with
  | none => s
  | some nextNode =>
    if !admitsKind opts.nodeKinds nextNode.kind then s
    else if nextNodeId ∉ s.visited ∧ nextNodeId ∉ s.enqueued then
      if !underLimit opts.limit s.nodes.length then s
      else
        recordEdge
          { s with
            enqueued := s.enqueued ++ [nextNodeId]
            nodes := setNode s.nodes nextNode
            queue := s.queue ++ [(nextNode, depth + 1)] } adjEdge
    else recordEdge s adjEdge

def bfsNode (store : Store) (opts : TraversalOptions) (nodeId : NodeId) (depth : Nat) (s : Bfs) : Bfs :=
  let adjacentEdges := (getAdjacentEdges store nodeId opts.direction opts.edgeKinds).insertionSort
    fun a b => edgePriority a ≤ edgePriority b
  let wantIds := (adjacentEdges.map (farEnd nodeId)).filter fun id => id ∉ s.visited ∧ id ∉ s.enqueued
  adjacentEdges.foldl (bfsEdge opts nodeId depth (store.db.getNodesByIds wantIds)) s

/-- Each round takes a node from the queue; `none` stands for running out of fuel. -/
def bfsLoop (store : Store) (opts : TraversalOptions) : Nat → Bfs → Option Bfs
  | 0, _ => none
  | fuel + 1, s =>
    match s.queue with
    | [] => some s
    | (node, depth) :: queue =>
      if !underLimit opts.limit s.nodes.length then some s
      else if node.id ∈ s.visited then bfsLoop store opts fuel { s with queue }
      else if reachedLimit opts.maxDepth depth then
        bfsLoop store opts fuel { s with queue, visited := s.visited ++ [node.id] }
      else
        bfsLoop store opts fuel
          (bfsNode store opts node.id depth { s with queue, visited := s.visited ++ [node.id] })

def traverseBFS (store : Store) (startId : NodeId) (opts : TraversalOptions := {}) : Option Subgraph :=
  match store.db.getNodeById startId with
  | none => some ⟨[], [], [], false⟩
  | some startNode =>
    (bfsLoop store opts (store.db.nodes.length + 1)
      ⟨if opts.includeStart then [startNode] else [], [], [], [startNode.id], [], [(startNode, 0)]⟩).map
      fun s => ⟨s.nodes, s.edges, [startId], false⟩

/-! ### What it is for -/

/-- The edge leads from `a` to `b` in the direction. -/
def Leads (direction : Direction) (e : Edge) (a b : NodeId) : Prop :=
  match direction with
  | .outgoing => e.source = a ∧ e.target = b
  | .incoming => e.target = a ∧ e.source = b
  | .both => e.source = a ∧ e.target = b ∨ e.target = a ∧ e.source = b

def AdmittedNode (db : Database) (nodeKinds : List NodeKind) (id : NodeId) : Prop :=
  ∃ node, db.getNodeById id = some node ∧ admitsKind nodeKinds node.kind = true

def Admits (db : Database) (opts : TraversalOptions) (e : Edge) (a b : NodeId) : Prop :=
  e ∈ db.edges ∧ (opts.edgeKinds = [] ∨ e.kind ∈ opts.edgeKinds) ∧ Leads opts.direction e a b ∧
    AdmittedNode db opts.nodeKinds b

def Adjacent (db : Database) (opts : TraversalOptions) (a b : NodeId) : Prop :=
  ∃ e, Admits db opts e a b

def InReach (db : Database) (opts : TraversalOptions) (startId id : NodeId) : Prop :=
  id = startId ∨ ∃ d, IsDistance (Adjacent db opts) startId id d ∧ withinDepth opts.maxDepth d

def Scanned (db : Database) (opts : TraversalOptions) (startId : NodeId) (e : Edge) (a b : NodeId) :
    Prop :=
  Admits db opts e a b ∧
    ∃ d, IsDistance (Adjacent db opts) startId a d ∧ withinDepth opts.maxDepth (d + 1)

def Required (db : Database) (opts : TraversalOptions) (startId : NodeId) (e : Edge) : Prop :=
  ∃ a b, Scanned db opts startId e a b ∧ AdmittedNode db opts.nodeKinds a

def withinLimit (limit : Option Nat) (size : Nat) : Prop := ∀ bound ∈ limit, size ≤ bound

structure BoundedSearch (db : Database) (opts : TraversalOptions) (startId : NodeId)
    (result : Subgraph) : Prop where
  limit : withinLimit opts.limit result.nodes.length
  ends : ∀ e ∈ result.edges, e ∈ db.edges ∧ e.source ∈ result.nodes.map Node.id ∧
    e.target ∈ result.nodes.map Node.id
  once : (result.edges.map Edge.identity).Nodup
  nodes : (result.nodes.map Node.id).Nodup ∧ ∀ n ∈ result.nodes, db.getNodeById n.id = some n
  exact : underLimit opts.limit result.nodes.length = true →
    (∀ id, id ∈ result.nodes.map Node.id ↔ InReach db opts startId id) ∧
      ∀ e, Required db opts startId e → result.edges.count e = 1

/-- As many nodes as the limit are in reach, or the sites of the edges tell them apart: no edge that
is to be returned has the site text of another edge that is looked at. -/
def SitesApart (db : Database) (opts : TraversalOptions) (startId : NodeId) : Prop :=
  (∃ ids : List NodeId, ids.Nodup ∧ (∀ id ∈ ids, InReach db opts startId id) ∧
      underLimit opts.limit ids.length = false) ∨
    ∀ e f a b, Required db opts startId e → Scanned db opts startId f a b →
      edgeSite f = edgeSite e → f = e

end CodeGraph.Graph
