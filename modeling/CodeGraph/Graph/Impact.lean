import CodeGraph.Graph.Database

/-! The impact radius of a node. -/
namespace CodeGraph.Graph

def DEFAULT_IMPACT_MAX_NODES : Int := 10000
def DEFAULT_IMPACT_MAX_EDGES : Int := 50000

def EDGE_KINDS : List EdgeKind :=
  [.contains, .calls, .imports, .exports, .extends, .implements, .references, .typeOf, .returns,
    .instantiates, .overrides, .decorates, .navigates]

def IMPACT_INCOMING_KINDS : List EdgeKind := EDGE_KINDS.filter (· ≠ .contains)

def containerKinds : List NodeKind :=
  [.class, .interface, .struct, .union, .trait, .protocol, .module, .enum]

def isDocumentationNode (node : Node) : Bool := node.language = .markdown

structure ImpactOptions where
  maxNodes : Option Int := none
  maxEdges : Option Int := none

structure Subgraph where
  nodes : List Node
  edges : List Edge
  roots : List NodeId
  truncated : Bool := false

structure Budget where
  maxNodes : Nat
  maxEdges : Nat

/-- The data the recursion shares. `nodes` is a map in insertion order. -/
structure Impact where
  nodes : List Node
  edges : List Edge
  visited : NodeId → Option Nat
  expanded : List NodeId
  truncated : Bool

def nearerThanBefore (visited : NodeId → Option Nat) (nodeId : NodeId) (depth : Nat) : Bool :=
  match visited nodeId with
  | none => true
  | some seen => depth < seen

def visitedSet (visited : NodeId → Option Nat) (nodeId : NodeId) (depth : Nat) :
    NodeId → Option Nat :=
  fun id => if id = nodeId then some depth else visited id

/-- The depth at which nodes are no longer expanded; `none` where no depth is too large. -/
abbrev MaxDepth := Option Int

def reachedLimit (maxDepth : MaxDepth) (currentDepth : Nat) : Bool :=
  maxDepth.any fun limit => limit ≤ (currentDepth : Int)

theorem reachedLimit_shallower {maxDepth : MaxDepth} {d : Nat}
    (deep : (!reachedLimit maxDepth (d + 1)) = true) : (!reachedLimit maxDepth d) = true := by
  cases maxDepth with
  | none => rfl
  | some limit =>
    simp only [reachedLimit, Option.any_some, Bool.not_eq_true', decide_eq_false_iff_not] at *
    omega

namespace Impact

def has (s : Impact) (id : NodeId) : Bool := s.nodes.any (·.id = id)

def setNode (s : Impact) (node : Node) : Impact :=
  { s with nodes := if s.has node.id then s.nodes.map (fun n => if n.id = node.id then node else n)
      else s.nodes ++ [node] }

end Impact

abbrev Recursion := NodeId → Nat → Impact → Option Impact

def childStep (recurse : Recursion) (budget : Budget) (children : NodeId → Option Node)
    (currentDepth : Nat) (s : Impact) (edge : Edge) : Option Impact :=
  match children edge.target with
  | none => some s
  | some childNode =>
    if nearerThanBefore s.visited childNode.id currentDepth then
      if !s.has childNode.id then
        if budget.maxNodes ≤ s.nodes.length ∨ budget.maxEdges ≤ s.edges.length then
          some { s with truncated := true }
        else
          let s := s.setNode childNode
          recurse childNode.id currentDepth { s with edges := s.edges ++ [edge] }
      else recurse childNode.id currentDepth s
    else some s

def sourceStep (recurse : Recursion) (budget : Budget) (sources : NodeId → Option Node)
    (firstExpansion : Bool) (currentDepth : Nat) (s : Impact) (edge : Edge) : Option Impact :=
  match sources edge.source with
  | none => some s
  | some sourceNode =>
    if !s.has sourceNode.id ∧ budget.maxNodes ≤ s.nodes.length then
      some { s with truncated := true }
    else if budget.maxEdges ≤ s.edges.length then some { s with truncated := true }
    else
      let s := if firstExpansion then { s with edges := s.edges ++ [edge] } else s
      if nearerThanBefore s.visited sourceNode.id (currentDepth + 1) then
        let s := s.setNode sourceNode
        if isDocumentationNode sourceNode then
          some { s with visited := visitedSet s.visited sourceNode.id (currentDepth + 1) }
        else recurse sourceNode.id (currentDepth + 1) s
      else some s

def visitChildren (db : Database) (recurse : Recursion) (budget : Budget) (nodeId : NodeId)
    (currentDepth : Nat) (s : Impact) : Option Impact :=
  match db.getNodeById nodeId with
  | none => some s
  | some focalNode =>
    if focalNode.kind ∈ containerKinds then
      let remaining := budget.maxEdges - s.edges.length
      let fetched := db.getOutgoingEdges nodeId [.contains] (remaining + 1)
      let s := if remaining < fetched.length then { s with truncated := true } else s
      let containsEdges := fetched.take remaining
      let children := db.getNodesByIds (containsEdges.map Edge.target)
      containsEdges.foldlM (childStep recurse budget children currentDepth) s
    else some s

def visitSources (db : Database) (recurse : Recursion) (budget : Budget) (nodeId : NodeId)
    (firstExpansion : Bool) (currentDepth : Nat) (s : Impact) : Option Impact :=
  let remaining := budget.maxEdges - s.edges.length
  let fetched := db.getIncomingEdges nodeId IMPACT_INCOMING_KINDS (remaining + 1)
  let s := if remaining < fetched.length then { s with truncated := true } else s
  let incomingEdges := fetched.take remaining
  let sources := db.getNodesByIds (incomingEdges.map Edge.source)
  incomingEdges.foldlM (sourceStep recurse budget sources firstExpansion currentDepth) s

/-- The fuel bounds the nesting of the calls. -/
def getImpactRecursive (db : Database) (maxDepth : MaxDepth) (budget : Budget) : Nat → Recursion
  | 0, _, _, _ => none
  | fuel + 1, nodeId, currentDepth, s =>
    if !nearerThanBefore s.visited nodeId currentDepth then some s
    else
      let s := { s with visited := visitedSet s.visited nodeId currentDepth }
      if reachedLimit maxDepth currentDepth then some s
      else do
        let firstExpansion := decide (nodeId ∉ s.expanded)
        let recurse := getImpactRecursive db maxDepth budget fuel
        let s := { s with expanded := s.expanded.insert nodeId }
        let s ← visitChildren db recurse budget nodeId currentDepth s
        visitSources db recurse budget nodeId firstExpansion currentDepth s

def impactBudget (options : ImpactOptions) : Budget where
  maxNodes := (max 1 (options.maxNodes.getD DEFAULT_IMPACT_MAX_NODES)).toNat
  maxEdges := (max 0 (options.maxEdges.getD DEFAULT_IMPACT_MAX_EDGES)).toNat

/-- `none` stands for running out of fuel only. -/
def getImpactRadius (db : Database) (nodeId : NodeId) (maxDepth : MaxDepth := some 3)
    (options : ImpactOptions := {}) : Option Subgraph :=
  match db.getNodeById nodeId with
  | none => some ⟨[], [], [], false⟩
  | some focalNode => do
    let start : Impact := ⟨[focalNode], [], fun _ => none, [], false⟩
    let s ← getImpactRecursive db maxDepth (impactBudget options) (db.nodes.length + 1) nodeId 0 start
    return ⟨s.nodes, s.edges, [nodeId], s.truncated⟩

end CodeGraph.Graph
