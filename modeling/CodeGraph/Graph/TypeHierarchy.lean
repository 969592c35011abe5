import CodeGraph.Foundation.InsertionMap
import CodeGraph.Foundation.Text
import CodeGraph.Graph.Hierarchy

/-! The type hierarchy: what is above a type and what is below it. -/
namespace CodeGraph.Graph.TypeTree

open InsertionMap Text

/-! ### The stored graph -/

structure TypeNode extends Node where
  name : JsString
  filePath : JsString
  startLine : Nat
  deriving DecidableEq, Repr

structure TypeEdge extends Edge where
  provenance : Option Provenance
  deriving DecidableEq, Repr

structure TypeGraph where
  nodes : List TypeNode
  edges : List TypeEdge

def TypeGraph.getNodeById (graph : TypeGraph) (id : NodeId) : Option TypeNode :=
  graph.nodes.find? (·.id = id)

def TypeGraph.getNodesByIds (graph : TypeGraph) (ids : List NodeId) (id : NodeId) : Option TypeNode :=
  if id ∈ ids then graph.getNodeById id else none

structure TypeStore where
  graph : TypeGraph
  orderOut : List TypeEdge → List TypeEdge
  orderIn : List TypeEdge → List TypeEdge
  orderOut_perm : ∀ rows, (orderOut rows).Perm rows
  orderIn_perm : ∀ rows, (orderIn rows).Perm rows

def TypeGraph.inOrder (graph : TypeGraph) : TypeStore where
  graph := graph
  orderOut := id
  orderIn := id
  orderOut_perm := .refl
  orderIn_perm := .refl

namespace TypeStore

variable (store : TypeStore)

def getOutgoingEdgesFrom (sourceIds : List NodeId) (kinds : List EdgeKind) : List TypeEdge :=
  store.orderOut (store.graph.edges.filter fun e => e.source ∈ sourceIds ∧ e.kind ∈ kinds)

def getIncomingEdgesTo (targetIds : List NodeId) (kinds : List EdgeKind) : List TypeEdge :=
  store.orderIn (store.graph.edges.filter fun e => e.target ∈ targetIds ∧ e.kind ∈ kinds)

variable {store}

theorem mem_getOutgoingEdgesFrom {ids : List NodeId} {kinds : List EdgeKind} {e : TypeEdge} :
    e ∈ store.getOutgoingEdgesFrom ids kinds ↔
      e ∈ store.graph.edges ∧ e.source ∈ ids ∧ e.kind ∈ kinds := by
  rw [getOutgoingEdgesFrom, (store.orderOut_perm _).mem_iff, List.mem_filter, decide_eq_true_eq]

theorem mem_getIncomingEdgesTo {ids : List NodeId} {kinds : List EdgeKind} {e : TypeEdge} :
    e ∈ store.getIncomingEdgesTo ids kinds ↔
      e ∈ store.graph.edges ∧ e.target ∈ ids ∧ e.kind ∈ kinds := by
  rw [getIncomingEdgesTo, (store.orderIn_perm _).mem_iff, List.mem_filter, decide_eq_true_eq]

end TypeStore

/-! ### Entries -/

def HIERARCHY_NODE_KINDS : List NodeKind :=
  [.class, .interface, .struct, .trait, .protocol, .enum, .typeAlias, .union]

def OVERRIDABLE_KINDS : List NodeKind := [.method, .function, .property, .field]

def MAX_ANCESTOR_DEPTH : Nat := 8

def MAX_DESCENDANT_DEPTH : Nat := 6

def MAX_DESCENDANTS : Nat := 400

def MAX_OVERRIDE_ANCESTORS : Nat := 12

def DISPATCH_MIN_IMPLEMENTERS : Nat := 8

inductive HierarchyRelation where
  | extends | implements
  deriving DecidableEq, Repr

structure HierarchyEntry where
  node : TypeNode
  depth : Nat
  parentId : NodeId
  relation : HierarchyRelation
  edge : TypeEdge
  synthesized : Bool
  hiddenSubtypes : Nat

def entryIds (entries : List HierarchyEntry) : List NodeId := entries.map (·.node.id)

def relationOf (edge : TypeEdge) : HierarchyRelation :=
  if edge.kind = .implements then .implements else .extends

def isHeuristic (edge : TypeEdge) : Bool := edge.provenance = some .heuristic

def toEntry (node : TypeNode) (depth : Nat) (parentId : NodeId) (edge : TypeEdge) : HierarchyEntry :=
  { node, depth, parentId, edge
    relation := relationOf edge
    synthesized := isHeuristic edge
    hiddenSubtypes := 0 }

inductive WalkDirection where
  | up | down
  deriving DecidableEq

def hierarchyEdges (store : TypeStore) (ids : List NodeId) (direction : WalkDirection) :
    List TypeEdge :=
  let edges : List TypeEdge :=
    match direction with
    | .up => store.getOutgoingEdgesFrom ids HIERARCHY_KINDS
    | .down => store.getIncomingEdgesTo ids HIERARCHY_KINDS
  edges.filter fun e => e.kind = .extends ∨ e.kind = .implements

/-- `extends` first, then by name, by file and by line; no difference is zero. -/
def compareEntries (localeCompare : JsString → JsString → Int) (a b : HierarchyEntry) : Int :=
  let byRelation : Int := if a.relation = b.relation then 0 else if a.relation = .extends then -1 else 1
  let byName := localeCompare a.node.name b.node.name
  let byFile := localeCompare a.node.filePath b.node.filePath
  if byRelation ≠ 0 then byRelation
  else if byName ≠ 0 then byName
  else if byFile ≠ 0 then byFile
  else a.node.startLine - b.node.startLine

def sortLevel (localeCompare : JsString → JsString → Int) (level : List HierarchyEntry) :
    List HierarchyEntry :=
  level.insertionSort fun a b => compareEntries localeCompare a b ≤ 0

def ancestorRow (nodes : NodeId → Option TypeNode) (depth : Nat)
    (s : List HierarchyEntry × List NodeId) (edge : TypeEdge) : List HierarchyEntry × List NodeId :=
  match nodes edge.target with
  | none => s
  | some node =>
    if node.id ∈ s.2 then s else (s.1 ++ [toEntry node depth edge.source edge], s.2 ++ [node.id])

/-- The levels from `depth` on, of which `left` are left. -/
def ancestorLevels (store : TypeStore) (localeCompare : JsString → JsString → Int) :
    Nat → Nat → List HierarchyEntry → List NodeId → List NodeId → List HierarchyEntry
  | 0, _, out, _, _ => out
  | left + 1, depth, out, seen, frontier =>
    let edges := hierarchyEdges store frontier .up
    if frontier = [] ∨ edges = [] then out
    else
      let nodes := store.graph.getNodesByIds (edges.map (·.target))
      let scan := edges.foldl (ancestorRow nodes depth) ([], seen)
      let level := sortLevel localeCompare scan.1
      ancestorLevels store localeCompare left (depth + 1) (out ++ level) scan.2 (entryIds level)

def walkAncestors (store : TypeStore) (localeCompare : JsString → JsString → Int) (focus : TypeNode) :
    List HierarchyEntry :=
  ancestorLevels store localeCompare MAX_ANCESTOR_DEPTH 1 [] [focus.id] [focus.id]

/-! ### Down -/

structure LevelScan where
  level : List HierarchyEntry
  overflow : List (NodeId × Nat)
  levelSeen : List NodeId
  directTotal : Nat
  directImplementers : Nat
  bounded : Bool

/-- `extends` wins the relation. -/
def mergeRow (edge : TypeEdge) (existing : HierarchyEntry) : HierarchyEntry :=
  if existing.relation = .implements ∧ edge.kind = .extends then
    { existing with relation := .extends, edge := edge, synthesized := isHeuristic edge }
  else existing

def increment (overflow : List (NodeId × Nat)) (id : NodeId) : List (NodeId × Nat) :=
  assign overflow id ((lookup overflow id).getD 0 + 1)

/-- The entries that there are, the types seen, and the counts of the walk. -/
structure Fan where
  entries : List HierarchyEntry
  seen : List NodeId
  directTotal : Nat
  directImplementers : Nat
  bounded : Bool

def newRow (depth room : Nat) (s : LevelScan) (node : TypeNode) (edge : TypeEdge) : LevelScan :=
  let s :=
    if depth = 1 then
      { s with
        directTotal := s.directTotal + 1
        directImplementers := s.directImplementers + if edge.kind = .implements then 1 else 0 }
    else s
  if room ≤ s.level.length then
    { s with
      bounded := true
      overflow := increment s.overflow edge.target
      levelSeen := s.levelSeen ++ [node.id] }
  else
    { s with
      levelSeen := s.levelSeen ++ [node.id]
      level := s.level ++ [toEntry node depth edge.target edge] }

/-- One round of the loop over the rows of a level; there is room for `room` entries in it. -/
def descendantRow (nodes : NodeId → Option TypeNode) (depth room : Nat) (seen : List NodeId)
    (s : LevelScan) (edge : TypeEdge) : LevelScan :=
  match nodes edge.source with
  | none => s
  | some node =>
    if node.id ∈ seen then s
    else if node.id ∈ s.levelSeen ∧ node.id ∈ entryIds s.level then
      { s with level := s.level.map fun e => if e.node.id = node.id then mergeRow edge e else e }
    else newRow depth room s node edge

/-- `parent.hiddenSubtypes += count`, for the entry of the map that has the id. -/
def addHidden (entries : List HierarchyEntry) (overflow : NodeId × Nat) : List HierarchyEntry :=
  entries.map fun e =>
    if e.node.id = overflow.1 then { e with hiddenSubtypes := e.hiddenSubtypes + overflow.2 } else e

def belowLast (seen : List NodeId) (s : List HierarchyEntry × Bool) (edge : TypeEdge) :
    List HierarchyEntry × Bool :=
  if edge.source ∈ seen then s else (addHidden s.1 (edge.target, 1), true)

def descendantLevels (store : TypeStore) (localeCompare : JsString → JsString → Int) :
    Nat → Nat → Fan → List NodeId → Fan
  | 0, _, fan, _ => fan
  | left + 1, depth, fan, frontier =>
    let edges := hierarchyEdges store frontier .down
    if frontier = [] ∨ edges = [] then fan
    else
      let nodes := store.graph.getNodesByIds (edges.map (·.source))
      let scan := edges.foldl
        (descendantRow nodes depth (MAX_DESCENDANTS - fan.entries.length) fan.seen)
        ⟨[], [], [], fan.directTotal, fan.directImplementers, fan.bounded⟩
      let level := sortLevel localeCompare scan.level
      let fan : Fan :=
        { entries := scan.overflow.foldl addHidden (fan.entries ++ level)
          seen := fan.seen ++ entryIds scan.level
          directTotal := scan.directTotal
          directImplementers := scan.directImplementers
          bounded := scan.bounded }
      if fan.bounded then fan
      else
        let frontier := entryIds level
        if depth = MAX_DESCENDANT_DEPTH ∧ frontier ≠ [] then
          let last := (hierarchyEdges store frontier .down).foldl (belowLast fan.seen)
            (fan.entries, fan.bounded)
          descendantLevels store localeCompare left (depth + 1)
            { fan with entries := last.1, bounded := last.2 } frontier
        else descendantLevels store localeCompare left (depth + 1) fan frontier

def walkDescendants (store : TypeStore) (localeCompare : JsString → JsString → Int)
    (focus : TypeNode) : Fan :=
  descendantLevels store localeCompare MAX_DESCENDANT_DEPTH 1 ⟨[], [focus.id], 0, 0, false⟩ [focus.id]

/-- A member of the focus that redeclares a member of one of its ancestors. -/
structure OverrideMatch where
  memberId : NodeId
  baseId : NodeId
  baseTypeId : NodeId
  baseTypeName : JsString
  relation : HierarchyRelation

def membersOf (store : TypeStore) (containerIds : List NodeId) : List (TypeNode × NodeId) :=
  let edges := store.getOutgoingEdgesFrom containerIds [.contains]
  let nodes := store.graph.getNodesByIds (edges.map (·.target))
  let out := edges.filterMap fun edge => (nodes edge.target).map fun member => (member, edge.source)
  let rank (id : NodeId) : Nat := containerIds.idxOf id
  out.insertionSort fun a b =>
    rank a.2 < rank b.2 ∨ rank a.2 = rank b.2 ∧ a.1.startLine ≤ b.1.startLine

def basesByName (baseMembers : List (TypeNode × NodeId)) : List (JsString × TypeNode × NodeId) :=
  baseMembers.foldl
    (fun byName base =>
      if (lookup byName base.1.name).isSome then byName else assign byName base.1.name base) []

def overrideOf (byName : List (JsString × TypeNode × NodeId)) (chain : List HierarchyEntry)
    (member : TypeNode) : Option OverrideMatch :=
  if member.kind ∈ OVERRIDABLE_KINDS then
    match lookup byName member.name with
    | none => none
    | some base =>
      if base.1.id = member.id then none
      else
        (chain.find? (·.node.id = base.2)).map fun owner =>
          ⟨member.id, base.1.id, owner.node.id, owner.node.name, owner.relation⟩
  else none

def matchOverrides (store : TypeStore) (focus : TypeNode) (ancestors : List HierarchyEntry) :
    List (NodeId × OverrideMatch) :=
  let chain := ancestors.take MAX_OVERRIDE_ANCESTORS
  let byName := basesByName (membersOf store (entryIds chain))
  (membersOf store [focus.id]).foldl
    (fun result own =>
      match overrideOf byName chain own.1 with
      | none => result
      | some found => assign result own.1.id found) []

structure TypeHierarchy where
  focus : TypeNode
  ancestors : List HierarchyEntry
  descendants : List HierarchyEntry
  directSubtypes : Nat
  directImplementers : Nat
  bounded : Bool
  polymorphic : Bool
  overrides : List (NodeId × OverrideMatch)

def canHaveHierarchy (node : TypeNode) : Bool := node.kind ∈ HIERARCHY_NODE_KINDS

def buildTypeHierarchy (store : TypeStore) (localeCompare : JsString → JsString → Int)
    (focus : TypeNode) (overrides : Bool := true) : Option TypeHierarchy :=
  if !canHaveHierarchy focus then none
  else
    let ancestors := walkAncestors store localeCompare focus
    let down := walkDescendants store localeCompare focus
    if ancestors = [] ∧ down.entries = [] then none
    else some
      { focus, ancestors
        descendants := down.entries
        directSubtypes := down.directTotal
        directImplementers := down.directImplementers
        bounded := down.bounded
        polymorphic := DISPATCH_MIN_IMPLEMENTERS ≤ down.directImplementers
        overrides := if overrides then matchOverrides store focus ancestors else [] }

end CodeGraph.Graph.TypeTree
