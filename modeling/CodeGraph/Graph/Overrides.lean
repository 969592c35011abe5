import CodeGraph.Foundation.Gathering
import CodeGraph.Foundation.InsertionMap
import CodeGraph.Foundation.Text
import CodeGraph.Graph.Database

/-!
# Members that override something

The walk up the supertypes of all containers at once, and the members it drops from the dead code
(`graph/dead-code.ts`).
-/
namespace CodeGraph.Graph.DeadCode

open Gathering InsertionMap Text

structure MemberNode extends Node where
  name : JsString
  deriving DecidableEq, Repr

structure UnresolvedRef where
  fromNodeId : NodeId
  referenceName : JsString
  referenceKind : ReferenceKind
  deriving DecidableEq, Repr

/-- The tables that the walk asks, with the rows of each query in any order. -/
structure Index where
  nodes : List MemberNode
  edges : List Edge
  unresolvedRefs : List UnresolvedRef
  order : List NodeId → List Edge → List Edge
  order_perm : ∀ ids rows, (order ids rows).Perm rows

namespace Index

variable (cg : Index)

def getOutgoingEdgesFrom (sourceIds : List NodeId) (kinds : List EdgeKind) : List Edge :=
  cg.order sourceIds (cg.edges.filter fun e => e.source ∈ sourceIds ∧ (kinds = [] ∨ e.kind ∈ kinds))

def getNodesByIds (ids : List NodeId) (id : NodeId) : Option MemberNode :=
  if id ∈ ids then cg.nodes.find? (·.id = id) else none

def getUnresolvedSupertypeSourcesAmong (nodeIds : List NodeId) : List NodeId :=
  nodeIds.filter fun id => cg.unresolvedRefs.any fun r =>
    r.fromNodeId = id && r.referenceKind ∈ [.edge .extends, .edge .implements]

end Index

def MAX_OVERRIDE_ANCESTOR_DEPTH : Nat := 8

def OVERRIDABLE_KINDS : List NodeKind := [.method, .function, .property, .field]

abbrev IdSets := List (NodeId × List NodeId)

/-- The nodes reached so far, with the roots that reach them; the roots seen at each node; and the
next level, with the roots that have just come to it. -/
structure AncestorWalk where
  reach : IdSets
  seen : IdSets
  next : IdSets

/-- The roots of a node that come to the target of its edge for the first time are added to the
target's three sets. -/
def propagate (sets : List NodeId × List NodeId × List NodeId) (root : NodeId) :
    List NodeId × List NodeId × List NodeId :=
  let (visited, merged, known) := sets
  if root ∈ visited then (visited, merged, known)
  else (addTo visited root, addTo merged root, addTo known root)

def ancestorStep (rootsOf : IdSets) (s : AncestorWalk) (edge : Edge) : AncestorWalk :=
  if edge.target = edge.source then s
  else
    match lookup rootsOf edge.source with
    | none => s
    | some roots =>
      let (visited, merged, known) := roots.foldl propagate
        (members s.seen edge.target, members s.next edge.target, members s.reach edge.target)
      { seen := assign s.seen edge.target visited
        next := if merged = [] then s.next else assign s.next edge.target merged
        reach := if known = [] then s.reach else assign s.reach edge.target known }

/-- `new Map(entries)` -/
def mapOf (entries : IdSets) : IdSets := entries.foldl (fun m e => assign m e.1 e.2) []

def ancestorLevels (cg : Index) (kinds : List EdgeKind) : Nat → IdSets → IdSets → IdSets → IdSets
  | 0, _, reach, _ => reach
  | depth + 1, frontier, reach, seen =>
    if frontier = [] then reach
    else
      let edges := cg.getOutgoingEdgesFrom (frontier.map Prod.fst) kinds
      let s := edges.foldl (ancestorStep (mapOf frontier)) ⟨reach, seen, []⟩
      ancestorLevels cg kinds depth s.next s.reach s.seen

def ancestorsOf (cg : Index) (ids : List NodeId) (kinds : List EdgeKind) : IdSets :=
  ancestorLevels cg kinds MAX_OVERRIDE_ANCESTOR_DEPTH (ids.map fun id => (id, [id])) []
    (mapOf (ids.map fun id => (id, [id])))

/-- What is known of the containers: those with an ancestor that cannot be read, and the names that
the ancestors of each declare. -/
structure Inherited where
  opaqueContainers : List NodeId
  namesByContainer : List (NodeId × List JsString)

def inheritFrom (names : List JsString) (s : Inherited) (root : NodeId) : Inherited :=
  if names = [] then { s with opaqueContainers := addTo s.opaqueContainers root }
  else { s with
    namesByContainer := assign s.namesByContainer root
      (names.foldl addTo (members s.namesByContainer root)) }

def externalContainers (cg : Index) (containerIds : List NodeId) (reach : IdSets) : List NodeId :=
  let externalBased :=
    cg.getUnresolvedSupertypeSourcesAmong (containerIds ++ reach.map Prod.fst)
  let own := containerIds.foldl (fun set id => if id ∈ externalBased then addTo set id else set) []
  reach.foldl (fun set e => if e.1 ∈ externalBased then e.2.foldl addTo set else set) own

def memberNames (cg : Index) (ancestorIds : List NodeId) (ancestorId : NodeId) : List JsString :=
  let memberEdges := cg.getOutgoingEdgesFrom ancestorIds [.contains]
  let memberIdsByAncestor := memberEdges.foldl (fun m edge => push m edge.source edge.target) []
  let memberNodes := cg.getNodesByIds (memberEdges.map Edge.target)
  (members memberIdsByAncestor ancestorId).filterMap fun memberId =>
    (memberNodes memberId).bind fun member =>
      if member.kind ∈ OVERRIDABLE_KINDS then some member.name else none

def inheritedBy (cg : Index) (containerIds : List NodeId) : Inherited :=
  let reach := ancestorsOf cg containerIds [.extends, .implements]
  reach.foldl (fun s e => e.2.foldl (inheritFrom (memberNames cg (reach.map Prod.fst) e.1)) s)
    ⟨externalContainers cg containerIds reach, []⟩

/-- A member is dropped if its container is opaque or an ancestor declares its name. -/
def dropStep (inherited : Inherited) (containers : List (NodeId × MemberNode))
    (dropped : List NodeId) (node : MemberNode) : List NodeId :=
  match lookup containers node.id with
  | none => dropped
  | some container =>
    if container.id ∈ inherited.opaqueContainers then addTo dropped node.id
    else if node.name ∈ members inherited.namesByContainer container.id then addTo dropped node.id
    else dropped

def overrideCandidates (cg : Index) (nodes : List MemberNode)
    (containers : List (NodeId × MemberNode)) : List NodeId :=
  let containerIds := containers.foldl (fun set e => addTo set e.2.id) []
  if containerIds = [] then []
  else nodes.foldl (dropStep (inheritedBy cg containerIds) containers) []

end CodeGraph.Graph.DeadCode
