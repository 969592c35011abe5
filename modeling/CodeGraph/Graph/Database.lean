import CodeGraph.Types

/-! The stored graph and the queries of the traversals. -/
namespace CodeGraph.Graph

abbrev NodeId := String

structure Node where
  id : NodeId
  kind : NodeKind
  language : Language
  deriving DecidableEq, Repr

structure Edge where
  id : Nat
  source : NodeId
  target : NodeId
  kind : EdgeKind
  line : Option Nat
  column : Option Nat
  deriving DecidableEq, Repr

def Edge.identity (e : Edge) : NodeId × NodeId × EdgeKind × Option Nat × Option Nat :=
  (e.source, e.target, e.kind, e.line, e.column)

structure Database where
  nodes : List Node
  edges : List Edge
  identities : (edges.map Edge.identity).Nodup

def kindOrder : EdgeKind → Nat
  | .calls => 0
  | .contains => 1
  | .decorates => 2
  | .exports => 3
  | .extends => 4
  | .implements => 5
  | .imports => 6
  | .instantiates => 7
  | .navigates => 8
  | .overrides => 9
  | .references => 10
  | .returns => 11
  | .typeOf => 12

/-- `ORDER BY kind, id`. -/
def byKindAndId (a b : Edge) : Prop :=
  kindOrder a.kind < kindOrder b.kind ∨ kindOrder a.kind = kindOrder b.kind ∧ a.id ≤ b.id

instance : DecidableRel byKindAndId := fun _ _ => inferInstanceAs (Decidable (_ ∨ _))

namespace Database

def getNodeById (db : Database) (id : NodeId) : Option Node := db.nodes.find? (·.id = id)

def getNodesByIds (db : Database) (ids : List NodeId) (id : NodeId) : Option Node :=
  if id ∈ ids then db.getNodeById id else none

def getOutgoingEdges (db : Database) (sourceId : NodeId) (kinds : List EdgeKind) (limit : Nat) :
    List Edge :=
  ((db.edges.filter fun e => e.source = sourceId ∧ e.kind ∈ kinds).insertionSort byKindAndId).take
    limit

def getIncomingEdges (db : Database) (targetId : NodeId) (kinds : List EdgeKind) (limit : Nat) :
    List Edge :=
  ((db.edges.filter fun e => e.target = targetId ∧ e.kind ∈ kinds).insertionSort byKindAndId).take
    limit

theorem getNodeById_id {db : Database} {id : NodeId} {node : Node}
    (found : db.getNodeById id = some node) : node.id = id := by
  simpa using List.find?_some found

theorem getNodeById_mem {db : Database} {id : NodeId} {node : Node}
    (found : db.getNodeById id = some node) : node ∈ db.nodes := List.mem_of_find?_eq_some found

theorem getNodesByIds_mem {db : Database} {ids : List NodeId} {id : NodeId} (member : id ∈ ids) :
    db.getNodesByIds ids id = db.getNodeById id := if_pos member

end Database

/-! ### The queries of the traversals, with the rows in whatever order the store lists them -/

structure Store where
  db : Database
  order : List Edge → List Edge
  order_perm : ∀ rows, (order rows).Perm rows

namespace Store

variable (store : Store)

def getOutgoingEdges (sourceId : NodeId) (kinds : List EdgeKind) : List Edge :=
  store.order (store.db.edges.filter fun e => e.source = sourceId ∧ (kinds = [] ∨ e.kind ∈ kinds))

def getIncomingEdges (targetId : NodeId) (kinds : List EdgeKind) : List Edge :=
  store.order (store.db.edges.filter fun e => e.target = targetId ∧ (kinds = [] ∨ e.kind ∈ kinds))

def getIncomingEdgesTo (targetIds : List NodeId) (kinds : List EdgeKind) : List Edge :=
  store.order (store.db.edges.filter fun e => e.target ∈ targetIds ∧ (kinds = [] ∨ e.kind ∈ kinds))

variable {store}

theorem mem_getOutgoingEdges {sourceId : NodeId} {kinds : List EdgeKind} {e : Edge} :
    e ∈ store.getOutgoingEdges sourceId kinds ↔
      e ∈ store.db.edges ∧ e.source = sourceId ∧ (kinds = [] ∨ e.kind ∈ kinds) := by
  rw [getOutgoingEdges, (store.order_perm _).mem_iff, List.mem_filter, decide_eq_true_eq]

theorem mem_getIncomingEdges {targetId : NodeId} {kinds : List EdgeKind} {e : Edge} :
    e ∈ store.getIncomingEdges targetId kinds ↔
      e ∈ store.db.edges ∧ e.target = targetId ∧ (kinds = [] ∨ e.kind ∈ kinds) := by
  rw [getIncomingEdges, (store.order_perm _).mem_iff, List.mem_filter, decide_eq_true_eq]

theorem mem_getIncomingEdgesTo {targetIds : List NodeId} {kinds : List EdgeKind} {e : Edge} :
    e ∈ store.getIncomingEdgesTo targetIds kinds ↔
      e ∈ store.db.edges ∧ e.target ∈ targetIds ∧ (kinds = [] ∨ e.kind ∈ kinds) := by
  rw [getIncomingEdgesTo, (store.order_perm _).mem_iff, List.mem_filter, decide_eq_true_eq]

theorem edges_nodup (db : Database) : db.edges.Nodup := db.identities.of_map _

theorem getOutgoingEdges_nodup (sourceId : NodeId) (kinds : List EdgeKind) :
    (store.getOutgoingEdges sourceId kinds).Nodup :=
  (store.order_perm _).nodup_iff.mpr ((edges_nodup store.db).filter _)

theorem getIncomingEdges_nodup (targetId : NodeId) (kinds : List EdgeKind) :
    (store.getIncomingEdges targetId kinds).Nodup :=
  (store.order_perm _).nodup_iff.mpr ((edges_nodup store.db).filter _)

end Store

def Database.store (db : Database) : Store where
  db := db
  order := List.insertionSort byKindAndId
  order_perm := List.perm_insertionSort byKindAndId

end CodeGraph.Graph
