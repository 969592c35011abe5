import CodeGraph.Graph.DirectRows

/-!
# One side of the directed flow

What a side has reached after some levels: the nodes up to a distance, each by a link from a node
that is one step nearer.
-/
namespace CodeGraph.Graph.DirectedFlow

open Distance FirstByKey InsertionMap

variable {db : Database} {a b x : NodeId}

/-! ### The rows that are seen -/

def Hop (db : Database) (a b : NodeId) : Prop :=
  (db.getNodeById a).isSome ∧ (db.getNodeById b).isSome ∧ ∃ e, Joins db a b e ∧
    ∀ f ∈ db.edges, f.source = a → f.target = b → f.kind ∈ CALL_EDGE_KINDS →
      kindOrder e.kind ≤ kindOrder f.kind

theorem flow_call {kind : EdgeKind} (flow : kind ∈ FLOW_EDGE_KINDS) : kind ∈ CALL_EDGE_KINDS := by
  revert kind
  decide

theorem kindOrder_injective {k l : EdgeKind} (same : kindOrder k = kindOrder l) : k = l := by
  cases k <;> cases l <;> first | rfl | cases same

theorem sorted_rows (es : List Edge) :
    (es.insertionSort byKindAndId).Pairwise byKindAndId := by
  have total : Std.Total byKindAndId := ⟨fun e f => by
    simp only [byKindAndId]
    omega⟩
  have trans_ : IsTrans Edge byKindAndId := ⟨fun e f g one other => by
    simp only [byKindAndId] at one other ⊢
    omega⟩
  exact List.pairwise_insertionSort _ _

theorem first_least {far : Edge → NodeId} {es : List Edge} {p : Edge → Bool} {e f : Edge}
    (first : First far ((es.insertionSort byKindAndId).filter p) e) (listed : f ∈ es)
    (passes : p f = true) (same : far f = far e) : kindOrder e.kind ≤ kindOrder f.kind := by
  obtain ⟨before, after, parts, others⟩ := first
  have sorted := (sorted_rows es).filter p
  have member : f ∈ (es.insertionSort byKindAndId).filter p :=
    List.mem_filter.mpr ⟨(List.mem_insertionSort _).mpr listed, passes⟩
  rw [parts] at sorted member
  rcases List.mem_append.mp member with earlier | later
  · exact absurd same (others f earlier)
  · rcases List.mem_cons.mp later with rfl | later
    · exact Nat.le_refl _
    · have ordered := (List.pairwise_cons.mp (List.pairwise_append.mp sorted).2.1).1 f later
      simp only [byKindAndId] at ordered
      omega

structure Neighbours (db : Database) (step : NodeId → NodeId → Prop)
    (joins : NodeId → NodeId → Edge → Prop) (neighbours : NodeId → List (Node × Edge)) : Prop where
  sound : ∀ a node e, (db.getNodeById a).isSome → (node, e) ∈ neighbours a →
    e.kind ∈ FLOW_EDGE_KINDS → db.getNodeById node.id = some node ∧ step a node.id ∧
      joins a node.id e
  complete : ∀ a b, step a b → a ≠ b →
    ∃ row ∈ neighbours a, row.2.kind ∈ FLOW_EDGE_KINDS ∧ row.1.id = b

section Rows

variable (near far : Edge → NodeId)

def JoinsBy (db : Database) (a b : NodeId) (e : Edge) : Prop :=
  e ∈ db.edges ∧ e.kind ∈ FLOW_EDGE_KINDS ∧ near e = a ∧ far e = b

def HopBy (db : Database) (a b : NodeId) : Prop :=
  (db.getNodeById a).isSome ∧ (db.getNodeById b).isSome ∧ ∃ e, JoinsBy near far db a b e ∧
    ∀ f ∈ db.edges, near f = a → far f = b → f.kind ∈ CALL_EDGE_KINDS →
      kindOrder e.kind ≤ kindOrder f.kind

def rowsBy (db : Database) (id : NodeId) : List Edge :=
  (db.edges.filter fun e => near e = id ∧ e.kind ∈ CALL_EDGE_KINDS).insertionSort byKindAndId

theorem mem_rowsBy {id : NodeId} {e : Edge} :
    e ∈ rowsBy near db id ↔ e ∈ db.edges ∧ near e = id ∧ e.kind ∈ CALL_EDGE_KINDS := by
  rw [rowsBy, List.mem_insertionSort, List.mem_filter, decide_eq_true_eq]

theorem directRows_neighbours (db : Database) :
    Neighbours db (HopBy near far db) (JoinsBy near far db)
      (fun id => directRows db far id (rowsBy near db id)) := by
  constructor
  · intro a node e exists_ row flow
    obtain ⟨found, -, first⟩ := mem_directRows.mp row
    have named : node.id = far e := Database.getNodeById_id found
    obtain ⟨stored, source, -⟩ := (mem_rowsBy near).mp (List.mem_filter.mp first.mem).1
    have joins : JoinsBy near far db a node.id e := ⟨stored, flow, source, named.symm⟩
    refine ⟨named ▸ found, ⟨exists_, by rw [named, found]; rfl, e, joins, ?_⟩, joins⟩
    intro f other from_ into kind
    apply first_least first
    · exact List.mem_filter.mpr ⟨other, decide_eq_true ⟨from_, kind⟩⟩
    · rw [into, named, found]
      rfl
    · rw [into, named]
  · rintro a b ⟨-, exists_, e, ⟨stored, flow, from_, into⟩, least⟩ other
    have listed : e ∈ (rowsBy near db a).filter fun e => (db.getNodeById (far e)).isSome :=
      List.mem_filter.mpr ⟨(mem_rowsBy near).mpr ⟨stored, from_, flow_call flow⟩, by rwa [into]⟩
    obtain ⟨f, first, same⟩ := exists_first far listed
    obtain ⟨row, -⟩ := List.mem_filter.mp first.mem
    obtain ⟨stored', from', kind'⟩ := (mem_rowsBy near).mp row
    have into' : far f = b := same.trans into
    have le := least f stored' from' into' kind'
    have ge : kindOrder f.kind ≤ kindOrder e.kind := by
      apply first_least first
      · exact List.mem_filter.mpr ⟨stored, decide_eq_true ⟨from_, flow_call flow⟩⟩
      · rwa [into]
      · exact same.symm
    have kinds : f.kind = e.kind := kindOrder_injective (Nat.le_antisymm ge le)
    obtain ⟨node, found⟩ := Option.isSome_iff_exists.mp exists_
    refine ⟨(node, f), mem_directRows.mpr ⟨into' ▸ found, fun self => other ?_, first⟩, ?_, ?_⟩
    · exact (into'.symm.trans self).symm
    · exact kinds ▸ flow
    · exact Database.getNodeById_id found

end Rows

theorem calleesOf_eq (db : Database) (id : NodeId) :
    calleesOf db id = directRows db Edge.target id (rowsBy Edge.source db id) := by
  have rows : db.store.getOutgoingEdges id CALL_EDGE_KINDS = rowsBy Edge.source db id := by
    simp [Store.getOutgoingEdges, Database.store, rowsBy, CALL_EDGE_KINDS]
  rw [calleesOf, getCallees, callsFrom_direct, rows]
  rfl

theorem callersOf_eq (db : Database) (id : NodeId) :
    callersOf db id = directRows db Edge.source id (rowsBy Edge.target db id) := by
  have rows : db.store.getIncomingEdges id CALL_EDGE_KINDS = rowsBy Edge.target db id := by
    simp [Store.getIncomingEdges, Database.store, rowsBy, CALL_EDGE_KINDS]
  rw [callersOf, getCallers, callsFrom_direct, rows]
  rfl

theorem calleesOf_neighbours (db : Database) :
    Neighbours db (Hop db) (Joins db) (calleesOf db) := by
  have same : calleesOf db = fun id => directRows db Edge.target id (rowsBy Edge.source db id) :=
    funext (calleesOf_eq db)
  rw [same]
  exact directRows_neighbours Edge.source Edge.target db

theorem callersOf_neighbours (db : Database) :
    Neighbours db (fun b a => Hop db a b) (fun b a => Joins db a b) (callersOf db) := by
  have same : callersOf db = fun id => directRows db Edge.source id (rowsBy Edge.target db id) :=
    funext (callersOf_eq db)
  have swap : ∀ a b e, JoinsBy Edge.target Edge.source db b a e ↔ Joins db a b e := by
    intro a b e
    rw [JoinsBy, Joins]
    tauto
  have hops : ∀ a b, HopBy Edge.target Edge.source db b a ↔ Hop db a b := by
    intro a b
    simp only [HopBy, Hop, swap]
    constructor
    · rintro ⟨second, first, e, joins, least⟩
      exact ⟨first, second, e, joins, fun f listed from_ into => least f listed into from_⟩
    · rintro ⟨first, second, e, joins, least⟩
      exact ⟨second, first, e, joins, fun f listed into from_ => least f listed from_ into⟩
  have rows := directRows_neighbours Edge.target Edge.source db
  rw [same]
  constructor
  · intro b node e exists_ row flow
    obtain ⟨found, hop, joins⟩ := rows.sound b node e exists_ row flow
    exact ⟨found, (hops node.id b).mp hop, (swap node.id b e).mp joins⟩
  · intro b a hop other
    exact rows.complete b a ((hops a b).mpr hop) other

end CodeGraph.Graph.DirectedFlow
