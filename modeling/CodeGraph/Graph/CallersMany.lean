import CodeGraph.Foundation.FirstByKey
import CodeGraph.Graph.Callers

/-! The direct callers of many nodes at once. -/
namespace CodeGraph.Graph

open Distance FirstByKey

def callerKey (edge : Edge) : String := edge.target ++ "\u001f" ++ edge.source

def manyStep (nodes : NodeId → Option Node) (s : List String × List (Node × Edge)) (edge : Edge) :
    List String × List (Node × Edge) :=
  match nodes edge.source with
  | none => s
  | some node =>
    if callerKey edge ∈ s.1 then s else (callerKey edge :: s.1, s.2 ++ [(node, edge)])

def getCallersMany (store : Store) (nodeIds : List NodeId) : List (Node × Edge) :=
  if nodeIds = [] then []
  else
    let incoming := store.getIncomingEdgesTo nodeIds CALL_EDGE_KINDS
    let nodes := store.db.getNodesByIds (incoming.map Edge.source)
    (incoming.foldl (manyStep nodes) ([], [])).2

/-! ### Against separate calls -/

def callerPair (row : Node × Edge) : NodeId × NodeId := (row.1.id, row.2.target)

def AgreesWithSeparateCalls (store : Store) (nodeIds : List NodeId) : Prop :=
  ((getCallersMany store nodeIds).map callerPair).Nodup ∧
    ∀ pair, pair ∈ (getCallersMany store nodeIds).map callerPair ↔
      ∃ id ∈ nodeIds, ∃ rows, getCallers store id (some 1) = some rows ∧ pair ∈ rows.map callerPair

def callerRows (store : Store) (nodeIds : List NodeId) : List Edge :=
  (store.getIncomingEdgesTo nodeIds CALL_EDGE_KINDS).filter fun e =>
    (store.db.getNodeById e.source).isSome

/-- No row is a node's call of itself, unless an earlier row has the same key, and the keys tell
callers and targets apart. -/
def Distinguished (store : Store) (nodeIds : List NodeId) : Prop :=
  (∀ e, First callerKey (callerRows store nodeIds) e → e.source ≠ e.target) ∧
    ∀ e ∈ callerRows store nodeIds, ∀ f ∈ callerRows store nodeIds, e.source ≠ e.target →
      f.source ≠ f.target → callerKey e = callerKey f → e.source = f.source ∧ e.target = f.target

theorem mem_callerRows {store : Store} {nodeIds : List NodeId} {e : Edge} :
    e ∈ callerRows store nodeIds ↔ e ∈ store.db.edges ∧ e.target ∈ nodeIds ∧
      e.kind ∈ CALL_EDGE_KINDS ∧ (store.db.getNodeById e.source).isSome := by
  rw [callerRows, List.mem_filter, Store.mem_getIncomingEdgesTo]
  simp [CALL_EDGE_KINDS, and_assoc]

private theorem manyLoop_eq {db : Database} {nodes : NodeId → Option Node} {es : List Edge}
    (looked : ∀ e ∈ es, nodes e.source = db.getNodeById e.source)
    (s : List String × List (Node × Edge)) :
    (es.foldl (manyStep nodes) s).2.map callerPair = s.2.map callerPair ++
      (keepNew callerKey s.1 (es.filter fun e => (db.getNodeById e.source).isSome)).map
        fun e => (e.source, e.target) := by
  induction es generalizing s with
  | nil => simp [keepNew]
  | cons e es ih =>
    have later := fun f h => looked f (List.mem_cons_of_mem e h)
    rw [List.foldl_cons, ih later, manyStep, looked e List.mem_cons_self]
    cases found : db.getNodeById e.source with
    | none => rw [List.filter_cons_of_neg (by simp [found])]
    | some node =>
      have named := Database.getNodeById_id found
      rw [List.filter_cons_of_pos (by simp [found]), keepNew]
      simp only
      split
      · rfl
      · simp [callerPair, named]

theorem getCallersMany_pairs (store : Store) (nodeIds : List NodeId) :
    (getCallersMany store nodeIds).map callerPair =
      (keepNew callerKey [] (callerRows store nodeIds)).map fun e => (e.source, e.target) := by
  unfold getCallersMany
  split
  · next none_ =>
    have rows : callerRows store nodeIds = [] := by
      refine List.eq_nil_iff_forall_not_mem.mpr fun e member => ?_
      have target := (mem_callerRows.mp member).2.1
      rw [none_] at target
      cases target
    rw [rows]
    rfl
  · exact manyLoop_eq (fun e member => Database.getNodesByIds_mem (List.mem_map_of_mem member)) _

private theorem direct_target {db : Database} {id : NodeId} {rows : List (Node × Edge)}
    (neighbourhood : Neighbourhood db Edge.target Edge.source id (some 1) rows)
    {row : Node × Edge} (member : row ∈ rows) : row.2.target = id := by
  obtain ⟨-, -, -, d, distance, within⟩ := neighbourhood.edges row member
  have zero : d = 0 := by
    have below := within 1 rfl
    omega
  subst zero
  have walk := distance.1
  cases walk
  rfl

/-- A separate call reports the existing nodes other than the target that call it. -/
theorem separate_pairs {store : Store} {nodeIds : List NodeId} {pair : NodeId × NodeId} :
    (∃ id ∈ nodeIds, ∃ rows, getCallers store id (some 1) = some rows ∧
        pair ∈ rows.map callerPair) ↔
      ∃ e ∈ callerRows store nodeIds, e.source ≠ e.target ∧ pair = (e.source, e.target) := by
  constructor
  · rintro ⟨id, asked, rows, returned, member⟩
    obtain ⟨others, same, neighbourhood⟩ := getCallers_neighbourhood store id (some 1)
    cases returned.symm.trans same
    obtain ⟨row, listed, rfl⟩ := List.mem_map.mp member
    obtain ⟨edge, kind, leads, -⟩ := neighbourhood.edges row listed
    have target := direct_target neighbourhood listed
    obtain ⟨d, distance, some_, -⟩ :=
      (neighbourhood.exact row.1.id).mp (List.mem_map_of_mem listed)
    have found : (store.db.getNodeById row.2.source).isSome := by
      rw [leads, neighbourhood.nodes row listed]
      rfl
    refine ⟨row.2, mem_callerRows.mpr ⟨edge, target ▸ asked, kind, found⟩, ?_, ?_⟩
    · rw [leads, target]
      exact (distance_pos distance).mp some_
    · rw [callerPair, leads]
  · rintro ⟨e, listed, other, rfl⟩
    obtain ⟨edge, asked, kind, found⟩ := mem_callerRows.mp listed
    obtain ⟨rows, returned, neighbourhood⟩ := getCallers_neighbourhood store e.target (some 1)
    refine ⟨e.target, asked, rows, returned, ?_⟩
    have walk : Walk (CallEdge store.db Edge.target Edge.source) e.target 1 e.source :=
      Walk.start.step ⟨e, edge, kind, rfl, rfl, found⟩
    obtain ⟨d, near_, distance⟩ := walk.distance
    have within : withinDepth (some 1) d := by
      intro limit bound
      cases bound
      omega
    have reported := (neighbourhood.exact e.source).mpr
      ⟨d, distance, (distance_pos distance).mpr other, within⟩
    obtain ⟨row, member, same⟩ := List.mem_map.mp reported
    refine List.mem_map.mpr ⟨row, member, ?_⟩
    rw [callerPair, same, direct_target neighbourhood member]

/-- The batch agrees with the separate calls exactly if it lists no node as its own caller and its
keys tell the pairs apart. -/
theorem callers_many_agree (store : Store) (nodeIds : List NodeId) :
    AgreesWithSeparateCalls store nodeIds ↔ Distinguished store nodeIds := by
  have reported : ∀ pair, pair ∈ (getCallersMany store nodeIds).map callerPair ↔
      ∃ e, First callerKey (callerRows store nodeIds) e ∧ (e.source, e.target) = pair := by
    intro pair
    rw [getCallersMany_pairs, List.mem_map]
    simp only [mem_keepNew, List.not_mem_nil, not_false_eq_true, true_and]
  simp only [AgreesWithSeparateCalls, reported, separate_pairs]
  constructor
  · rintro ⟨-, agree⟩
    have reaches : ∀ e ∈ callerRows store nodeIds, e.source ≠ e.target →
        ∃ f, First callerKey (callerRows store nodeIds) f ∧ f.source = e.source ∧
          f.target = e.target := by
      intro e listed other
      obtain ⟨f, first, same⟩ := (agree (e.source, e.target)).mpr ⟨e, listed, other, rfl⟩
      exact ⟨f, first, congrArg Prod.fst same, congrArg Prod.snd same⟩
    constructor
    · intro e first self
      obtain ⟨f, -, other, same⟩ := (agree (e.source, e.target)).mp ⟨e, first, rfl⟩
      obtain ⟨source, target⟩ := Prod.mk.inj same
      exact other (source.symm.trans (self.trans target))
    · intro e he f hf otherE otherF same
      obtain ⟨e', firstE, sourceE, targetE⟩ := reaches e he otherE
      obtain ⟨f', firstF, sourceF, targetF⟩ := reaches f hf otherF
      have equal : callerKey e' = callerKey f' := by
        simp only [callerKey, sourceE, targetE, sourceF, targetF]
        exact same
      have one := firstE.unique firstF equal
      subst one
      exact ⟨sourceE.symm.trans sourceF, targetE.symm.trans targetF⟩
  · rintro ⟨noSelf, apart⟩
    constructor
    · rw [getCallersMany_pairs]
      have keys : (keepNew callerKey [] (callerRows store nodeIds)).map callerKey =
          ((keepNew callerKey [] (callerRows store nodeIds)).map fun e => (e.source, e.target)).map
            fun pair => pair.2 ++ "\u001f" ++ pair.1 := by
        rw [List.map_map]
        rfl
      exact List.Nodup.of_map _ (keys ▸ keepNew_keys_nodup)
    · intro pair
      constructor
      · rintro ⟨e, first, rfl⟩
        exact ⟨e, first.mem, noSelf e first, rfl⟩
      · rintro ⟨e, listed, other, rfl⟩
        obtain ⟨f, first, same⟩ := exists_first callerKey listed
        obtain ⟨source, target⟩ := apart f first.mem e listed (noSelf f first) other same
        exact ⟨f, first, by rw [source, target]⟩

def selfCall : Database where
  nodes := [⟨"function:f", .function, .typescript⟩]
  edges := [⟨1, "function:f", "function:f", .calls, some 2, none⟩]
  identities := by decide

/-- The batch lists it as its own caller, the call for one level lists nothing. -/
theorem callers_many_disagree :
    (getCallersMany selfCall.store ["function:f"]).map callerPair = [("function:f", "function:f")] ∧
      getCallers selfCall.store "function:f" (some 1) = some [] ∧
      ¬AgreesWithSeparateCalls selfCall.store ["function:f"] := by
  have batch : (getCallersMany selfCall.store ["function:f"]).map callerPair =
      [("function:f", "function:f")] := by decide +kernel
  have alone : getCallers selfCall.store "function:f" (some 1) = some [] := by decide +kernel
  refine ⟨batch, alone, fun ⟨_, agree⟩ => ?_⟩
  have listed := (agree ("function:f", "function:f")).mp (by rw [batch]; exact List.mem_cons_self)
  obtain ⟨id, asked, rows, returned, member⟩ := listed
  rw [List.mem_singleton.mp asked, alone] at returned
  cases returned
  cases member

end CodeGraph.Graph
