import CodeGraph.Foundation.DepthFirst
import CodeGraph.Graph.Impact

/-! The supertypes and subtypes of a type. -/
namespace CodeGraph.Graph

open Relation DepthFirst

def HIERARCHY_KINDS : List EdgeKind := [.extends, .implements]

/-- The data of the two walks; the map and the set are in the order of insertion. -/
structure HierarchyWalk where
  nodes : List Node
  edges : List Edge
  visited : List NodeId

def typeRow (far : Edge → NodeId) (found : NodeId → Option Node)
    (walk : NodeId → HierarchyWalk → Option HierarchyWalk) (s : HierarchyWalk) (edge : Edge) :
    Option HierarchyWalk :=
  match found (far edge) with
  | none => some s
  | some node =>
    if node.id ∈ s.nodes.map Node.id then some s
    else walk node.id { s with nodes := s.nodes ++ [node], edges := s.edges ++ [edge] }

def typeWalk (db : Database) (rows : NodeId → List Edge) (far : Edge → NodeId) :
    Nat → NodeId → HierarchyWalk → Option HierarchyWalk
  | 0, _, _ => none
  | fuel + 1, nodeId, s =>
    if nodeId ∈ s.visited then some s
    else
      let found := db.getNodesByIds ((rows nodeId).map far)
      (rows nodeId).foldlM (typeRow far found (typeWalk db rows far fuel))
        { s with visited := s.visited ++ [nodeId] }

def getTypeAncestors (store : Store) : Nat → NodeId → HierarchyWalk → Option HierarchyWalk :=
  typeWalk store.db (store.getOutgoingEdges · HIERARCHY_KINDS) Edge.target

def getTypeDescendants (store : Store) : Nat → NodeId → HierarchyWalk → Option HierarchyWalk :=
  typeWalk store.db (store.getIncomingEdges · HIERARCHY_KINDS) Edge.source

def getTypeHierarchy (store : Store) (nodeId : NodeId) : Option Subgraph :=
  match store.db.getNodeById nodeId with
  | none => some ⟨[], [], [], false⟩
  | some focalNode => do
    let fuel := store.db.nodes.length + 1
    let up ← getTypeAncestors store fuel nodeId ⟨[focalNode], [], []⟩
    let down ← getTypeDescendants store fuel nodeId { up with visited := [] }
    return ⟨down.nodes, down.edges, [nodeId], false⟩

/-- `b` is an existing type that `a` extends or implements. -/
def SupertypeOf (db : Database) (a b : NodeId) : Prop :=
  ∃ e ∈ db.edges, e.kind ∈ HIERARCHY_KINDS ∧ e.source = a ∧ e.target = b ∧ (db.getNodeById b).isSome

/-- `b` is an existing type that extends or implements `a`. -/
def SubtypeOf (db : Database) (a b : NodeId) : Prop :=
  ∃ e ∈ db.edges, e.kind ∈ HIERARCHY_KINDS ∧ e.target = a ∧ e.source = b ∧ (db.getNodeById b).isSome

def WholeHierarchy (db : Database) (focus : NodeId) (nodes : List Node) : Prop :=
  (nodes.map Node.id).Nodup ∧ (∀ n ∈ nodes, db.getNodeById n.id = some n) ∧
    ∀ id, id ∈ nodes.map Node.id ↔
      id = focus ∨ TransGen (SupertypeOf db) focus id ∨ TransGen (SubtypeOf db) focus id

/-- Every subtype that is not a supertype as well is reached through types that are not. -/
def SubtypesInTheOpen (db : Database) (focus : NodeId) : Prop :=
  ∀ id, TransGen (SubtypeOf db) focus id → id ≠ focus → ¬TransGen (SupertypeOf db) focus id →
    TransGen (fun a b => SubtypeOf db a b ∧ b ≠ focus ∧ ¬TransGen (SupertypeOf db) focus b) focus id

variable {db : Database} {rows : NodeId → List Edge} {far : Edge → NodeId} {s t : HierarchyWalk}
  {old new : List NodeId} {fuel : Nat}

/-- A row of `a` leads to an existing node. -/
def LeadsTo (db : Database) (rows : NodeId → List Edge) (far : Edge → NodeId) (a b : NodeId) : Prop :=
  ∃ e ∈ rows a, far e = b ∧ (db.getNodeById b).isSome

def HierarchyWalk.ids (s : HierarchyWalk) : List NodeId := s.nodes.map Node.id

/-- The types listed are distinct and exist, and only they have been visited. -/
structure Listed (db : Database) (s : HierarchyWalk) : Prop where
  distinct : s.ids.Nodup
  known : ∀ n ∈ s.nodes, db.getNodeById n.id = some n
  visited : s.visited ⊆ s.ids

theorem Listed.few (listed : Listed db s) : s.ids.length ≤ db.nodes.length := by
  have inside : s.ids ⊆ db.nodes.map Node.id := by
    intro id member
    obtain ⟨n, held, rfl⟩ := List.mem_map.mp member
    exact List.mem_map_of_mem (Database.getNodeById_mem (listed.known n held))
  have few := (List.subperm_of_subset listed.distinct inside).length_le
  rwa [List.length_map] at few

theorem Listed.push {node : Node} (listed : Listed db s) (edge : Edge) (unlisted : node.id ∉ s.ids)
    (found : db.getNodeById node.id = some node) :
    Listed db { s with nodes := s.nodes ++ [node], edges := s.edges ++ [edge] } := by
  have ids : (HierarchyWalk.mk (s.nodes ++ [node]) (s.edges ++ [edge]) s.visited).ids =
      s.ids ++ [node.id] := List.map_append
  refine ⟨?_, fun n member => ?_, fun id member => ?_⟩
  · rw [ids, ← List.concat_eq_append]
    exact listed.distinct.concat unlisted
  · rcases mem_snoc.mp member with earlier | last
    · exact listed.known n earlier
    · rw [last]
      exact found
  · rw [ids]
    exact List.mem_append_left _ (listed.visited member)

/-- A call at a type that is listed and was not visited explores what it leads to. -/
def Explores (db : Database) (rows : NodeId → List Edge) (far : Edge → NodeId)
    (walk : NodeId → HierarchyWalk → Option HierarchyWalk) (fuel : Nat) : Prop :=
  ∀ nodeId s, Listed db s → nodeId ∈ s.ids → nodeId ∉ s.visited →
    db.nodes.length < s.ids.length + fuel →
    ∃ t new, walk nodeId s = some t ∧ Listed db t ∧ t.ids = s.ids ++ new ∧
      Explored (LeadsTo db rows far) s.ids nodeId new

private theorem rows_scanned {walk : NodeId → HierarchyWalk → Option HierarchyWalk} (nodeId : NodeId)
    (rest : List Edge) {found : NodeId → Option Node} (explores : Explores db rows far walk fuel)
    (looked : ∀ e ∈ rest, found (far e) = db.getNodeById (far e)) (sub : rest ⊆ rows nodeId)
    (enough : db.nodes.length ≤ old.length + fuel) (listed : Listed db s) (ids : s.ids = old ++ new)
    (scanned : Scanned (LeadsTo db rows far) old nodeId new) :
    ∃ t new', rest.foldlM (typeRow far found walk) s = some t ∧
      Listed db t ∧ t.ids = old ++ new' ∧ Scanned (LeadsTo db rows far) old nodeId new' ∧
      new ⊆ new' ∧
      ∀ e ∈ rest, (db.getNodeById (far e)).isSome → far e ∈ old ∨ far e ∈ new' := by
  induction rest generalizing s new with
  | nil => exact ⟨s, new, rfl, listed, ids, scanned, fun _ h => h, fun _ none_ => by cases none_⟩
  | cons e rest ih =>
    have later : ∀ f ∈ rest, found (far f) = db.getNodeById (far f) :=
      fun f h => looked f (List.mem_cons_of_mem e h)
    have subRest : rest ⊆ rows nodeId := fun f h => sub (List.mem_cons_of_mem e h)
    rw [List.foldlM_cons, typeRow, looked e List.mem_cons_self]
    cases exists_ : db.getNodeById (far e) with
    | none =>
      obtain ⟨t, new', run, listed', ids', scanned', grown, all⟩ := ih later subRest listed ids scanned
      refine ⟨t, new', run, listed', ids', scanned', grown, fun f member some_ => ?_⟩
      rcases List.mem_cons.mp member with rfl | member
      · rw [exists_] at some_
        cases some_
      · exact all f member some_
    | some node =>
      have named := Database.getNodeById_id exists_
      by_cases before : node.id ∈ s.ids
      · obtain ⟨t, new', run, listed', ids', scanned', grown, all⟩ := ih later subRest listed ids scanned
        refine ⟨t, new', ?_, listed', ids', scanned', grown, fun f member some_ => ?_⟩
        · simp only [show node.id ∈ s.nodes.map Node.id from before, if_true]
          exact run
        · rcases List.mem_cons.mp member with rfl | member
          · rw [ids, named] at before
            exact (List.mem_append.mp before).imp_right fun h => grown h
          · exact all f member some_
      · -- the type is new: the call below it explores what it leads to
        have pushed := listed.push e before (named ▸ exists_)
        have ids₁ : (HierarchyWalk.mk (s.nodes ++ [node]) (s.edges ++ [e]) s.visited).ids =
            old ++ new ++ [node.id] := by
          rw [← ids]
          exact List.map_append
        obtain ⟨u, more, below, listedU, idsU, explored⟩ := explores node.id _ pushed
          (by rw [ids₁]; exact List.mem_append_right _ (List.mem_singleton.mpr rfl))
          (fun h => before (listed.visited h))
          (by rw [ids₁]; simp only [List.length_append, List.length_singleton]; omega)
        rw [ids₁] at idsU explored
        have step : LeadsTo db rows far nodeId node.id :=
          ⟨e, sub List.mem_cons_self, named.symm, by rw [named, exists_]; rfl⟩
        have deeper := scanned.deeper step (ids ▸ before) explored
        obtain ⟨t, new', run, listed', ids', scanned', grown, all⟩ := ih later subRest listedU
          (by rw [idsU]; simp) deeper
        refine ⟨t, new', ?_, listed', ids', scanned', fun x h => grown (List.mem_append_left _ h),
          fun f member some_ => ?_⟩
        · simp only [show ¬node.id ∈ s.nodes.map Node.id from before, if_false]
          rw [below]
          exact run
        · rcases List.mem_cons.mp member with rfl | member
          · exact .inr (grown (List.mem_append_right _ (named ▸ List.mem_cons_self)))
          · exact all f member some_

variable (rows far) in
theorem typeWalk_explores (fuel : Nat) : Explores db rows far (typeWalk db rows far fuel) fuel := by
  induction fuel with
  | zero =>
    intro nodeId s listed _ _ enough
    have few := listed.few
    omega
  | succ fuel ih =>
    intro nodeId s listed member unvisited enough
    have visited : Listed db { s with visited := s.visited ++ [nodeId] } := by
      refine ⟨listed.distinct, listed.known, fun id h => ?_⟩
      rcases mem_snoc.mp h with earlier | last
      · exact listed.visited earlier
      · rw [last]
        exact member
    obtain ⟨t, new, run, listed', ids, scanned, -, all⟩ := rows_scanned nodeId (rows nodeId) ih (fun e h => Database.getNodesByIds_mem (List.mem_map_of_mem h))
      (List.Subset.refl _) (show _ ≤ s.ids.length + fuel by omega) visited (List.append_nil _).symm (scanned_nil _ _ _)
    refine ⟨t, new, ?_, listed', ids, scanned, ?_⟩
    · rw [typeWalk, if_neg unvisited]
      exact run
    · rintro c ⟨e, row, rfl, exists_⟩
      exact all e row exists_

/-! ### Both walks -/

private theorem some_kind : HIERARCHY_KINDS ≠ [] := by decide

theorem leadsTo_supertypeOf (store : Store) :
    LeadsTo store.db (store.getOutgoingEdges · HIERARCHY_KINDS) Edge.target = SupertypeOf store.db := by
  funext a b
  refine propext ⟨?_, ?_⟩
  · rintro ⟨e, row, target, exists_⟩
    obtain ⟨edge, source, kind⟩ := Store.mem_getOutgoingEdges.mp row
    exact ⟨e, edge, kind.resolve_left some_kind, source, target, exists_⟩
  · rintro ⟨e, edge, kind, source, target, exists_⟩
    exact ⟨e, Store.mem_getOutgoingEdges.mpr ⟨edge, source, .inr kind⟩, target, exists_⟩

theorem leadsTo_subtypeOf (store : Store) :
    LeadsTo store.db (store.getIncomingEdges · HIERARCHY_KINDS) Edge.source = SubtypeOf store.db := by
  funext a b
  refine propext ⟨?_, ?_⟩
  · rintro ⟨e, row, source, exists_⟩
    obtain ⟨edge, target, kind⟩ := Store.mem_getIncomingEdges.mp row
    exact ⟨e, edge, kind.resolve_left some_kind, target, source, exists_⟩
  · rintro ⟨e, edge, kind, target, source, exists_⟩
    exact ⟨e, Store.mem_getIncomingEdges.mpr ⟨edge, target, .inr kind⟩, source, exists_⟩

/-- The types returned: all supertypes, and the subtypes that are reached through types that are not
supertypes. -/
theorem getTypeHierarchy_nodes (store : Store) {focal : Node}
    (exists_ : store.db.getNodeById focal.id = some focal) :
    ∃ result, getTypeHierarchy store focal.id = some result ∧ (result.nodes.map Node.id).Nodup ∧
      (∀ n ∈ result.nodes, store.db.getNodeById n.id = some n) ∧
      ∀ id, id ∈ result.nodes.map Node.id ↔
        id = focal.id ∨ TransGen (SupertypeOf store.db) focal.id id ∨
          TransGen (fun a b => SubtypeOf store.db a b ∧ b ≠ focal.id ∧
            ¬TransGen (SupertypeOf store.db) focal.id b) focal.id id := by
  have start : Listed store.db ⟨[focal], [], []⟩ := by
    refine ⟨List.nodup_singleton _, fun n member => ?_, List.nil_subset _⟩
    rw [List.mem_singleton.mp member]
    exact exists_
  obtain ⟨up, above, runUp, listedUp, idsUp, exploredUp⟩ :=
    typeWalk_explores (store.getOutgoingEdges · HIERARCHY_KINDS) Edge.target
      (store.db.nodes.length + 1) focal.id _ start (List.mem_singleton.mpr rfl) List.not_mem_nil
      (by omega)
  have focusUp : focal.id ∈ up.ids := by
    rw [idsUp]
    exact List.mem_append_left above (List.mem_singleton.mpr rfl)
  obtain ⟨down, below, runDown, listedDown, idsDown, exploredDown⟩ :=
    typeWalk_explores (store.getIncomingEdges · HIERARCHY_KINDS) Edge.source
      (store.db.nodes.length + 1) focal.id { up with visited := [] }
      ⟨listedUp.distinct, listedUp.known, List.nil_subset _⟩ focusUp List.not_mem_nil (by omega)
  have supertypes : ∀ id, id ∈ up.ids ↔
      id = focal.id ∨ TransGen (SupertypeOf store.db) focal.id id := by
    intro id
    rw [idsUp, List.mem_append, exploredUp.exact, leadsTo_supertypeOf]
    refine (or_congr List.mem_singleton fresh_start).trans ?_
    tauto
  have subtypes : Fresh (SubtypeOf store.db) up.ids = fun a b => SubtypeOf store.db a b ∧
      b ≠ focal.id ∧ ¬TransGen (SupertypeOf store.db) focal.id b := by
    funext a b
    rw [Fresh, supertypes b, not_or]
  refine ⟨⟨down.nodes, down.edges, [focal.id], false⟩, ?_, listedDown.distinct, listedDown.known,
    fun id => ?_⟩
  · simp only [getTypeHierarchy, exists_, getTypeAncestors, getTypeDescendants, runUp, runDown,
      Option.bind_eq_bind, Option.bind_some, Option.pure_def]
  · rw [leadsTo_subtypeOf] at exploredDown
    have ids : down.nodes.map Node.id = up.ids ++ below := idsDown
    rw [ids, List.mem_append, supertypes id, exploredDown.exact, ← subtypes, or_assoc]
    rfl

/-- No type is lost exactly if every subtype that is not a supertype as well is reached through types
that are not. -/
theorem getTypeHierarchy_whole (store : Store) {focal : Node}
    (exists_ : store.db.getNodeById focal.id = some focal) :
    ∃ result, getTypeHierarchy store focal.id = some result ∧
      (WholeHierarchy store.db focal.id result.nodes ↔ SubtypesInTheOpen store.db focal.id) := by
  obtain ⟨result, returned, distinct, known, nodes⟩ := getTypeHierarchy_nodes store exists_
  refine ⟨result, returned, fun whole id below other notAbove => ?_, fun open_ => ?_⟩
  · have listed := (nodes id).mp ((whole.2.2 id).mpr (.inr (.inr below)))
    exact (listed.resolve_left other).resolve_left notAbove
  · refine ⟨distinct, known, fun id => (nodes id).trans ⟨?_, ?_⟩⟩
    · rintro (same | above | below)
      · exact .inl same
      · exact .inr (.inl above)
      · exact .inr (.inr (TransGen.mono (fun _ _ step => step.1) _ _ below))
    · rintro (same | above | below)
      · exact .inl same
      · exact .inr (.inl above)
      · by_cases same : id = focal.id
        · exact .inl same
        · by_cases above : TransGen (SupertypeOf store.db) focal.id id
          · exact .inr (.inl above)
          · exact .inr (.inr (open_ id below same above))

theorem supertypes_of_subtypes {db : Database} {a b : NodeId} (exists_ : (db.getNodeById a).isSome)
    (below : TransGen (SubtypeOf db) a b) : TransGen (SupertypeOf db) b a := by
  have back : ∀ {x y}, (db.getNodeById x).isSome → SubtypeOf db x y → SupertypeOf db y x := by
    rintro x y known ⟨e, edge, kind, target, source, -⟩
    exact ⟨e, edge, kind, source, target, known⟩
  have there : ∀ {x}, TransGen (SubtypeOf db) a x → (db.getNodeById x).isSome := by
    intro x reached
    obtain ⟨y, -, e, -, -, -, -, known⟩ := TransGen.tail'_iff.mp reached
    exact known
  induction below with
  | single step => exact .single (back exists_ step)
  | tail reached step ih => exact TransGen.head (back (there reached) step) ih

/-- Where a type is not a supertype of its own, its hierarchy is whole. -/
theorem getTypeHierarchy_acyclic (store : Store) {focal : Node}
    (exists_ : store.db.getNodeById focal.id = some focal)
    (acyclic : ¬TransGen (SupertypeOf store.db) focal.id focal.id) :
    ∃ result, getTypeHierarchy store focal.id = some result ∧
      WholeHierarchy store.db focal.id result.nodes := by
  obtain ⟨result, returned, distinct, known, nodes⟩ := getTypeHierarchy_nodes store exists_
  have known_ : (store.db.getNodeById focal.id).isSome := by rw [exists_]; rfl
  have apart : ∀ {id}, TransGen (SubtypeOf store.db) focal.id id →
      id ≠ focal.id ∧ ¬TransGen (SupertypeOf store.db) focal.id id := by
    intro id below
    have up := supertypes_of_subtypes known_ below
    exact ⟨fun same => acyclic (same ▸ up), fun above => acyclic (above.trans up)⟩
  have open_ : ∀ {id}, TransGen (SubtypeOf store.db) focal.id id →
      TransGen (fun a b => SubtypeOf store.db a b ∧ b ≠ focal.id ∧
        ¬TransGen (SupertypeOf store.db) focal.id b) focal.id id := by
    intro id below
    induction below with
    | single step => exact .single ⟨step, apart (.single step)⟩
    | tail reached step ih => exact ih.tail ⟨step, apart (reached.tail step)⟩
  refine ⟨result, returned, distinct, known, fun id => (nodes id).trans ?_⟩
  refine or_congr_right (or_congr_right ⟨fun below => ?_, open_⟩)
  exact TransGen.mono (fun _ _ step => step.1) _ _ below

def twistedClasses : Database where
  nodes := ["a", "b", "c"].map fun id => ⟨id, .class, .typescript⟩
  edges := [
    ⟨1, "a", "b", .extends, none, none⟩,
    ⟨2, "b", "a", .extends, none, none⟩,
    ⟨3, "c", "b", .extends, none, none⟩]
  identities := by decide

private theorem twistedClasses_a :
    twistedClasses.getNodeById "a" = some ⟨"a", .class, .typescript⟩ := by decide +kernel

theorem getTypeHierarchy_whole_twistedClasses :
    ∃ result, getTypeHierarchy twistedClasses.store "a" = some result ∧
      (WholeHierarchy twistedClasses "a" result.nodes ↔ SubtypesInTheOpen twistedClasses "a") := by
  have exists_ : twistedClasses.store.db.getNodeById (Node.mk "a" .class .typescript).id =
      some ⟨"a", .class, .typescript⟩ := twistedClasses_a
  exact getTypeHierarchy_whole twistedClasses.store exists_

theorem getTypeHierarchy_acyclic_twistedClasses :
    ∃ result, getTypeHierarchy twistedClasses.store "c" = some result ∧
      WholeHierarchy twistedClasses "c" result.nodes := by
  have exists_ : twistedClasses.store.db.getNodeById (Node.mk "c" .class .typescript).id =
      some ⟨"c", .class, .typescript⟩ := by decide +kernel
  refine getTypeHierarchy_acyclic twistedClasses.store exists_ fun cycle => ?_
  obtain ⟨a, -, e, listed, -, -, target, -⟩ := TransGen.tail'_iff.mp cycle
  revert target
  revert e
  decide

/-- The third class is not returned for the first. -/
theorem getTypeHierarchy_loses :
    (getTypeHierarchy twistedClasses.store "a").map (fun r => r.nodes.map Node.id) = some ["a", "b"] ∧
      ∀ result, getTypeHierarchy twistedClasses.store "a" = some result →
        ¬WholeHierarchy twistedClasses "a" result.nodes := by
  have run : (getTypeHierarchy twistedClasses.store "a").map (fun r => r.nodes.map Node.id) =
      some ["a", "b"] := by decide +kernel
  refine ⟨run, fun result returned whole => ?_⟩
  rw [returned] at run
  have nodes : result.nodes.map Node.id = ["a", "b"] := Option.some.inj run
  have first : SubtypeOf twistedClasses "a" "b" :=
    ⟨⟨2, "b", "a", .extends, none, none⟩, by decide, by decide, rfl, rfl, by decide +kernel⟩
  have second : SubtypeOf twistedClasses "b" "c" :=
    ⟨⟨3, "c", "b", .extends, none, none⟩, by decide, by decide, rfl, rfl, by decide +kernel⟩
  have listed := (whole.2.2 "c").mpr (.inr (.inr ((TransGen.single first).tail second)))
  rw [nodes] at listed
  revert listed
  decide

end CodeGraph.Graph
