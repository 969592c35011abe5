import CodeGraph.Graph.DirectRows
import CodeGraph.Graph.TraverseBFSExact

/-! The call graph around a symbol, and the sites at which it is called or calls. -/
namespace CodeGraph.Graph

open Distance FirstByKey InsertionMap

def setRow (s : List Node × List Edge) (row : Node × Edge) : List Node × List Edge :=
  (setNode s.1 row.1, s.2 ++ [row.2])

def getCallGraph (store : Store) (nodeId : NodeId) (depth : MaxDepth := some 2) : Option Subgraph :=
  match store.db.getNodeById nodeId with
  | none => some ⟨[], [], [], false⟩
  | some focalNode => do
    let callers ← getCallers store nodeId depth
    let callees ← getCallees store nodeId depth
    let s := callees.foldl setRow (callers.foldl setRow ([focalNode], []))
    return ⟨s.1, s.2, [nodeId], false⟩

inductive CallSide where
  | callers | callees
  deriving DecidableEq

structure CallSiteRow where
  node : Node
  edges : List Edge
  recursive : Bool
  deriving DecidableEq

def siteStep (nodeId : NodeId) (neighbour : Edge → NodeId) (nodes : NodeId → Option Node)
    (s : List (NodeId × CallSiteRow) × List String) (edge : Edge) :
    List (NodeId × CallSiteRow) × List String :=
  match nodes (neighbour edge) with
  | none => s
  | some node =>
    if edgeSite edge ∈ s.2 then s
    else
      let row := (lookup s.1 node.id).getD ⟨node, [], node.id = nodeId⟩
      (assign s.1 node.id { row with edges := row.edges ++ [edge] }, s.2 ++ [edgeSite edge])

def callSites (db : Database) (rows : NodeId → List Edge) (neighbour : Edge → NodeId)
    (nodeId : NodeId) : List CallSiteRow :=
  let edges := rows nodeId
  (edges.foldl (siteStep nodeId neighbour (db.getNodesByIds (edges.map neighbour))) ([], [])).1.map
    Prod.snd

def getCallSites (store : Store) (nodeId : NodeId) : CallSide → List CallSiteRow
  | .callers => callSites store.db (store.getIncomingEdges · CALL_EDGE_KINDS) Edge.source nodeId
  | .callees => callSites store.db (store.getOutgoingEdges · CALL_EDGE_KINDS) Edge.target nodeId

variable {store : Store} {db : Database} {near far : Edge → NodeId} {rows : NodeId → List Edge}
  {nodeId : NodeId} {maxDepth : MaxDepth}

/-- A walk between existing nodes is walked back by the edges the other way around. -/
theorem callWalk_back {a b : NodeId} {n : Nat} (exists_ : (db.getNodeById a).isSome)
    (walk : Walk (CallEdge db near far) a n b) :
    (db.getNodeById b).isSome ∧ Walk (CallEdge db far near) b n a := by
  induction walk with
  | start => exact ⟨exists_, .start⟩
  | step _ last ih =>
    obtain ⟨e, row, kind, from_, into, there⟩ := last
    exact ⟨there, ih.2.cons ⟨e, row, kind, into, from_, ih.1⟩⟩

theorem callDistance_back {a b : NodeId} {d : Nat} (here : (db.getNodeById a).isSome)
    (there : (db.getNodeById b).isSome) (far_ : IsDistance (CallEdge db near far) a b d) :
    IsDistance (CallEdge db far near) b a d :=
  ⟨(callWalk_back here far_.1).2, fun m walk => far_.2 m (callWalk_back there walk).2⟩

theorem callers_callees_inverse (store : Store) (maxDepth : MaxDepth) {a b : NodeId}
    (here : (store.db.getNodeById a).isSome) (there : (store.db.getNodeById b).isSome) :
    ∃ callers callees, getCallers store a maxDepth = some callers ∧
      getCallees store b maxDepth = some callees ∧
      (b ∈ callers.map (·.1.id) ↔ a ∈ callees.map (·.1.id)) := by
  obtain ⟨callers, returned, into⟩ := callsFrom_neighbourhood (callRows_incoming store) maxDepth a
  obtain ⟨callees, returned', out⟩ := callsFrom_neighbourhood (callRows_outgoing store) maxDepth b
  refine ⟨callers, callees, returned, returned', ?_⟩
  rw [into.exact, out.exact]
  constructor
  · rintro ⟨d, far_, within⟩
    exact ⟨d, callDistance_back here there far_, within⟩
  · rintro ⟨d, far_, within⟩
    exact ⟨d, callDistance_back there here far_, within⟩

theorem callers_callees_inverse_barPaths : ∃ callers callees,
    getCallers barPaths.store "file:r" none = some callers ∧
      getCallees barPaths.store "file:s" none = some callees ∧
      ("file:s" ∈ callers.map (·.1.id) ↔ "file:r" ∈ callees.map (·.1.id)) :=
  callers_callees_inverse barPaths.store none (a := "file:r") (b := "file:s")
    (by decide +kernel : (barPaths.getNodeById "file:r").isSome)
    (by decide +kernel : (barPaths.getNodeById "file:s").isSome)

/-- The symbol and its callers and callees up to the depth are listed once; each edge is stored and
joins two of them, and each of them but the symbol is at an end of one. -/
structure CallGraph (db : Database) (nodeId : NodeId) (depth : MaxDepth) (result : Subgraph) :
    Prop where
  once : (result.nodes.map Node.id).Nodup
  stored : ∀ n ∈ result.nodes, db.getNodeById n.id = some n
  nodes : ∀ id, id ∈ result.nodes.map Node.id ↔ id = nodeId ∨ ∃ d, 1 ≤ d ∧ withinDepth depth d ∧
    (IsDistance (CalledBy db) nodeId id d ∨ IsDistance (Calls db) nodeId id d)
  edges : ∀ e ∈ result.edges, e ∈ db.edges ∧ e.kind ∈ CALL_EDGE_KINDS ∧
    e.source ∈ result.nodes.map Node.id ∧ e.target ∈ result.nodes.map Node.id
  joined : ∀ id ∈ result.nodes.map Node.id, id ≠ nodeId →
    ∃ e ∈ result.edges, e.source = id ∨ e.target = id

theorem setRows_all (list : List (Node × Edge)) {s : List Node × List Edge}
    (distinct : (s.1.map Node.id).Nodup) (stored : ∀ n ∈ s.1, db.getNodeById n.id = some n)
    (known : ∀ row ∈ list, db.getNodeById row.1.id = some row.1) :
    ((list.foldl setRow s).1.map Node.id).Nodup ∧
      (∀ n ∈ (list.foldl setRow s).1, db.getNodeById n.id = some n) ∧
      (∀ id, id ∈ (list.foldl setRow s).1.map Node.id ↔
        id ∈ s.1.map Node.id ∨ id ∈ list.map (·.1.id)) ∧
      (list.foldl setRow s).2 = s.2 ++ list.map Prod.snd := by
  induction list generalizing s with
  | nil => exact ⟨distinct, stored, fun id => by simp, by simp⟩
  | cons row list ih =>
    obtain ⟨here, later⟩ := List.forall_mem_cons.mp known
    by_cases listed : row.1.id ∈ s.1.map Node.id
    · have same : setRow s row = (s.1, s.2 ++ [row.2]) := by
        rw [setRow, setNode_stored stored here listed]
      obtain ⟨once, found, ids, edges⟩ := ih (s := setRow s row) (by rwa [same]) (by rwa [same]) later
      refine ⟨once, found, fun id => ?_, by rw [List.foldl_cons, edges, same]; simp⟩
      rw [List.foldl_cons, ids, same, List.map_cons, List.mem_cons]
      refine ⟨fun h => h.imp_right .inr, fun h => ?_⟩
      rcases h with old | rfl | new
      · exact .inl old
      · exact .inl listed
      · exact .inr new
    · have same : setRow s row = (s.1 ++ [row.1], s.2 ++ [row.2]) := by
        rw [setRow, setNode_new listed]
      obtain ⟨once, found, ids, edges⟩ := ih (s := setRow s row)
        (by rw [same, List.map_append]; exact nodup_snoc distinct listed)
        (by rw [same]; exact forall_snoc stored here) later
      refine ⟨once, found, fun id => ?_, by rw [List.foldl_cons, edges, same]; simp⟩
      rw [List.foldl_cons, ids, same, List.map_append, List.map_singleton, mem_snoc, List.map_cons,
        List.mem_cons, or_assoc]

/-- The symbol and what a walk reports: every edge reported joins two of them. -/
theorem rows_joined {list : List (Node × Edge)}
    (neighbourhood : Neighbourhood db near far nodeId maxDepth list) {row : Node × Edge}
    (member : row ∈ list) :
    far row.2 ∈ list.map (·.1.id) ∧ (near row.2 = nodeId ∨ near row.2 ∈ list.map (·.1.id)) := by
  obtain ⟨-, -, named, d, far_, within⟩ := neighbourhood.edges row member
  refine ⟨named ▸ List.mem_map_of_mem member, ?_⟩
  by_cases same : near row.2 = nodeId
  · exact .inl same
  · refine .inr ((neighbourhood.exact _).mpr ⟨d, far_, (distance_pos far_).mpr same, ?_⟩)
    intro limit bound
    have below := within limit bound
    omega

theorem get_call_graph (store : Store) (depth : MaxDepth) {nodeId : NodeId} {focalNode : Node}
    (exists_ : store.db.getNodeById nodeId = some focalNode) :
    ∃ result, getCallGraph store nodeId depth = some result ∧ CallGraph store.db nodeId depth result := by
  obtain ⟨callers, ran, into⟩ := callsFrom_neighbourhood (callRows_incoming store) depth nodeId
  obtain ⟨callees, ran', out⟩ := callsFrom_neighbourhood (callRows_outgoing store) depth nodeId
  have named := Database.getNodeById_id exists_
  obtain ⟨once, stored, ids, edges⟩ := setRows_all (s := ([focalNode], [])) callers
    (List.nodup_singleton _) (List.forall_mem_singleton.mpr (named.symm ▸ exists_)) into.nodes
  obtain ⟨once', stored', ids', edges'⟩ := setRows_all callees once stored out.nodes
  generalize setRows : callees.foldl setRow (callers.foldl setRow ([focalNode], [])) = s at once' stored' ids' edges'
  have listed : ∀ id, id ∈ s.1.map Node.id ↔
      id = nodeId ∨ id ∈ callers.map (·.1.id) ∨ id ∈ callees.map (·.1.id) := by
    intro id
    rw [ids', ids, List.map_singleton, List.mem_singleton, named, or_assoc]
  have joins : s.2 = callers.map Prod.snd ++ callees.map Prod.snd := by rw [edges', edges, List.nil_append]
  refine ⟨⟨s.1, s.2, [nodeId], false⟩, ?_, once', stored', fun id => (listed id).trans ?_, ?_, ?_⟩
  · unfold getCallGraph getCallers getCallees
    simp only [exists_, ran, ran', Option.bind_eq_bind, Option.bind_some, Option.pure_def, setRows]
  · rw [into.exact, out.exact]
    refine or_congr_right ⟨?_, ?_⟩
    · rintro (⟨d, far_, least, within⟩ | ⟨d, far_, least, within⟩)
      · exact ⟨d, least, within, .inl far_⟩
      · exact ⟨d, least, within, .inr far_⟩
    · rintro ⟨d, least, within, far_ | far_⟩
      · exact .inl ⟨d, far_, least, within⟩
      · exact .inr ⟨d, far_, least, within⟩
  · intro e member
    change e ∈ s.2 at member
    rw [joins] at member
    rcases List.mem_append.mp member with caller | callee
    · obtain ⟨row, is, rfl⟩ := List.mem_map.mp caller
      obtain ⟨edge, kind, -, -⟩ := into.edges row is
      obtain ⟨source, target⟩ := rows_joined into is
      exact ⟨edge, kind, (listed _).mpr (.inr (.inl source)),
        (listed _).mpr (target.imp_right .inl)⟩
    · obtain ⟨row, is, rfl⟩ := List.mem_map.mp callee
      obtain ⟨edge, kind, -, -⟩ := out.edges row is
      obtain ⟨target, source⟩ := rows_joined out is
      exact ⟨edge, kind, (listed _).mpr (source.imp_right .inr),
        (listed _).mpr (.inr (.inr target))⟩
  · intro id member other
    change ∃ e ∈ s.2, _
    rw [joins]
    rcases ((listed id).mp member).resolve_left other with caller | callee
    · obtain ⟨row, is, rfl⟩ := List.mem_map.mp caller
      exact ⟨row.2, List.mem_append_left _ (List.mem_map_of_mem is), .inl (into.edges row is).2.2.1⟩
    · obtain ⟨row, is, rfl⟩ := List.mem_map.mp callee
      exact ⟨row.2, List.mem_append_right _ (List.mem_map_of_mem is), .inr (out.edges row is).2.2.1⟩

theorem get_call_graph_barPaths : ∃ result,
    getCallGraph barPaths.store "file:a" = some result ∧
      CallGraph barPaths "file:a" (some 2) result :=
  get_call_graph barPaths.store (some 2)
    (by decide +kernel : barPaths.getNodeById "file:a" = some ⟨"file:a", .file, .typescript⟩)

/-! ### The text of a site -/

theorem last_separator {α : Type} {xs ys zs ws : List α} {c : α} (same : xs ++ c :: ys = zs ++ c :: ws)
    (first : c ∉ ys) (second : c ∉ ws) : xs = zs ∧ ys = ws := by
  rcases List.append_eq_append_iff.mp same with ⟨as, rfl, rest⟩ | ⟨as, rfl, rest⟩
  · cases as with
    | nil => exact ⟨(List.append_nil xs).symm, (List.cons.inj rest).2⟩
    | cons a as =>
      refine absurd ?_ first
      rw [(List.cons.inj rest).2]
      exact List.mem_append_right _ List.mem_cons_self
  · cases as with
    | nil => exact ⟨List.append_nil zs, (List.cons.inj rest).2.symm⟩
    | cons a as =>
      refine absurd ?_ second
      rw [(List.cons.inj rest).2]
      exact List.mem_append_right _ List.mem_cons_self

theorem bar_edgeKindText (kind : EdgeKind) : '|' ∉ (edgeKindText kind).toList := by
  cases kind <;> decide

theorem edgeKindText_injective {one other : EdgeKind} (same : edgeKindText one = edgeKindText other) :
    one = other := by
  revert same
  cases one <;> cases other <;> decide

private theorem digits (n : Nat) : ∀ c ∈ (toString n).toList, c.isDigit := by
  intro c member
  rw [Nat.toString_eq_repr, Nat.toList_repr] at member
  exact Nat.isDigit_of_mem_toDigits (by decide) (by decide) member

theorem bar_positionText (position : Option Nat) : '|' ∉ (positionText position).toList := by
  cases position with
  | none => decide
  | some n => exact fun member => absurd (digits n _ member) (by decide)

theorem positionText_injective {one other : Option Nat} (same : positionText one = positionText other) :
    one = other := by
  have minus : ∀ n : Nat, positionText none ≠ positionText (some n) := by
    intro n is
    have dash : '-' ∈ (toString n).toList := by
      change '-' ∈ (positionText (some n)).toList
      rw [← is]
      decide
    exact absurd (digits n _ dash) (by decide)
  cases one with
  | none =>
    cases other with
    | none => rfl
    | some n => exact absurd same (minus n)
  | some m =>
    cases other with
    | none => exact absurd same.symm (minus m)
    | some n =>
      have lists := congrArg String.toList same
      change (toString m).toList = (toString n).toList at lists
      rw [Nat.toString_eq_repr, Nat.toString_eq_repr, Nat.toList_repr, Nat.toList_repr] at lists
      rw [← Nat.ofDigitChars_ten_toDigits (n := m), lists, Nat.ofDigitChars_ten_toDigits]

/-- Where two edges share an end, their sites tell them apart, whatever the ids are. -/
theorem edgeSite_injective {e f : Edge} (one : e ∈ db.edges) (other : f ∈ db.edges)
    (same : edgeSite e = edgeSite f) (shared : e.source = f.source ∨ e.target = f.target) : e = f := by
  have shape : ∀ e : Edge, (edgeSite e).toList =
      (((e.source.toList ++ '|' :: e.target.toList) ++ '|' :: (edgeKindText e.kind).toList) ++
        '|' :: (positionText e.line).toList) ++ '|' :: (positionText e.column).toList := by
    intro e
    simp [edgeSite, String.toList_append]
  have texts := congrArg String.toList same
  rw [shape, shape] at texts
  obtain ⟨texts, column⟩ := last_separator texts (bar_positionText _) (bar_positionText _)
  obtain ⟨texts, line⟩ := last_separator texts (bar_positionText _) (bar_positionText _)
  obtain ⟨texts, kind⟩ := last_separator texts (bar_edgeKindText _) (bar_edgeKindText _)
  have ends : e.source = f.source ∧ e.target = f.target := by
    rcases shared with source | target
    · rw [source] at texts
      exact ⟨source, String.toList_inj.mp (List.cons.inj (List.append_cancel_left texts)).2⟩
    · rw [target] at texts
      exact ⟨String.toList_inj.mp (List.append_cancel_right texts), target⟩
  refine List.inj_on_of_nodup_map db.identities one other ?_
  rw [Edge.identity, Edge.identity, ends.1, ends.2, edgeKindText_injective (String.toList_inj.mp kind),
    positionText_injective (String.toList_inj.mp line),
    positionText_injective (String.toList_inj.mp column)]

/-! ### Call sites -/

/-- Every call edge at the symbol whose other end exists is listed once, in the one row of that end.
Without the symbol's own row, the rows are those that the walk of one level reports, in its order, and
each of them starts with the edge that the walk reports. -/
structure CallSites (db : Database) (near far : Edge → NodeId) (nodeId : NodeId)
    (neighbours : List (Node × Edge)) (rows : List CallSiteRow) : Prop where
  once : (rows.map (·.node.id)).Nodup
  each : ∀ row ∈ rows, db.getNodeById row.node.id = some row.node ∧
    row.recursive = decide (row.node.id = nodeId) ∧ ∀ e ∈ row.edges, far e = row.node.id
  sites : (rows.flatMap CallSiteRow.edges).Nodup ∧ ∀ e, e ∈ rows.flatMap CallSiteRow.edges ↔
    e ∈ db.edges ∧ near e = nodeId ∧ e.kind ∈ CALL_EDGE_KINDS ∧ (db.getNodeById (far e)).isSome
  firsts : neighbours.map (fun row => (row.1, some row.2)) =
    (rows.filter (!·.recursive)).map fun row => (row.node, row.edges.head?)

/-- The rows but the symbol's own, each with its first edge. -/
def firstSites (m : List (NodeId × CallSiteRow)) : List (Node × Option Edge) :=
  ((m.map fun p => (!p.2.recursive, p.2.node, p.2.edges.head?)).filter Prod.fst).map Prod.snd

def siteOf (db : Database) (far : Edge → NodeId) (e : Edge) : Option (Node × Option Edge) :=
  (db.getNodeById (far e)).map fun node => (node, some e)

variable (db far nodeId) in
/-- The rows after some of the edges. -/
structure SitesKept (past : List Edge) (s : List (NodeId × CallSiteRow) × List String) : Prop where
  distinct : (s.1.map Prod.fst).Nodup
  keys : ∀ id, id ∈ s.1.map Prod.fst ↔ id ∈ past.map far
  entries : ∀ p ∈ s.1, p.2.node.id = p.1 ∧ db.getNodeById p.1 = some p.2.node ∧
    p.2.recursive = decide (p.1 = nodeId) ∧ p.2.edges = past.filter fun e => far e = p.1
  sites : s.2 = past.map edgeSite
  firsts : firstSites s.1 = (keepNew far [nodeId] past).filterMap (siteOf db far)

variable {past : List Edge} {s : List (NodeId × CallSiteRow) × List String}
  {nodes : NodeId → Option Node} {e : Edge} {node : Node}

def siteRow (nodeId : NodeId) (m : List (NodeId × CallSiteRow)) (node : Node) : CallSiteRow :=
  (lookup m node.id).getD ⟨node, [], node.id = nodeId⟩

theorem siteStep_new (looked : nodes (far e) = some node) (fresh : edgeSite e ∉ s.2) :
    siteStep nodeId far nodes s e = (assign s.1 node.id { siteRow nodeId s.1 node with
      edges := (siteRow nodeId s.1 node).edges ++ [e] }, s.2 ++ [edgeSite e]) := by
  simp only [siteStep, looked, if_neg fresh, siteRow]

theorem SitesKept.row (kept : SitesKept db far nodeId past s) (named : node.id = far e)
    (found : db.getNodeById (far e) = some node) :
    siteRow nodeId s.1 node = ⟨node, past.filter (fun f => far f = far e), far e = nodeId⟩ := by
  rw [siteRow, named]
  cases there : lookup s.1 (far e) with
  | none =>
    have absent := lookup_none.mp there
    have others : past.filter (fun f => far f = far e) = [] := by
      refine List.filter_eq_nil_iff.mpr fun f listed same => absent ((kept.keys _).mpr ?_)
      exact of_decide_eq_true same ▸ List.mem_map_of_mem listed
    rw [others]
    rfl
  | some row =>
    obtain ⟨-, known, recursive, edges⟩ := kept.entries _ (mem_of_lookup there)
    rw [found] at known
    rw [Option.getD_some, Option.some.inj known, ← recursive, ← edges]

/-- The first site of a row stays, and a row that is not the symbol's own starts with its edge. -/
theorem SitesKept.first (kept : SitesKept db far nodeId past s) (looked : nodes (far e) = some node)
    (named : node.id = far e) (found : db.getNodeById (far e) = some node)
    (fresh : edgeSite e ∉ past.map edgeSite) :
    firstSites (siteStep nodeId far nodes s e).1 = firstSites s.1 ++
      if far e = nodeId ∨ far e ∈ s.1.map Prod.fst then [] else [(node, some e)] := by
  rw [siteStep_new looked (kept.sites ▸ fresh), kept.row named found, named]
  by_cases there : far e ∈ s.1.map Prod.fst
  · obtain ⟨p, member, is⟩ := List.mem_map.mp there
    obtain ⟨-, known, recursive, edges⟩ := kept.entries p member
    rw [is] at known recursive edges
    rw [found] at known
    have first : (past.filter fun f => far f = far e) ≠ [] := by
      obtain ⟨f, listed, same⟩ := List.mem_map.mp ((kept.keys _).mp there)
      exact List.ne_nil_of_mem (List.mem_filter.mpr ⟨listed, decide_eq_true same⟩)
    have held : lookup s.1 (far e) = some p.2 := by
      rw [← is]
      exact lookup_of_mem kept.distinct member
    rw [if_pos (.inr there), List.append_nil, firstSites, firstSites,
      map_assign_same _ kept.distinct held]
    simp only [← Option.some.inj known, recursive, edges, List.head?_append_of_ne_nil _ first]
  · have others : (past.filter fun f => far f = far e) = [] :=
      List.filter_eq_nil_iff.mpr fun f listed same => there ((kept.keys _).mpr
        (of_decide_eq_true same ▸ List.mem_map_of_mem listed))
    rw [assign_absent there, firstSites, firstSites, List.map_append, List.filter_append,
      List.map_append, others]
    by_cases own : far e = nodeId <;> simp [own, there]

theorem SitesKept.step (kept : SitesKept db far nodeId past s) (looked : nodes (far e) = some node)
    (named : node.id = far e) (found : db.getNodeById (far e) = some node)
    (fresh : edgeSite e ∉ past.map edgeSite) :
    SitesKept db far nodeId (past ++ [e]) (siteStep nodeId far nodes s e) := by
  have firsts : firstSites (siteStep nodeId far nodes s e).1 =
      (keepNew far [nodeId] (past ++ [e])).filterMap (siteOf db far) := by
    rw [kept.first looked named found fresh, kept.firsts, keepNew_snoc, List.filterMap_append]
    simp only [List.mem_singleton, kept.keys]
    split
    · rfl
    · simp [siteOf, found]
  rw [siteStep_new looked (kept.sites ▸ fresh), kept.row named found, named] at firsts ⊢
  refine ⟨keys_assign_nodup kept.distinct _ _, fun id => ?_, fun p member => ?_, ?_, firsts⟩
  · rw [mem_keys_assign, kept.keys, List.map_append, List.map_singleton, mem_snoc]
  · rcases mem_assign member with rfl | ⟨old, other⟩
    · exact ⟨named, found, rfl, by simp [List.filter_append]⟩
    · obtain ⟨is, known, recursive, edges⟩ := kept.entries p old
      refine ⟨is, known, recursive, ?_⟩
      have away : ¬far e = p.1 := fun same => other same.symm
      simp [List.filter_append, away, edges]
  · rw [kept.sites, List.map_append, List.map_singleton]

private theorem site_loop (rest : List Edge)
    (looked : ∀ e ∈ rest, nodes (far e) = db.getNodeById (far e))
    (kept : SitesKept db far nodeId past s) (apart : ((past ++ rest).map edgeSite).Nodup) :
    SitesKept db far nodeId (past ++ rest.filter fun e => (db.getNodeById (far e)).isSome)
      (rest.foldl (siteStep nodeId far nodes) s) := by
  induction rest generalizing past s with
  | nil => rwa [List.filter_nil, List.append_nil]
  | cons e rest ih =>
    obtain ⟨here, later⟩ := List.forall_mem_cons.mp looked
    cases found : db.getNodeById (far e) with
    | none =>
      rw [found] at here
      have less : ((past ++ rest).map edgeSite).Nodup :=
        apart.sublist ((List.Sublist.append_left (List.sublist_cons_self e rest) past).map _)
      rw [List.filter_cons_of_neg (by simp [found])]
      simpa only [List.foldl_cons, siteStep, here] using ih later kept less
    | some node =>
      rw [found] at here
      have fresh : edgeSite e ∉ past.map edgeSite := by
        rw [List.map_append, List.nodup_append] at apart
        exact fun listed => apart.2.2 _ listed _ (List.mem_map_of_mem List.mem_cons_self) rfl
      have all := ih later (kept.step here (Database.getNodeById_id found) found fresh)
        (by rwa [List.append_assoc, List.singleton_append])
      rw [List.append_assoc, List.singleton_append] at all
      rw [List.filter_cons_of_pos (by rw [found]; rfl)]
      exact all

theorem callSites_firsts (each : CallRows db near far rows) (shared : ∀ e f : Edge, near e = near f →
    e.source = f.source ∨ e.target = f.target) (nodeId : NodeId) :
    ∃ neighbours, callsFrom db rows far nodeId (some 1) = some neighbours ∧
      CallSites db near far nodeId neighbours (callSites db rows far nodeId) := by
  have apart : (([] ++ rows nodeId).map edgeSite).Nodup := by
    refine (List.nodup_map_iff_inj_on (each.nodup nodeId)).mpr fun e listed f other same => ?_
    obtain ⟨row, from_, -⟩ := (each.mem _ _).mp listed
    obtain ⟨row', from_', -⟩ := (each.mem _ _).mp other
    exact edgeSite_injective row row' same (shared e f (from_.trans from_'.symm))
  have none_ : SitesKept db far nodeId [] ([], []) :=
    ⟨List.nodup_nil, fun id => Iff.rfl, List.forall_mem_nil _, rfl, rfl⟩
  have kept := site_loop (rows nodeId)
    (fun e listed => Database.getNodesByIds_mem (List.mem_map_of_mem listed)) none_ apart
  rw [List.nil_append] at kept
  generalize sites : (rows nodeId).foldl (siteStep nodeId far (db.getNodesByIds ((rows nodeId).map far)))
    ([], []) = s at kept
  have listed : callSites db rows far nodeId = s.1.map Prod.snd := by rw [callSites, sites]
  have mem : ∀ e, e ∈ (s.1.map Prod.snd).flatMap CallSiteRow.edges ↔
      e ∈ (rows nodeId).filter fun e => (db.getNodeById (far e)).isSome := by
    intro e
    rw [List.mem_flatMap]
    constructor
    · rintro ⟨row, member, site⟩
      obtain ⟨p, is, rfl⟩ := List.mem_map.mp member
      rw [(kept.entries p is).2.2.2] at site
      exact List.mem_of_mem_filter site
    · intro member
      obtain ⟨p, is, same⟩ := List.mem_map.mp ((kept.keys (far e)).mpr (List.mem_map_of_mem member))
      refine ⟨p.2, List.mem_map_of_mem is, ?_⟩
      rw [(kept.entries p is).2.2.2]
      exact List.mem_filter.mpr ⟨member, decide_eq_true same.symm⟩
  have ids : (s.1.map Prod.snd).map (·.node.id) = s.1.map Prod.fst := by
    rw [List.map_map]
    exact List.map_congr_left fun p is => (kept.entries p is).1
  refine ⟨_, callsFrom_direct db rows far nodeId, ?_⟩
  · rw [listed]
    refine ⟨ids ▸ kept.distinct, fun row member => ?_, ⟨?_, fun e => ?_⟩, ?_⟩
    · obtain ⟨p, is, rfl⟩ := List.mem_map.mp member
      obtain ⟨named, known, recursive, edges⟩ := kept.entries p is
      rw [named]
      refine ⟨known, recursive, fun e site => ?_⟩
      rw [edges] at site
      exact of_decide_eq_true (List.mem_filter.mp site).2
    · rw [List.flatMap_map, List.nodup_flatMap]
      refine ⟨fun p is => ?_, ?_⟩
      · rw [(kept.entries p is).2.2.2]
        exact ((each.nodup nodeId).filter _).filter _
      · refine (List.pairwise_map.mp kept.distinct).imp_of_mem fun {p q} first second other => ?_
        intro e (one : e ∈ p.2.edges) (both : e ∈ q.2.edges)
        rw [(kept.entries p first).2.2.2] at one
        rw [(kept.entries q second).2.2.2] at both
        exact other ((of_decide_eq_true (List.mem_filter.mp one).2).symm.trans
          (of_decide_eq_true (List.mem_filter.mp both).2))
    · rw [mem, List.mem_filter, each.mem]
      tauto
    · have firsts := kept.firsts
      rw [firstSites, List.filter_map, List.map_map] at firsts
      rw [List.filter_map, List.map_map, directRows, List.map_filterMap]
      refine Eq.symm (firsts.trans (List.filterMap_congr fun e _ => ?_))
      rw [Option.map_map]
      rfl

/-- The sites on either side, against the callers and the callees of one level. -/
theorem get_call_sites (store : Store) (nodeId : NodeId) :
    (∃ callers, getCallers store nodeId = some callers ∧
      CallSites store.db Edge.target Edge.source nodeId callers (getCallSites store nodeId .callers)) ∧
    ∃ callees, getCallees store nodeId = some callees ∧
      CallSites store.db Edge.source Edge.target nodeId callees (getCallSites store nodeId .callees) :=
  ⟨callSites_firsts (callRows_incoming store) (fun _ _ => .inr) nodeId,
    callSites_firsts (callRows_outgoing store) (fun _ _ => .inl) nodeId⟩

end CodeGraph.Graph
