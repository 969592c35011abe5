import CodeGraph.Graph.ImpactWalks

/-! The recursion of the impact radius ends. -/
namespace CodeGraph.Graph

/-- The nodes that a visit at depth `d` could still enter. -/
def room (db : Database) (visited : NodeId → Option Nat) (d : Nat) : Nat :=
  db.nodes.countP fun n => nearerThanBefore visited n.id d

structure Shrinks (budget : Budget) (s t : Impact) : Prop where
  nearer : ∀ id d, nearerThanBefore t.visited id d = true → nearerThanBefore s.visited id d = true
  edges : s.edges.length ≤ budget.maxEdges → t.edges.length ≤ budget.maxEdges

private theorem shrinks_refl (budget : Budget) (s : Impact) : Shrinks budget s s :=
  ⟨fun _ _ h => h, id⟩

private theorem shrinks_trans {budget : Budget} {s t u : Impact} (first : Shrinks budget s t)
    (second : Shrinks budget t u) : Shrinks budget s u :=
  ⟨fun id d h => first.nearer id d (second.nearer id d h), second.edges ∘ first.edges⟩

private theorem room_shrinks {db : Database} {budget : Budget} {s t : Impact}
    (shrinks : Shrinks budget s t) (d : Nat) : room db t.visited d ≤ room db s.visited d :=
  List.countP_mono_left fun n _ h => shrinks.nearer n.id d h

private theorem room_deeper (db : Database) (visited : NodeId → Option Nat) (d : Nat) :
    room db visited (d + 1) ≤ room db visited d := by
  refine List.countP_mono_left fun n _ h => ?_
  unfold nearerThanBefore at h ⊢
  cases seen : visited n.id with
  | none => rfl
  | some v =>
    rw [seen] at h
    have deep : d + 1 < v := of_decide_eq_true h
    exact decide_eq_true (by omega)

private theorem nearer_visitedSet {visited : NodeId → Option Nat} {id m : NodeId} {c d : Nat}
    (near : nearerThanBefore visited id d = true)
    (later : nearerThanBefore (visitedSet visited id d) m c = true) :
    nearerThanBefore visited m c = true := by
  by_cases same : m = id
  · subst same
    have less : c < d := by simpa [nearerThanBefore, visitedSet] using later
    unfold nearerThanBefore at near ⊢
    cases seen : visited m with
    | none => rfl
    | some v =>
      rw [seen] at near
      have below : d < v := of_decide_eq_true near
      exact decide_eq_true (by omega)
  · simpa [nearerThanBefore, visitedSet, same] using later

private theorem room_enter {db : Database} {visited : NodeId → Option Nat} {id : NodeId} {d : Nat}
    (known : (db.getNodeById id).isSome = true) (near : nearerThanBefore visited id d = true) :
    room db (visitedSet visited id d) d < room db visited d := by
  obtain ⟨node, found⟩ := Option.isSome_iff_exists.mp known
  have named := Database.getNodeById_id found
  refine DepthWalk.countP_lt (fun n _ h => nearer_visitedSet near h) (Database.getNodeById_mem found)
    (by rw [named]; exact near) ?_
  simp [nearerThanBefore, visitedSet, named]

def Returns (db : Database) (budget : Budget) (recurse : Recursion) (fuel : Nat) : Prop :=
  ∀ id d s, (db.getNodeById id).isSome = true → room db s.visited d < fuel →
    ∃ t, recurse id d s = some t ∧ Shrinks budget s t

section Totality

variable {db : Database} {budget : Budget} {recurse : Recursion} {fuel : Nat}

private theorem foldlM_returns {d : Nat} {step : Impact → Edge → Option Impact}
    (each : ∀ s e, room db s.visited d < fuel → ∃ t, step s e = some t ∧ Shrinks budget s t)
    (rows : List Edge) {s r : Impact} (before : Shrinks budget s r)
    (small : room db r.visited d < fuel) :
    ∃ t, rows.foldlM step r = some t ∧ Shrinks budget s t := by
  induction rows generalizing r with
  | nil => exact ⟨r, rfl, before⟩
  | cons e rows ih =>
    obtain ⟨m, head, shrinks⟩ := each r e small
    obtain ⟨t, tail, after⟩ :=
      ih (shrinks_trans before shrinks) (Nat.lt_of_le_of_lt (room_shrinks shrinks d) small)
    exact ⟨t, by rw [List.foldlM_cons, head]; exact tail, after⟩

variable (returns : Returns db budget recurse fuel)

include returns

private theorem childStep_returns {children : NodeId → Option Node}
    (known : ∀ id node, children id = some node → (db.getNodeById node.id).isSome = true)
    (d : Nat) (s : Impact) (e : Edge) (small : room db s.visited d < fuel) :
    ∃ t, childStep recurse budget children d s e = some t ∧ Shrinks budget s t := by
  unfold childStep
  cases found : children e.target with
  | none => exact ⟨s, rfl, shrinks_refl budget s⟩
  | some node =>
    simp only
    split
    · split
      · split
        · exact ⟨_, rfl, ⟨fun _ _ h => h, id⟩⟩
        · next fits =>
          obtain ⟨t, returned, shrinks⟩ := returns node.id d
            { s.setNode node with edges := s.edges ++ [e] } (known _ _ found) small
          refine ⟨t, returned, shrinks.nearer, fun _ => shrinks.edges ?_⟩
          rw [List.length_append, List.length_singleton]
          omega
      · exact returns node.id d s (known _ _ found) small
    · exact ⟨s, rfl, shrinks_refl budget s⟩

private theorem sourceStep_returns {sources : NodeId → Option Node}
    (known : ∀ id node, sources id = some node → (db.getNodeById node.id).isSome = true)
    (first : Bool) (d : Nat) (s : Impact) (e : Edge) (small : room db s.visited d < fuel) :
    ∃ t, sourceStep recurse budget sources first d s e = some t ∧ Shrinks budget s t := by
  unfold sourceStep
  cases found : sources e.source with
  | none => exact ⟨s, rfl, shrinks_refl budget s⟩
  | some node =>
    simp only
    split
    · exact ⟨_, rfl, ⟨fun _ _ h => h, id⟩⟩
    split
    · exact ⟨_, rfl, ⟨fun _ _ h => h, id⟩⟩
    next fits =>
    have recorded : Shrinks budget s
        (if first = true then { s with edges := s.edges ++ [e] } else s) := by
      cases first with
      | false => exact shrinks_refl budget s
      | true =>
        refine ⟨fun _ _ h => h, fun _ => ?_⟩
        change (s.edges ++ [e]).length ≤ _
        rw [List.length_append, List.length_singleton]
        omega
    generalize (if first = true then { s with edges := s.edges ++ [e] } else s) = r at recorded
    have small' : room db r.visited (d + 1) < fuel :=
      Nat.lt_of_le_of_lt (room_deeper db r.visited d)
        (Nat.lt_of_le_of_lt (room_shrinks recorded d) small)
    split
    · next near =>
      split
      · exact ⟨_, rfl, ⟨fun id c h => recorded.nearer id c (nearer_visitedSet near h),
          recorded.edges⟩⟩
      · obtain ⟨t, returned, shrinks⟩ := returns node.id (d + 1) (r.setNode node)
          (known _ _ found) small'
        exact ⟨t, returned, shrinks_trans recorded ⟨shrinks.nearer, shrinks.edges⟩⟩
    · exact ⟨r, rfl, recorded⟩

omit returns in
private theorem getNodesByIds_known {ids : List NodeId} {id : NodeId} {node : Node}
    (found : db.getNodesByIds ids id = some node) : (db.getNodeById node.id).isSome = true := by
  unfold Database.getNodesByIds at found
  split at found
  · rw [Database.getNodeById_id found, found]
    rfl
  · cases found

private theorem visitChildren_returns (id : NodeId) (d : Nat) (s : Impact)
    (small : room db s.visited d < fuel) :
    ∃ t, visitChildren db recurse budget id d s = some t ∧ Shrinks budget s t := by
  unfold visitChildren
  cases db.getNodeById id with
  | none => exact ⟨s, rfl, shrinks_refl budget s⟩
  | some focal =>
    simp only
    split
    · refine foldlM_returns (childStep_returns returns (fun _ _ => getNodesByIds_known) d) _ ?_ ?_
      · split <;> exact ⟨fun _ _ h => h, fun h => h⟩
      · split <;> exact small
    · exact ⟨s, rfl, shrinks_refl budget s⟩

private theorem visitSources_returns (id : NodeId) (first : Bool) (d : Nat) (s : Impact)
    (small : room db s.visited d < fuel) :
    ∃ t, visitSources db recurse budget id first d s = some t ∧ Shrinks budget s t := by
  unfold visitSources
  refine foldlM_returns (sourceStep_returns returns (fun _ _ => getNodesByIds_known) first d) _ ?_ ?_
  · split <;> exact ⟨fun _ _ h => h, fun h => h⟩
  · split <;> exact small

end Totality

/-- Each nested call enters a node that no call around it could enter again. -/
theorem getImpactRecursive_returns (db : Database) (maxDepth : MaxDepth) (budget : Budget)
    (fuel : Nat) : Returns db budget (getImpactRecursive db maxDepth budget fuel) fuel := by
  induction fuel with
  | zero => exact fun _ _ _ _ small => absurd small (Nat.not_lt_zero _)
  | succ fuel ih =>
    intro id d s known small
    rw [getImpactRecursive]
    split
    · exact ⟨s, rfl, shrinks_refl budget s⟩
    next near =>
    simp only [Bool.not_eq_true', Bool.not_eq_false] at near
    have entered : Shrinks budget s { s with visited := visitedSet s.visited id d } :=
      ⟨fun _ _ h => nearer_visitedSet near h, fun h => h⟩
    simp only
    split
    · exact ⟨_, rfl, entered⟩
    · have less := room_enter known near
      obtain ⟨m, children, shrinks⟩ := visitChildren_returns ih id d
        { s with visited := visitedSet s.visited id d, expanded := s.expanded.insert id }
        (show room db (visitedSet s.visited id d) d < fuel by omega)
      have small' : room db m.visited d < fuel :=
        Nat.lt_of_le_of_lt (room_shrinks shrinks d)
          (show room db (visitedSet s.visited id d) d < fuel by omega)
      obtain ⟨t, sources, shrinks'⟩ :=
        visitSources_returns ih id (decide (id ∉ s.expanded)) d m small'
      refine ⟨t, Option.bind_eq_some_iff.mpr ⟨m, children, sources⟩, ?_⟩
      exact shrinks_trans entered (shrinks_trans ⟨shrinks.nearer, shrinks.edges⟩ shrinks')

private theorem unblocked_of_nearest {db : Database} {maxDepth : MaxDepth} {start : NodeId}
    (nearest : DocumentationNearest db maxDepth start) :
    DepthWalk.Unblocked (impactSteps db maxDepth) start := by
  intro id d stops steps walk within
  obtain ⟨node, found, doc⟩ : ∃ node, db.getNodeById id = some node ∧
      isDocumentationNode node = true := by
    simpa [impactSteps, Option.any_eq_true] using stops
  have leaves : HasSteps db id := by
    obtain ⟨e, down | back⟩ := steps
    · obtain ⟨row, source, contains, child, container⟩ := mem_childRows.mp down
      refine ⟨e, row, .inr ⟨source, contains, child, ?_⟩⟩
      simpa [isContainer, Option.any_eq_true] using container
    · obtain ⟨row, target, kind, source⟩ := mem_dependentRows.mp back
      exact ⟨e, row, .inl ⟨target, kind, source⟩⟩
  obtain ⟨c, active, least⟩ := nearest id d node found doc leaves (affects_iff.mpr walk)
    (by simpa [impactSteps] using within)
  exact ⟨c, affects_iff.mp active, fun b stopped => least b (affects_iff.mpr stopped)⟩

private def readmeGraph : Database where
  nodes := [⟨"parse", .function, .typescript⟩, ⟨"main", .function, .typescript⟩,
    ⟨"README", .module, .markdown⟩]
  edges := [⟨1, "main", "parse", .calls, some 4, none⟩, ⟨2, "README", "parse", .references, none, none⟩]
  identities := by simp [Edge.identity]

private theorem readmeGraph_nearest : DocumentationNearest readmeGraph (some 3) "parse" := by
  intro id d node found doc steps
  have member := Database.getNodeById_mem found
  have named := Database.getNodeById_id found
  have readme : id = "README" := by
    simp only [readmeGraph, List.mem_cons, List.not_mem_nil, or_false] at member
    rcases member with rfl | rfl | rfl
    · cases doc
    · cases doc
    · exact named.symm
  subst readme
  obtain ⟨e, row, back | down⟩ := steps
  · simp only [readmeGraph, List.mem_cons, List.not_mem_nil, or_false] at row
    rcases row with rfl | rfl <;> simp at back
  · simp only [readmeGraph, List.mem_cons, List.not_mem_nil, or_false] at row
    rcases row with rfl | rfl <;> simp at down

private def guideGraph : Database where
  nodes := [⟨"parse", .function, .typescript⟩, ⟨"Guide", .module, .markdown⟩,
    ⟨"Parser", .class, .typescript⟩, ⟨"main", .function, .typescript⟩]
  edges := [⟨1, "Guide", "parse", .references, none, none⟩,
    ⟨2, "Parser", "parse", .references, none, none⟩,
    ⟨3, "Parser", "Guide", .contains, none, none⟩, ⟨4, "main", "Guide", .references, none, none⟩]
  identities := by simp [Edge.identity]

end CodeGraph.Graph
