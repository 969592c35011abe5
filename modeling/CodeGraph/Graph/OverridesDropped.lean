import CodeGraph.Graph.OverridesExact

/-!
# The members that are dropped

A member is dropped exactly if what is above its container may declare it.
-/
namespace CodeGraph.Graph.DeadCode

open Distance Gathering InsertionMap Text

variable (cg : Index)

def IsSupertype (container a : NodeId) : Prop :=
  IsAncestor cg [.extends, .implements] container a

def Declares (a : NodeId) (name : JsString) : Prop :=
  ∃ e ∈ cg.edges, e.kind = .contains ∧ e.source = a ∧
    ∃ member, cg.nodes.find? (·.id = e.target) = some member ∧
      member.kind ∈ OVERRIDABLE_KINDS ∧ member.name = name

def UnresolvedSupertype (id : NodeId) : Prop :=
  ∃ r ∈ cg.unresolvedRefs, r.fromNodeId = id ∧
    r.referenceKind ∈ [ReferenceKind.edge .extends, .edge .implements]

def MayOverride (container : NodeId) (name : JsString) : Prop :=
  (∃ a, IsSupertype cg container a ∧ Declares cg a name) ∨
    (UnresolvedSupertype cg container ∨
      ∃ a, IsSupertype cg container a ∧ UnresolvedSupertype cg a) ∨
    ∃ a, IsSupertype cg container a ∧ ∀ other, ¬Declares cg a other

variable {cg} {ids : List NodeId} {a r id : NodeId} {name : JsString}

theorem mem_unresolvedSupertypes :
    id ∈ cg.getUnresolvedSupertypeSourcesAmong ids ↔ id ∈ ids ∧ UnresolvedSupertype cg id := by
  rw [Index.getUnresolvedSupertypeSourcesAmong, List.mem_filter, List.any_eq_true]
  simp [UnresolvedSupertype]

theorem mem_containerIds {containers : List (NodeId × MemberNode)} :
    r ∈ containers.foldl (fun set e => addTo set e.2.id) [] ↔ ∃ e ∈ containers, e.2.id = r := by
  have each : ∀ (set : List NodeId) (e : NodeId × MemberNode) (a : NodeId),
      a ∈ addTo set e.2.id ↔ a ∈ set ∨ e.2.id = a := by
    intro set e a
    rw [mem_addTo, eq_comm]
  rw [mem_foldl each]
  simp

/-- The entries of the walk's map that have a container among their roots. -/
theorem entry_iff {p : NodeId → Prop} (given : r ∈ ids) :
    (∃ e ∈ ancestorsOf cg ids [.extends, .implements], r ∈ e.2 ∧ p e.1) ↔
      ∃ a, IsSupertype cg r a ∧ p a := by
  constructor
  · rintro ⟨e, listed, root, holds⟩
    obtain ⟨-, above⟩ := mem_ancestorsOf.mp ((mem_entry listed).mp root)
    exact ⟨e.1, above, holds⟩
  · rintro ⟨a, above, holds⟩
    have root := mem_ancestorsOf.mpr ⟨given, above⟩
    obtain ⟨e, listed, rfl⟩ := List.mem_map.mp (key_of_members (List.ne_nil_of_mem root))
    exact ⟨e, listed, (mem_entry listed).mpr root, holds⟩

theorem mem_memberNames {ancestorIds : List NodeId} (listed : a ∈ ancestorIds) :
    name ∈ memberNames cg ancestorIds a ↔ Declares cg a name := by
  let memberEdges := cg.getOutgoingEdgesFrom ancestorIds [.contains]
  have among : ∀ e, e ∈ memberEdges ↔ e ∈ cg.edges ∧ e.source ∈ ancestorIds ∧ e.kind = .contains := by
    intro e
    rw [mem_getOutgoingEdgesFrom]
    simp
  rw [memberNames, members_push_all, List.mem_filterMap]
  constructor
  · rintro ⟨target, under, named⟩
    obtain ⟨e, ⟨child, source⟩, rfl⟩ : ∃ e, (e ∈ memberEdges ∧ e.source = a) ∧ e.target = target := by
      simpa [members, lookup] using under
    obtain ⟨stored, -, kind⟩ := (among e).mp child
    obtain ⟨member, found, named⟩ := Option.bind_eq_some_iff.mp named
    rw [Index.getNodesByIds, if_pos (List.mem_map.mpr ⟨e, child, rfl⟩)] at found
    split at named
    next overridable =>
      exact ⟨e, stored, kind, source, member, found, overridable, Option.some.inj named⟩
    next => cases named
  · rintro ⟨e, stored, kind, source, member, found, overridable, rfl⟩
    have child := (among e).mpr ⟨stored, source.symm ▸ listed, kind⟩
    refine ⟨e.target, ?_, ?_⟩
    · have under : ∃ e', (e' ∈ memberEdges ∧ e'.source = a) ∧ e'.target = e.target :=
        ⟨e, ⟨child, source⟩, rfl⟩
      simpa [members, lookup] using under
    · rw [Index.getNodesByIds, if_pos (List.mem_map.mpr ⟨e, child, rfl⟩), found]
      exact if_pos overridable

theorem opaque_after (names : NodeId → List JsString) (reach : IdSets) (s : Inherited) :
    r ∈ (reach.foldl (fun s e => e.2.foldl (inheritFrom (names e.1)) s) s).opaqueContainers ↔
      r ∈ s.opaqueContainers ∨ ∃ e ∈ reach, r ∈ e.2 ∧ names e.1 = [] := by
  have one : ∀ (names : List JsString) (s : Inherited) (root : NodeId),
      r ∈ (inheritFrom names s root).opaqueContainers ↔
        r ∈ s.opaqueContainers ∨ r = root ∧ names = [] := by
    intro names s root
    rw [inheritFrom]
    split
    next none_ => simp [none_]
    next some_ => simp [some_]
  have each : ∀ (s : Inherited) (e : NodeId × List NodeId),
      r ∈ (e.2.foldl (inheritFrom (names e.1)) s).opaqueContainers ↔
        r ∈ s.opaqueContainers ∨ r ∈ e.2 ∧ names e.1 = [] := by
    intro s e
    have roots := @holds_foldl NodeId Inherited (inheritFrom (names e.1))
      (fun s => r ∈ s.opaqueContainers) (fun root => r = root ∧ names e.1 = []) (one _) e.2 s
    simpa using roots
  exact @holds_foldl (NodeId × List NodeId) Inherited _ (fun s => r ∈ s.opaqueContainers)
    (fun e => r ∈ e.2 ∧ names e.1 = []) each reach s

theorem names_after (names : NodeId → List JsString) (reach : IdSets) (s : Inherited) :
    name ∈ members
        (reach.foldl (fun s e => e.2.foldl (inheritFrom (names e.1)) s) s).namesByContainer r ↔
      name ∈ members s.namesByContainer r ∨ ∃ e ∈ reach, r ∈ e.2 ∧ name ∈ names e.1 := by
  have one : ∀ (names : List JsString) (s : Inherited) (root : NodeId),
      name ∈ members (inheritFrom names s root).namesByContainer r ↔
        name ∈ members s.namesByContainer r ∨ r = root ∧ name ∈ names := by
    intro names s root
    rw [inheritFrom]
    split
    next none_ => simp [none_]
    next some_ =>
      rw [members_assign]
      by_cases here : r = root
      · subst here
        rw [if_pos rfl, mem_foldl_addTo]
        simp
      · simp [here]
  have each : ∀ (s : Inherited) (e : NodeId × List NodeId),
      name ∈ members (e.2.foldl (inheritFrom (names e.1)) s).namesByContainer r ↔
        name ∈ members s.namesByContainer r ∨ r ∈ e.2 ∧ name ∈ names e.1 := by
    intro s e
    have roots := @holds_foldl NodeId Inherited (inheritFrom (names e.1))
      (fun s => name ∈ members s.namesByContainer r) (fun root => r = root ∧ name ∈ names e.1)
      (one _) e.2 s
    simpa using roots
  exact @holds_foldl (NodeId × List NodeId) Inherited _
    (fun s => name ∈ members s.namesByContainer r) (fun e => r ∈ e.2 ∧ name ∈ names e.1) each reach s

theorem mem_externalContainers (given : r ∈ ids) :
    r ∈ externalContainers cg ids (ancestorsOf cg ids [.extends, .implements]) ↔
      UnresolvedSupertype cg r ∨ ∃ a, IsSupertype cg r a ∧ UnresolvedSupertype cg a := by
  have own : ∀ (external set : List NodeId) (id a : NodeId),
      a ∈ (if id ∈ external then addTo set id else set) ↔ a ∈ set ∨ id ∈ external ∧ a = id := by
    intro external set id a
    split
    next based => simp [based]
    next free => simp [free]
  have above : ∀ (external set : List NodeId) (e : NodeId × List NodeId) (a : NodeId),
      a ∈ (if e.1 ∈ external then e.2.foldl addTo set else set) ↔
        a ∈ set ∨ e.1 ∈ external ∧ a ∈ e.2 := by
    intro external set e a
    split
    next based =>
      rw [mem_foldl_addTo]
      simp [based]
    next free => simp [free]
  rw [externalContainers]
  rw [mem_foldl (above _), mem_foldl (own _)]
  simp only [mem_unresolvedSupertypes, List.mem_append]
  rw [← entry_iff (p := UnresolvedSupertype cg) given]
  constructor
  · rintro ((none_ | ⟨id, -, ⟨-, based⟩, rfl⟩) | ⟨e, listed, ⟨-, based⟩, root⟩)
    · cases none_
    · exact Or.inl based
    · exact Or.inr ⟨e, listed, root, based⟩
  · rintro (based | ⟨e, listed, root, based⟩)
    · exact Or.inl (Or.inr ⟨r, given, ⟨Or.inl given, based⟩, rfl⟩)
    · exact Or.inr ⟨e, listed, ⟨Or.inr (List.mem_map.mpr ⟨e, listed, rfl⟩), based⟩, root⟩

theorem inherited_iff (given : r ∈ ids) :
    r ∈ (inheritedBy cg ids).opaqueContainers ∨
        name ∈ members (inheritedBy cg ids).namesByContainer r ↔ MayOverride cg r name := by
  let reach := ancestorsOf cg ids [.extends, .implements]
  have declared : ∀ e ∈ reach, ∀ other,
      other ∈ memberNames cg (reach.map Prod.fst) e.1 ↔ Declares cg e.1 other :=
    fun e listed other => mem_memberNames (List.mem_map.mpr ⟨e, listed, rfl⟩)
  have named : (∃ e ∈ reach, r ∈ e.2 ∧ name ∈ memberNames cg (reach.map Prod.fst) e.1) ↔
      ∃ a, IsSupertype cg r a ∧ Declares cg a name := by
    rw [← entry_iff (p := fun a => Declares cg a name) given]
    constructor
    · rintro ⟨e, listed, root, named⟩
      exact ⟨e, listed, root, (declared e listed name).mp named⟩
    · rintro ⟨e, listed, root, named⟩
      exact ⟨e, listed, root, (declared e listed name).mpr named⟩
  have bare : (∃ e ∈ reach, r ∈ e.2 ∧ memberNames cg (reach.map Prod.fst) e.1 = []) ↔
      ∃ a, IsSupertype cg r a ∧ ∀ other, ¬Declares cg a other := by
    rw [← entry_iff (p := fun a => ∀ other, ¬Declares cg a other) given]
    have none_ : ∀ e ∈ reach, memberNames cg (reach.map Prod.fst) e.1 = [] ↔
        ∀ other, ¬Declares cg e.1 other := by
      intro e listed
      simp only [List.eq_nil_iff_forall_not_mem, declared e listed]
    constructor
    · rintro ⟨e, listed, root, nothing⟩
      exact ⟨e, listed, root, (none_ e listed).mp nothing⟩
    · rintro ⟨e, listed, root, nothing⟩
      exact ⟨e, listed, root, (none_ e listed).mpr nothing⟩
  rw [inheritedBy, opaque_after, names_after, mem_externalContainers given, bare, named, MayOverride]
  have nothing : ¬name ∈ members ([] : List (NodeId × List JsString)) r := List.not_mem_nil
  constructor
  · rintro ((based | bare) | none_ | named)
    · exact Or.inr (Or.inl based)
    · exact Or.inr (Or.inr bare)
    · exact absurd none_ nothing
    · exact Or.inl named
  · rintro (named | based | bare)
    · exact Or.inr (Or.inr named)
    · exact Or.inl (Or.inl based)
    · exact Or.inl (Or.inr bare)

theorem mem_dropped {nodes : List MemberNode} {containers : List (NodeId × MemberNode)}
    {inherited : Inherited} :
    id ∈ nodes.foldl (dropStep inherited containers) [] ↔
      ∃ node ∈ nodes, node.id = id ∧ ∃ container, lookup containers node.id = some container ∧
        (container.id ∈ inherited.opaqueContainers ∨
          node.name ∈ members inherited.namesByContainer container.id) := by
  have each : ∀ (dropped : List NodeId) (node : MemberNode) (id : NodeId),
      id ∈ dropStep inherited containers dropped node ↔
        id ∈ dropped ∨ node.id = id ∧ ∃ container, lookup containers node.id = some container ∧
          (container.id ∈ inherited.opaqueContainers ∨
            node.name ∈ members inherited.namesByContainer container.id) := by
    intro dropped node id
    rw [dropStep]
    cases found : lookup containers node.id with
    | none => simp
    | some container =>
      simp only [Option.some.injEq, exists_eq_left']
      split
      next hidden => simp [hidden, eq_comm]
      next known =>
        split
        next named => simp [named, eq_comm]
        next unnamed => simp [known, unnamed]
  rw [mem_foldl each]
  simp

/-- The walk is exact, and so is what is dropped. -/
theorem override_candidates_exact (cg : Index) :
    (∀ (ids : List NodeId) (kinds : List EdgeKind) (a r : NodeId),
      r ∈ members (ancestorsOf cg ids kinds) a ↔ r ∈ ids ∧ IsAncestor cg kinds r a) ∧
    ∀ (nodes : List MemberNode) (containers : List (NodeId × MemberNode)) (id : NodeId),
      id ∈ overrideCandidates cg nodes containers ↔
        ∃ node ∈ nodes, node.id = id ∧ ∃ container, lookup containers node.id = some container ∧
          MayOverride cg container.id node.name := by
  refine ⟨fun ids kinds a r => mem_ancestorsOf, fun nodes containers id => ?_⟩
  have given : ∀ {node container}, lookup containers node = some container →
      container.id ∈ containers.foldl (fun set e => addTo set e.2.id) [] :=
    fun found => mem_containerIds.mpr ⟨_, mem_of_lookup found, rfl⟩
  rw [overrideCandidates]
  split
  next none_ =>
    -- without containers no member has one
    constructor
    · intro nothing
      cases nothing
    · rintro ⟨node, -, -, container, found, -⟩
      have listed := given found
      rw [none_] at listed
      cases listed
  next =>
    rw [mem_dropped]
    constructor
    · rintro ⟨node, listed, same, container, found, known⟩
      exact ⟨node, listed, same, container, found, (inherited_iff (given found)).mp known⟩
    · rintro ⟨node, listed, same, container, found, above⟩
      exact ⟨node, listed, same, container, found, (inherited_iff (given found)).mpr above⟩

end CodeGraph.Graph.DeadCode
