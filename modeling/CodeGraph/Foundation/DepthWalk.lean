import CodeGraph.Foundation.Decisions

/-! Depth-first walks with steps of cost 0 and 1 that enter a node again when they reach it
cheaper. -/
namespace CodeGraph.DepthWalk

/-- A step of cost 0 leads to the target of an edge, one of cost 1 back to its source. -/
structure Steps (α ε : Type) where
  source : ε → α
  target : ε → α
  down : α → List ε
  back : α → List ε
  /-- Entered at cost 1, such a node is not left again. -/
  stops : α → Bool
  /-- The depths at which a node is left. -/
  within : Nat → Bool
  down_source : ∀ n, ∀ e ∈ down n, source e = n
  back_target : ∀ n, ∀ e ∈ back n, target e = n
  apart : ∀ n m, ∀ e ∈ down n, e ∉ back m
  back_nodup : ∀ n, (back n).Nodup
  shallower : ∀ d, within (d + 1) = true → within d = true

/-- The nodes a walk can enter, with the depth they are entered at and whether the walk stops
there. -/
inductive Walk {α ε : Type} (g : Steps α ε) (start : α) : α → Nat → Bool → Prop where
  | start : Walk g start start 0 false
  | down {n d e} : Walk g start n d false → g.within d = true → e ∈ g.down n →
      Walk g start (g.target e) d false
  | back {n d e} : Walk g start n d false → g.within d = true → e ∈ g.back n →
      Walk g start (g.source e) (d + 1) (g.stops (g.source e))

structure State (α ε : Type) where
  visited : α → Option Nat
  nodes : List α
  edges : List ε
  expanded : List α

/-! ### What holds of every state -/

section Relations

variable {α ε : Type}

/-- The node is marked with depth `d` or a lesser one. -/
def AtMost (s : State α ε) (n : α) (d : Nat) : Prop := ∃ v ≤ d, s.visited n = some v

structure Inv (g : Steps α ε) (start : α) (s : State α ε) : Prop where
  listed : ∀ n v, s.visited n = some v → n ∈ s.nodes
  walked : ∀ n v, s.visited n = some v → ∃ b, Walk g start n v b
  reached : ∀ n ∈ s.nodes, ∃ d b, Walk g start n d b
  ends : ∀ e ∈ s.edges, g.source e ∈ s.nodes ∧ g.target e ∈ s.nodes
  recorded : ∀ e ∈ s.edges, (∃ n, e ∈ g.down n) ∨ ∃ n ∈ s.expanded, e ∈ g.back n
  nodup : s.edges.Nodup

/-- Every step out of the node has been taken from depth `d` or a lesser one. -/
structure Closed (g : Steps α ε) (s : State α ε) (n : α) (d : Nat) : Prop where
  expanded : n ∈ s.expanded
  down : ∀ e ∈ g.down n, AtMost s (g.target e) d
  back : ∀ e ∈ g.back n, AtMost s (g.source e) (d + 1)

/-- What a part of the search changes. Edges into the nodes of `old` are not added. -/
structure Settles (g : Steps α ε) (start : α) (old : List α) (s t : State α ε) : Prop where
  nodes : s.nodes ⊆ t.nodes
  edges : s.edges ⊆ t.edges
  expanded : s.expanded ⊆ t.expanded
  lowered : ∀ n d, AtMost s n d → AtMost t n d
  closed : ∀ n v, t.visited n = some v → s.visited n = some v ∨ g.within v = false ∨
    Closed g t n v ∨ g.stops n = true ∧ Walk g start n v true
  reported : ∀ n ∈ t.expanded, n ∈ s.expanded ∨ ∀ e ∈ g.back n, e ∈ t.edges
  added : ∀ e ∈ t.edges, e ∈ s.edges ∨ (∃ n, e ∈ g.down n) ∨ ∃ n, n ∉ old ∧ e ∈ g.back n

variable {g : Steps α ε} {start : α} {old : List α} {s t u : State α ε}

theorem within_of_le {c d : Nat} (le : c ≤ d) (within : g.within d = true) :
    g.within c = true := by
  induction le with
  | refl => exact within
  | step _ ih => exact ih (g.shallower _ within)

theorem atMost_weaken {n : α} {c d : Nat} (reached : AtMost s n c) (le : c ≤ d) : AtMost s n d := by
  obtain ⟨v, below, seen⟩ := reached
  exact ⟨v, Nat.le_trans below le, seen⟩

theorem closed_mono {n : α} {d : Nat} (closed : Closed g s n d) (grown : Settles g start old s t) :
    Closed g t n d where
  expanded := grown.expanded closed.expanded
  down e member := grown.lowered _ _ (closed.down e member)
  back e member := grown.lowered _ _ (closed.back e member)

theorem settles_refl : Settles g start old s s where
  nodes := List.Subset.refl _
  edges := List.Subset.refl _
  expanded := List.Subset.refl _
  lowered _ _ h := h
  closed _ _ h := .inl h
  reported _ h := .inl h
  added _ h := .inl h

theorem settles_trans (first : Settles g start old s t) (second : Settles g start old t u) :
    Settles g start old s u where
  nodes := List.Subset.trans first.nodes second.nodes
  edges := List.Subset.trans first.edges second.edges
  expanded := List.Subset.trans first.expanded second.expanded
  lowered n d h := second.lowered n d (first.lowered n d h)
  closed n v seen := by
    rcases second.closed n v seen with earlier | later
    · rcases first.closed n v earlier with same | beyond | closed | stopped
      · exact .inl same
      · exact .inr (.inl beyond)
      · exact .inr (.inr (.inl (closed_mono closed second)))
      · exact .inr (.inr (.inr stopped))
    · exact .inr later
  reported n member := by
    rcases second.reported n member with earlier | all
    · rcases first.reported n earlier with same | all
      · exact .inl same
      · exact .inr fun e h => second.edges (all e h)
    · exact .inr all
  added e member := by
    rcases second.added e member with earlier | later
    · exact first.added e earlier
    · exact .inr later

theorem settles_weaken {more : List α} (sub : old ⊆ more) (settles : Settles g start more s t) :
    Settles g start old s t :=
  { settles with
    added := fun e member => by
      rcases settles.added e member with earlier | down | ⟨n, fresh, back⟩
      · exact .inl earlier
      · exact .inr (.inl down)
      · exact .inr (.inr ⟨n, fun h => fresh (sub h), back⟩) }

end Relations

/-! ### The search -/

section Search

variable {α ε : Type} [DecidableEq α]

def nearer (visited : α → Option Nat) (n : α) (d : Nat) : Bool :=
  (visited n).all fun seen => d < seen

def mark (visited : α → Option Nat) (n : α) (d : Nat) : α → Option Nat :=
  fun m => if m = n then some d else visited m

def downStep (g : Steps α ε) (visit : α → Nat → State α ε → Option (State α ε)) (d : Nat)
    (s : State α ε) (e : ε) : Option (State α ε) :=
  if nearer s.visited (g.target e) d then
    visit (g.target e) d
      (if g.target e ∈ s.nodes then s
        else { s with nodes := s.nodes ++ [g.target e], edges := s.edges ++ [e] })
  else some s

def record (first : Bool) (s : State α ε) (e : ε) : State α ε :=
  if first then { s with edges := s.edges ++ [e] } else s

def addNode (s : State α ε) (n : α) : State α ε :=
  if n ∈ s.nodes then s else { s with nodes := s.nodes ++ [n] }

def backStep (g : Steps α ε) (visit : α → Nat → State α ε → Option (State α ε)) (first : Bool)
    (d : Nat) (s : State α ε) (e : ε) : Option (State α ε) :=
  let s := record first s e
  if nearer s.visited (g.source e) (d + 1) then
    let s := addNode s (g.source e)
    if g.stops (g.source e) then
      some { s with visited := mark s.visited (g.source e) (d + 1) }
    else visit (g.source e) (d + 1) s
  else some s

/-- The state in which the steps of a node entered at depth `d` are taken. -/
def enter (s : State α ε) (n : α) (d : Nat) : State α ε :=
  { s with visited := mark s.visited n d, expanded := s.expanded.insert n }

/-- The fuel bounds the nesting. -/
def visit (g : Steps α ε) : Nat → α → Nat → State α ε → Option (State α ε)
  | 0, _, _, _ => none
  | fuel + 1, n, d, s =>
    if nearer s.visited n d then
      if g.within d then do
        let entered ← (g.down n).foldlM (downStep g (visit g fuel) d) (enter s n d)
        (g.back n).foldlM (backStep g (visit g fuel) (n ∉ s.expanded) d) entered
      else some { s with visited := mark s.visited n d }
    else some s

variable {g : Steps α ε} {start : α} {old : List α} {s t u : State α ε}

omit [DecidableEq α] in
theorem nearer_false {n : α} {d : Nat} (far : nearer s.visited n d = false) : AtMost s n d := by
  unfold nearer at far
  cases seen : s.visited n with
  | none => simp [seen] at far
  | some v =>
    rw [seen] at far
    exact ⟨v, by simpa using far, seen⟩

theorem atMost_mark {n m : α} {c d : Nat} (near : nearer s.visited n d = true)
    (reached : AtMost s m c) :
    AtMost ({ s with visited := mark s.visited n d } : State α ε) m c := by
  obtain ⟨v, below, seen⟩ := reached
  by_cases same : m = n
  · subst same
    have less : d < v := by simpa [nearer, seen] using near
    exact ⟨d, by omega, by simp [mark]⟩
  · exact ⟨v, below, by simpa [mark, same] using seen⟩

def Keeps (g : Steps α ε) (start : α) (visit : α → Nat → State α ε → Option (State α ε)) : Prop :=
  ∀ n d s t, Inv g start s → n ∈ s.nodes → Walk g start n d false → visit n d s = some t →
    Inv g start t ∧ Settles g start s.expanded s t ∧ AtMost t n d

private theorem mem_addNode (s : State α ε) (n : α) : n ∈ (addNode s n).nodes := by
  unfold addNode
  split
  · assumption
  · exact List.mem_append_right _ (List.mem_singleton.mpr rfl)

private theorem inv_addNode (inv : Inv g start s) {n : α} {d : Nat} {b : Bool}
    (walk : Walk g start n d b) : Inv g start (addNode s n) := by
  unfold addNode
  split
  · exact inv
  · exact { inv with
      listed := fun m v seen => List.mem_append_left _ (inv.listed m v seen)
      reached := forall_snoc inv.reached (⟨d, b, walk⟩)
      ends := fun e member =>
        (inv.ends e member).imp (List.mem_append_left _) (List.mem_append_left _) }

private theorem settles_addNode (s : State α ε) (n : α) : Settles g start old s (addNode s n) := by
  unfold addNode
  split
  · exact settles_refl
  · exact {
      nodes := List.subset_append_left _ _
      edges := List.Subset.refl _
      expanded := List.Subset.refl _
      lowered := fun _ _ h => h
      closed := fun _ _ h => .inl h
      reported := fun _ h => .inl h
      added := fun _ h => .inl h }

omit [DecidableEq α] in
private theorem inv_pushEdge (inv : Inv g start s) {e : ε} (source : g.source e ∈ s.nodes)
    (target : g.target e ∈ s.nodes)
    (kind : (∃ n, e ∈ g.down n) ∨ ∃ n ∈ s.expanded, e ∈ g.back n) (fresh : e ∉ s.edges) :
    Inv g start { s with edges := s.edges ++ [e] } :=
  { inv with
    ends := forall_snoc inv.ends (⟨source, target⟩)
    recorded := forall_snoc inv.recorded kind
    nodup := nodup_snoc inv.nodup fresh }

omit [DecidableEq α] in
private theorem settles_pushEdge (s : State α ε) {e : ε}
    (kind : (∃ n, e ∈ g.down n) ∨ ∃ n, n ∉ old ∧ e ∈ g.back n) :
    Settles g start old s { s with edges := s.edges ++ [e] } where
  nodes := List.Subset.refl _
  edges := List.subset_append_left _ _
  expanded := List.Subset.refl _
  lowered _ _ h := h
  closed _ _ h := .inl h
  reported _ h := .inl h
  added f member := by
    rcases mem_snoc.mp member with earlier | new
    · exact .inl earlier
    · rw [new]
      exact .inr kind

private theorem inv_mark (inv : Inv g start s) {n : α} {d : Nat} {b : Bool} (here : n ∈ s.nodes)
    (walk : Walk g start n d b) :
    Inv g start { s with visited := mark s.visited n d } :=
  { inv with
    listed := by
      intro m v seen
      by_cases same : m = n
      · rw [same]
        exact here
      · exact inv.listed m v (by simpa [mark, same] using seen)
    walked := by
      intro m v seen
      by_cases same : m = n
      · have depth : d = v := by simpa [mark, same] using seen
        rw [same, ← depth]
        exact ⟨b, walk⟩
      · exact inv.walked m v (by simpa [mark, same] using seen) }

omit [DecidableEq α] in
private theorem inv_expand (inv : Inv g start s) {expanded : List α}
    (sub : s.expanded ⊆ expanded) : Inv g start { s with expanded := expanded } :=
  { inv with
    recorded := fun e member => (inv.recorded e member).imp_right fun ⟨n, h, back⟩ =>
      ⟨n, sub h, back⟩ }

variable {explore : α → Nat → State α ε → Option (State α ε)}

private theorem downStep_keeps (keeps : Keeps g start explore) {n : α} {d : Nat} {e : ε}
    (inv : Inv g start s) (here : n ∈ s.nodes) (walk : Walk g start n d false)
    (within : g.within d = true) (member : e ∈ g.down n)
    (returned : downStep g explore d s e = some t) :
    Inv g start t ∧ Settles g start s.expanded s t ∧ AtMost t (g.target e) d := by
  have entered : Walk g start (g.target e) d false := walk.down within member
  unfold downStep at returned
  split at returned
  · by_cases known : g.target e ∈ s.nodes
    · rw [if_pos known] at returned
      exact keeps _ _ _ _ inv known entered returned
    · rw [if_neg known] at returned
      -- The edge is new because its target is.
      have fresh : e ∉ s.edges := fun h => known (inv.ends e h).2
      have added : addNode s (g.target e) = { s with nodes := s.nodes ++ [g.target e] } :=
        if_neg known
      have source : g.source e ∈ (addNode s (g.target e)).nodes := by
        rw [g.down_source n e member]
        have grown : Settles g start [] s (addNode s (g.target e)) := settles_addNode s _
        exact grown.nodes here
      have pushed := inv_pushEdge (inv_addNode inv entered) source (mem_addNode s _)
        (.inl ⟨n, member⟩) (by rw [added]; exact fresh)
      have edge : Settles g start s.expanded (addNode s (g.target e))
          { addNode s (g.target e) with edges := (addNode s (g.target e)).edges ++ [e] } :=
        settles_pushEdge _ (.inl ⟨n, member⟩)
      have step := settles_trans (settles_addNode s (g.target e)) edge
      rw [added] at pushed step
      obtain ⟨kept, settles, reached⟩ :=
        keeps _ _ _ _ pushed (List.mem_append_right _ (List.mem_singleton.mpr rfl)) entered returned
      exact ⟨kept, settles_trans step settles, reached⟩
  · next far =>
    cases returned
    exact ⟨inv, settles_refl, nearer_false (by simpa using far)⟩

private theorem downLoop_keeps (keeps : Keeps g start explore) {n : α} {d : Nat}
    (walk : Walk g start n d false) (within : g.within d = true) (es : List ε)
    (members : ∀ e ∈ es, e ∈ g.down n) (inv : Inv g start s) (here : n ∈ s.nodes)
    (known : old ⊆ s.expanded) (returned : es.foldlM (downStep g explore d) s = some t) :
    Inv g start t ∧ Settles g start old s t ∧ ∀ e ∈ es, AtMost t (g.target e) d := by
  induction es generalizing s with
  | nil =>
    cases returned
    exact ⟨inv, settles_refl, by simp⟩
  | cons e es ih =>
    rw [List.foldlM_cons] at returned
    obtain ⟨m, first, rest⟩ := Option.bind_eq_some_iff.mp returned
    obtain ⟨inv', settles, reached⟩ :=
      downStep_keeps keeps inv here walk within (members e List.mem_cons_self) first
    obtain ⟨inv'', settles', all⟩ := ih (fun f h => members f (List.mem_cons_of_mem _ h)) inv'
      (settles.nodes here) (List.Subset.trans known settles.expanded) rest
    refine ⟨inv'', settles_trans (settles_weaken known settles) settles', fun f h => ?_⟩
    rcases List.mem_cons.mp h with rfl | h
    · exact settles'.lowered _ _ reached
    · exact all f h

private theorem addNode_record (first : Bool) (s : State α ε) (e : ε) (n : α) :
    addNode (record first s e) n = record first (addNode s n) e := by
  cases first with
  | false => rfl
  | true =>
    by_cases known : n ∈ s.nodes
    · simp [addNode, record, known]
    · simp [addNode, record, known]

omit [DecidableEq α] in
/-- Recording a step back out of `n`, whose source is in the result. -/
private theorem record_keeps {n : α} {e : ε} {first : Bool} (inv : Inv g start s)
    (member : e ∈ g.back n) (source : g.source e ∈ s.nodes) (here : n ∈ s.nodes)
    (expanded : n ∈ s.expanded) (unknown : first = true → n ∉ old)
    (fresh : first = true → e ∉ s.edges) :
    Inv g start (record first s e) ∧ Settles g start old s (record first s e) ∧
      (first = true → e ∈ (record first s e).edges) := by
  cases first with
  | false => exact ⟨inv, settles_refl, by simp⟩
  | true =>
    have target : g.target e ∈ s.nodes := by
      rw [g.back_target n e member]
      exact here
    exact ⟨inv_pushEdge inv source target (.inr ⟨n, expanded, member⟩) (fresh rfl),
      settles_pushEdge s (.inr ⟨n, unknown rfl, member⟩), by simp [record]⟩

omit [DecidableEq α] in
private theorem settles_leaves (settles : Settles g start s.expanded s t) {n : α} {e : ε}
    (expanded : n ∈ s.expanded) (member : e ∈ g.back n) (out : e ∉ s.edges) : e ∉ t.edges := by
  intro h
  rcases settles.added e h with same | ⟨m, down⟩ | ⟨m, other, back⟩
  · exact out same
  · exact g.apart m n e down member
  · have equal : m = n := (g.back_target m e back).symm.trans (g.back_target n e member)
    exact other (equal ▸ expanded)

private theorem settles_mark {n : α} {d : Nat} (near : nearer s.visited n d = true)
    (ends : g.within d = false ∨ g.stops n = true ∧ Walk g start n d true) :
    Settles g start old s { s with visited := mark s.visited n d } where
  nodes := List.Subset.refl _
  edges := List.Subset.refl _
  expanded := List.Subset.refl _
  lowered _ _ h := atMost_mark near h
  closed m v seen := by
    by_cases same : m = n
    · have depth : d = v := by simpa [mark, same] using seen
      rw [same, ← depth]
      exact .inr (ends.imp_right .inr)
    · exact .inl (by simpa [mark, same] using seen)
  reported _ h := .inl h
  added _ h := .inl h

private theorem backStep_keeps (keeps : Keeps g start explore) {n : α} {d : Nat} {e : ε}
    {first : Bool} (inv : Inv g start s) (here : n ∈ s.nodes) (walk : Walk g start n d false)
    (within : g.within d = true) (member : e ∈ g.back n) (expanded : n ∈ s.expanded)
    (known : old ⊆ s.expanded) (unknown : first = true → n ∉ old)
    (fresh : first = true → e ∉ s.edges) (returned : backStep g explore first d s e = some t) :
    Inv g start t ∧ Settles g start old s t ∧ AtMost t (g.source e) (d + 1) ∧
      (first = true → e ∈ t.edges) ∧
        ∀ f ∈ g.back n, f ≠ e → f ∉ s.edges → f ∉ t.edges := by
  have entered : Walk g start (g.source e) (d + 1) (g.stops (g.source e)) :=
    walk.back within member
  have others {r : State α ε} {f : ε} (grown : r.edges = s.edges) (differs : f ≠ e)
      (out : f ∉ s.edges) : f ∉ (record first r e).edges := by
    cases first with
    | false => exact grown ▸ out
    | true => simpa [record, differs, grown] using out
  have same_expanded (r : State α ε) : (record first r e).expanded = r.expanded := by
    cases first <;> rfl
  unfold backStep at returned
  simp only at returned
  split at returned
  · next near =>
    have near' : nearer s.visited (g.source e) (d + 1) = true := by
      cases first <;> exact near
    rw [addNode_record] at returned
    let r := addNode s (g.source e)
    have kept : r.edges = s.edges ∧ r.expanded = s.expanded ∧ r.visited = s.visited := by
      change (addNode s _).edges = _ ∧ (addNode s _).expanded = _ ∧ (addNode s _).visited = _
      unfold addNode
      split <;> exact ⟨rfl, rfl, rfl⟩
    have grown : Settles g start old s r := settles_addNode s (g.source e)
    obtain ⟨inv', recorded, edge⟩ := record_keeps
      (inv_addNode inv entered) member (mem_addNode s _) (grown.nodes here)
      (grown.expanded expanded) unknown (by rw [kept.1]; exact fresh)
    have here' : g.source e ∈ (record first r e).nodes := recorded.nodes (mem_addNode s _)
    split at returned
    · next stops =>
      cases returned
      have near'' : nearer (record first r e).visited (g.source e) (d + 1) = true := by
        have same : (record first r e).visited = s.visited := by
          cases first <;> exact kept.2.2
        rw [same]
        exact near'
      refine ⟨inv_mark inv' here' entered, settles_trans (settles_trans grown recorded)
        (settles_mark near'' (.inr ⟨stops, stops ▸ entered⟩)), ⟨d + 1, Nat.le_refl _, by simp [mark]⟩, edge, ?_⟩
      exact fun f _ differs out => others kept.1 differs out
    · next runs =>
      have entered' : Walk g start (g.source e) (d + 1) false := by
        simpa [runs] using entered
      obtain ⟨inv'', settles, reached⟩ := keeps _ _ _ _ inv' here' entered' returned
      have known' : old ⊆ (record first r e).expanded := by
        rw [same_expanded, kept.2.1]
        exact known
      refine ⟨inv'', settles_trans (settles_trans grown recorded) (settles_weaken known' settles),
        reached, fun h => settles.edges (edge h), fun f back differs out => ?_⟩
      have expanded' : n ∈ (record first r e).expanded := by
        rw [same_expanded, kept.2.1]
        exact expanded
      exact settles_leaves settles expanded' back (others kept.1 differs out)
  · next far =>
    cases returned
    have far' : ¬ nearer s.visited (g.source e) (d + 1) = true := by
      cases first <;> exact far
    obtain ⟨v, below, seen⟩ := nearer_false (Bool.eq_false_iff.mpr far')
    obtain ⟨inv', recorded, edge⟩ := record_keeps inv member
      (inv.listed _ _ seen) here expanded unknown fresh
    exact ⟨inv', recorded, recorded.lowered _ _ ⟨v, below, seen⟩, edge,
      fun f _ differs out => others rfl differs out⟩

private theorem backLoop_keeps (keeps : Keeps g start explore) {n : α} {d : Nat} {first : Bool}
    (walk : Walk g start n d false) (within : g.within d = true) (es : List ε) (distinct : es.Nodup)
    (members : ∀ e ∈ es, e ∈ g.back n) (inv : Inv g start s) (here : n ∈ s.nodes)
    (expanded : n ∈ s.expanded) (known : old ⊆ s.expanded) (unknown : first = true → n ∉ old)
    (fresh : first = true → ∀ e ∈ es, e ∉ s.edges)
    (returned : es.foldlM (backStep g explore first d) s = some t) :
    Inv g start t ∧ Settles g start old s t ∧
      (∀ e ∈ es, AtMost t (g.source e) (d + 1)) ∧ (first = true → ∀ e ∈ es, e ∈ t.edges) := by
  induction es generalizing s with
  | nil =>
    cases returned
    exact ⟨inv, settles_refl, by simp, by simp⟩
  | cons e es ih =>
    rw [List.foldlM_cons] at returned
    obtain ⟨m, head, rest⟩ := Option.bind_eq_some_iff.mp returned
    obtain ⟨apart, distinct⟩ := List.nodup_cons.mp distinct
    obtain ⟨inv', settles, reached, edge, leaves⟩ := backStep_keeps keeps inv here walk within
      (members e List.mem_cons_self) expanded known unknown
      (fun h => fresh h e List.mem_cons_self) head
    have fresh' : first = true → ∀ f ∈ es, f ∉ m.edges := fun h f member =>
      leaves f (members f (List.mem_cons_of_mem _ member)) (fun same => apart (same ▸ member))
        (fresh h f (List.mem_cons_of_mem _ member))
    obtain ⟨inv'', settles', all, edges⟩ := ih distinct
      (fun f h => members f (List.mem_cons_of_mem _ h)) inv' (settles.nodes here)
      (settles.expanded expanded) (List.Subset.trans known settles.expanded) fresh' rest
    refine ⟨inv'', settles_trans settles settles', fun f h => ?_, fun h f member => ?_⟩
    · rcases List.mem_cons.mp h with rfl | h
      · exact settles'.lowered _ _ reached
      · exact all f h
    · rcases List.mem_cons.mp member with rfl | member
      · exact settles'.edges (edge h)
      · exact edges h f member

/-! ### The whole search -/

private theorem settles_enter {n : α} {d : Nat} (near : nearer s.visited n d = true)
    (inner : Settles g start s.expanded (enter s n d) t) (closed : Closed g t n d)
    (edges : n ∉ s.expanded → ∀ e ∈ g.back n, e ∈ t.edges) :
    Settles g start s.expanded s t where
  nodes := inner.nodes
  edges := inner.edges
  expanded _ member := inner.expanded (List.mem_insert_of_mem member)
  lowered m c h := inner.lowered m c (atMost_mark near h)
  closed m v seen := by
    rcases inner.closed m v seen with entered | later
    · by_cases same : m = n
      · have depth : d = v := by simpa [enter, mark, same] using entered
        rw [same, ← depth]
        exact .inr (.inr (.inl closed))
      · exact .inl (by simpa [enter, mark, same] using entered)
    · exact .inr later
  reported m member := by
    rcases inner.reported m member with entered | all
    · rcases List.mem_insert_iff.mp entered with rfl | earlier
      · by_cases earlier : m ∈ s.expanded
        · exact .inl earlier
        · exact .inr (edges earlier)
      · exact .inl earlier
    · exact .inr all
  added := inner.added

theorem visit_keeps (g : Steps α ε) (start : α) (fuel : Nat) : Keeps g start (visit g fuel) := by
  induction fuel with
  | zero =>
    intro n d s t inv here walk returned
    cases returned
  | succ fuel ih =>
    intro n d s t inv here walk returned
    rw [visit] at returned
    split at returned
    · next near =>
      have marked := inv_mark inv here walk
      have own : AtMost (enter s n d) n d := ⟨d, Nat.le_refl _, by simp [enter, mark]⟩
      split at returned
      · next within =>
        obtain ⟨mid, downs, backs⟩ := Option.bind_eq_some_iff.mp returned
        have sub : s.expanded ⊆ (enter s n d).expanded := fun _ h => List.mem_insert_of_mem h
        have expanded : n ∈ (enter s n d).expanded := List.mem_insert_self
        obtain ⟨inv', settles, down⟩ := downLoop_keeps ih walk within _ (fun _ h => h)
          (inv_expand marked sub) here (List.Subset.refl _) downs
        -- Edges into `n` are recorded only once it is expanded.
        have fresh : decide (n ∉ s.expanded) = true → ∀ e ∈ g.back n, e ∉ mid.edges := by
          intro first e member
          refine settles_leaves settles expanded member fun h => ?_
          rcases inv.recorded e h with ⟨m, other⟩ | ⟨m, earlier, back⟩
          · exact g.apart m n e other member
          · have equal : m = n := (g.back_target m e back).symm.trans (g.back_target n e member)
            exact of_decide_eq_true first (equal ▸ earlier)
        obtain ⟨inv'', settles', back, edges⟩ := backLoop_keeps ih walk within _ (g.back_nodup n)
          (fun _ h => h) inv' (settles.nodes here) (settles.expanded expanded)
          (List.Subset.trans sub settles.expanded) of_decide_eq_true fresh backs
        have inner := settles_trans (settles_weaken sub settles) settles'
        have closed : Closed g t n d :=
          ⟨inner.expanded expanded, fun e h => settles'.lowered _ _ (down e h), back⟩
        exact ⟨inv'', settles_enter near inner closed (fun h => edges (decide_eq_true h)),
          inner.lowered n d own⟩
      · next boundary =>
        cases returned
        exact ⟨marked, settles_mark near (.inl (by simpa using boundary)),
          ⟨d, Nat.le_refl _, by simp [mark]⟩⟩
    · next far =>
      cases returned
      exact ⟨inv, settles_refl, nearer_false (by simpa using far)⟩

def initial (start : α) : State α ε := ⟨fun _ => none, [start], [], []⟩

/-- Where walks that go on enter a node with steps, one of them does so cheaper than every walk
that stops there. -/
def Unblocked (g : Steps α ε) (start : α) : Prop :=
  ∀ n d, g.stops n = true → (∃ e, e ∈ g.down n ∨ e ∈ g.back n) → Walk g start n d false →
    g.within d = true → ∃ c, Walk g start n c false ∧ ∀ b, Walk g start n b true → c < b

/-- Every step out of the node has been taken, and those back are recorded. -/
private structure Taken (g : Steps α ε) (t : State α ε) (n : α) (d : Nat) : Prop where
  down : ∀ e ∈ g.down n, AtMost t (g.target e) d
  back : ∀ e ∈ g.back n, AtMost t (g.source e) (d + 1)
  edges : ∀ e ∈ g.back n, e ∈ t.edges

omit [DecidableEq α] in
private theorem inv_initial (g : Steps α ε) (start : α) : Inv g start (initial start) where
  listed _ _ seen := by cases seen
  walked _ _ seen := by cases seen
  reached n member := by
    rw [List.mem_singleton.mp member]
    exact ⟨0, false, .start⟩
  ends _ member := by simp [initial] at member
  recorded _ member := by simp [initial] at member
  nodup := List.nodup_nil

omit [DecidableEq α] in
private theorem taken_of_closed (settles : Settles g start [] (initial start) t) {n : α} {c d : Nat}
    (closed : Closed g t n c) (le : c ≤ d) : Taken g t n d where
  down e member := atMost_weaken (closed.down e member) le
  back e member := atMost_weaken (closed.back e member) (Nat.succ_le_succ le)
  edges e member := by
    rcases settles.reported n closed.expanded with nothing | all
    · simp [initial] at nothing
    · exact all e member

omit [DecidableEq α] in
private theorem taken_mono {n : α} {c d : Nat} (taken : Taken g t n c) (le : c ≤ d) :
    Taken g t n d where
  down e member := atMost_weaken (taken.down e member) le
  back e member := atMost_weaken (taken.back e member) (Nat.succ_le_succ le)
  edges := taken.edges

omit [DecidableEq α] in
private theorem taken_of_atMost (unblocked : Unblocked g start)
    (settles : Settles g start [] (initial start) t) {n : α} {d : Nat}
    (shallower : ∀ c < d, Walk g start n c false → g.within c = true → Taken g t n c)
    (walk : Walk g start n d false) (reached : AtMost t n d) (within : g.within d = true) :
    Taken g t n d := by
  obtain ⟨v, below, seen⟩ := reached
  rcases settles.closed n v seen with nothing | beyond | closed | ⟨stops, stopped⟩
  · cases nothing
  · rw [within_of_le below within] at beyond
    cases beyond
  · exact taken_of_closed settles closed below
  · by_cases steps : ∃ e, e ∈ g.down n ∨ e ∈ g.back n
    · obtain ⟨c, active, least⟩ := unblocked n d stops steps walk within
      have less : c < d := Nat.lt_of_lt_of_le (least v stopped) below
      exact taken_mono (shallower c less active (within_of_le (Nat.le_of_lt less) within))
        (Nat.le_of_lt less)
    · exact ⟨fun e member => (steps ⟨e, .inl member⟩).elim,
        fun e member => (steps ⟨e, .inr member⟩).elim,
        fun e member => (steps ⟨e, .inr member⟩).elim⟩

omit [DecidableEq α] in
private theorem walk_taken (unblocked : Unblocked g start)
    (settles : Settles g start [] (initial start) t) (root : AtMost t start 0) (d : Nat) :
    ∀ n, Walk g start n d false → AtMost t n d ∧ (g.within d = true → Taken g t n d) := by
  -- On the depth, and at one depth along the walk: a node where walks stop may have been closed
  -- from another walk, but then from one of a lesser depth.
  induction d using Nat.strongRecOn with
  | ind d outer =>
    intro n walk
    have finish {m : α} (walk : Walk g start m d false) (reached : AtMost t m d) :
        AtMost t m d ∧ (g.within d = true → Taken g t m d) :=
      ⟨reached, taken_of_atMost unblocked settles
        (fun c less active => (outer c less m active).2) walk reached⟩
    generalize depth : d = k at walk
    generalize flag : false = b at walk
    induction walk with
    | start =>
      subst depth
      exact finish .start root
    | @down m k e walk within member ih =>
      subst depth
      exact finish (walk.down within member) (((ih rfl rfl).2 within).down e member)
    | @back m k e walk within member ih =>
      subst depth
      have taken := (outer k (Nat.lt_succ_self k) m walk).2 within
      exact finish (flag ▸ walk.back within member) (taken.back e member)

/-- The search from a node collects the nodes that walks enter, and the edges back out of the
nodes that walks leave. -/
theorem visit_exact {fuel : Nat} (unblocked : Unblocked g start)
    (returned : visit g fuel start 0 (initial start) = some t) :
    (∀ n, n ∈ t.nodes ↔ ∃ d b, Walk g start n d b) ∧
      (∀ e ∈ t.edges, g.source e ∈ t.nodes ∧ g.target e ∈ t.nodes) ∧ t.edges.Nodup ∧
      ∀ n d, Walk g start n d false → g.within d = true → ∀ e ∈ g.back n, e ∈ t.edges := by
  obtain ⟨inv, settles, root⟩ := visit_keeps g start fuel start 0 _ t (inv_initial g start)
    (List.mem_singleton.mpr rfl) .start returned
  have taken := walk_taken unblocked settles root
  have listed {n : α} {d : Nat} (reached : AtMost t n d) : n ∈ t.nodes := by
    obtain ⟨v, -, seen⟩ := reached
    exact inv.listed n v seen
  refine ⟨fun n => ⟨inv.reached n, ?_⟩, inv.ends, inv.nodup, ?_⟩
  · rintro ⟨d, b, walk⟩
    cases walk with
    | start => exact listed (taken 0 _ .start).1
    | down walk within member => exact listed (taken d _ (walk.down within member)).1
    | back walk within member => exact listed (((taken _ _ walk).2 within).back _ member)
  · intro n d walk within e member
    exact ((taken d n walk).2 within).edges e member

/-- Every edge that a search records belongs to the graph, whatever walks stop where. -/
theorem visit_edges {fuel : Nat} (returned : visit g fuel start 0 (initial start) = some t) :
    ∀ e ∈ t.edges, ∃ n, e ∈ g.down n ∨ e ∈ g.back n := by
  obtain ⟨inv, -, -⟩ := visit_keeps g start fuel start 0 _ t (inv_initial g start)
    (List.mem_singleton.mpr rfl) .start returned
  intro e member
  rcases inv.recorded e member with ⟨n, down⟩ | ⟨n, -, back⟩
  · exact ⟨n, .inl down⟩
  · exact ⟨n, .inr back⟩

end Search

/-! ### Walks among finitely many nodes end -/

theorem countP_lt {α : Type} {p q : α → Bool} {l : List α}
    (weaker : ∀ a ∈ l, p a = true → q a = true) {x : α} (member : x ∈ l) (gained : q x = true)
    (lost : p x = false) : l.countP p < l.countP q := by
  induction l with
  | nil => cases member
  | cons a l ih =>
    have rest := List.countP_mono_left fun b h => weaker b (List.mem_cons_of_mem _ h)
    rw [List.countP_cons, List.countP_cons]
    rcases List.mem_cons.mp member with rfl | member
    · simp only [gained, lost, Bool.false_eq_true, if_true, if_false]
      omega
    · have less := ih (fun b h => weaker b (List.mem_cons_of_mem _ h)) member
      have first := weaker a List.mem_cons_self
      by_cases kept : p a = true
      · simp only [kept, first kept, if_true]
        omega
      · simp only [kept, Bool.false_eq_true, if_false]
        omega

variable {α ε : Type} [DecidableEq α]

def Lowers (s t : State α ε) : Prop :=
  ∀ n d, nearer t.visited n d = true → nearer s.visited n d = true

def room (all : List α) (s : State α ε) (d : Nat) : Nat := all.countP fun n => nearer s.visited n d

variable {all : List α} {s t u : State α ε}

omit [DecidableEq α] in
theorem Lowers.refl (s : State α ε) : Lowers s s := fun _ _ h => h

omit [DecidableEq α] in
theorem Lowers.trans (first : Lowers s t) (second : Lowers t u) : Lowers s u :=
  fun n d h => first n d (second n d h)

omit [DecidableEq α] in
theorem nearer_deeper {visited : α → Option Nat} {n : α} {c d : Nat} (le : c ≤ d)
    (near : nearer visited n d = true) : nearer visited n c = true := by
  unfold nearer at near ⊢
  cases seen : visited n with
  | none => rfl
  | some v =>
    rw [seen] at near
    have deep : d < v := of_decide_eq_true near
    exact decide_eq_true (by omega)

theorem lowers_mark {n : α} {d : Nat} (near : nearer s.visited n d = true) :
    Lowers s { s with visited := mark s.visited n d } := by
  intro m c later
  by_cases same : m = n
  · subst same
    have less : c < d := by simpa [nearer, mark] using later
    exact nearer_deeper (Nat.le_of_lt less) near
  · simpa [nearer, mark, same] using later

omit [DecidableEq α] in
theorem room_lowers (lowers : Lowers s t) (d : Nat) : room all t d ≤ room all s d :=
  List.countP_mono_left fun n _ h => lowers n d h

variable (all) in
omit [DecidableEq α] in
theorem room_deeper (s : State α ε) (d : Nat) : room all s (d + 1) ≤ room all s d :=
  List.countP_mono_left fun _ _ h => nearer_deeper (Nat.le_succ d) h

theorem room_mark {n : α} {d : Nat} (inside : n ∈ all) (near : nearer s.visited n d = true) :
    room all { s with visited := mark s.visited n d } d < room all s d :=
  countP_lt (fun m _ h => lowers_mark near m d h) inside near (by simp [nearer, mark])

def Returns (all : List α) (explore : α → Nat → State α ε → Option (State α ε)) (fuel : Nat) :
    Prop :=
  ∀ n d s, n ∈ all → room all s d < fuel → ∃ t, explore n d s = some t ∧ Lowers s t

omit [DecidableEq α] in
theorem foldlM_returns {fuel d : Nat} {es : List ε} {f : State α ε → ε → Option (State α ε)}
    (each : ∀ e ∈ es, ∀ s, room all s d < fuel → ∃ t, f s e = some t ∧ Lowers s t)
    (small : room all s d < fuel) : ∃ t, es.foldlM f s = some t ∧ Lowers s t := by
  induction es generalizing s with
  | nil => exact ⟨s, rfl, .refl s⟩
  | cons e es ih =>
    obtain ⟨m, head, lowers⟩ := each e List.mem_cons_self s small
    obtain ⟨t, tail, after⟩ := ih (fun f h => each f (List.mem_cons_of_mem e h))
      (Nat.lt_of_le_of_lt (room_lowers lowers d) small)
    exact ⟨t, by rw [List.foldlM_cons, head]; exact tail, lowers.trans after⟩

variable {g : Steps α ε} {explore : α → Nat → State α ε → Option (State α ε)} {fuel : Nat}

private theorem downStep_returns (returns : Returns all explore fuel) {d : Nat} {e : ε}
    (inside : g.target e ∈ all) (s : State α ε) (small : room all s d < fuel) :
    ∃ t, downStep g explore d s e = some t ∧ Lowers s t := by
  unfold downStep
  split
  · have same : ∀ r : State α ε, r.visited = s.visited → ∃ t, explore (g.target e) d r = some t ∧
        Lowers s t := by
      intro r visited
      have equal : room all r d = room all s d := by rw [room, visited, room]
      obtain ⟨t, returned, lowers⟩ := returns (g.target e) d r inside (equal ▸ small)
      refine ⟨t, returned, fun n c h => ?_⟩
      rw [← visited]
      exact lowers n c h
    exact same _ (by split <;> rfl)
  · exact ⟨s, rfl, .refl s⟩

private theorem backStep_returns (returns : Returns all explore fuel) {first : Bool} {d : Nat} {e : ε}
    (inside : g.source e ∈ all) (s : State α ε) (small : room all s d < fuel) :
    ∃ t, backStep g explore first d s e = some t ∧ Lowers s t := by
  unfold backStep
  have visited : (record first s e).visited = s.visited := by
    cases first <;> rfl
  have added : (addNode (record first s e) (g.source e)).visited = s.visited := by
    rw [← visited, addNode]
    split <;> rfl
  simp only
  split
  · next near =>
    split
    · refine ⟨_, rfl, ?_⟩
      have marked : nearer (addNode (record first s e) (g.source e)).visited (g.source e) (d + 1) =
          true := by rw [added, ← visited]; exact near
      intro n c h
      have lowers := lowers_mark marked n c h
      rwa [added] at lowers
    · have small' : room all (addNode (record first s e) (g.source e)) (d + 1) < fuel := by
        have equal : room all (addNode (record first s e) (g.source e)) (d + 1) =
            room all s (d + 1) := by rw [room, added, room]
        have deeper := room_deeper all s d
        omega
      obtain ⟨t, returned, lowers⟩ := returns (g.source e) (d + 1) _ inside small'
      refine ⟨t, returned, fun n c h => ?_⟩
      have before := lowers n c h
      rwa [added] at before
  · exact ⟨_, rfl, fun n c h => visited ▸ h⟩

/-- Each nested call enters a node that no call around it could enter again. -/
theorem visit_returns (inside : ∀ n, (∀ e ∈ g.down n, g.target e ∈ all) ∧
      ∀ e ∈ g.back n, g.source e ∈ all) (fuel : Nat) : Returns all (visit g fuel) fuel := by
  induction fuel with
  | zero => exact fun _ _ _ _ small => absurd small (Nat.not_lt_zero _)
  | succ fuel ih =>
    intro n d s member small
    rw [visit]
    split
    · next near =>
      have entered := lowers_mark near
      have less := room_mark (s := s) member near
      split
      · have small' : room all (enter s n d) d < fuel := by
          change room all { s with visited := mark s.visited n d } d < fuel
          omega
        obtain ⟨m, downs, lowers⟩ := foldlM_returns (fun e h s small =>
          downStep_returns (g := g) ih ((inside n).1 e h) s small) small'
        obtain ⟨t, backs, after⟩ := foldlM_returns (fun e h r small =>
          backStep_returns (g := g) ih ((inside n).2 e h) r small)
          (Nat.lt_of_le_of_lt (room_lowers lowers d) small')
        exact ⟨t, Option.bind_eq_some_iff.mpr ⟨m, downs, backs⟩,
          (Lowers.trans entered lowers).trans after⟩
      · exact ⟨_, rfl, entered⟩
    · exact ⟨s, rfl, .refl s⟩

end CodeGraph.DepthWalk
