import CodeGraph.Graph.NamedFlow

/-!
# Runs of the named flow

A route that is beaten is still waiting, so the routes that were searched stay, and what they lead to
is kept or beaten by what is kept.
-/
namespace CodeGraph.Graph.NamedFlow

open InsertionMap

variable {g : Search} {w : Walk} {a b c step : WalkStep} {k key head place : Nat}

theorem beats_iff : beats a b = true ↔ a.depth ≤ b.depth ∧ b.named ≤ a.named ∧ a.streak ≤ b.streak := by
  simp [beats, and_assoc]

theorem beats_refl (a : WalkStep) : beats a a = true :=
  beats_iff.mpr ⟨Nat.le_refl _, Nat.le_refl _, Nat.le_refl _⟩

theorem beats_trans (left : beats a b = true) (right : beats b c = true) : beats a c = true := by
  rw [beats_iff] at left right ⊢
  exact ⟨left.1.trans right.1, right.2.1.trans left.2.1, left.2.2.trans right.2.2⟩

def Back (parent : List WalkStep) : Prop :=
  ∀ (k : Nat) (step : WalkStep) (p : Nat), parent[k]? = some step → step.prev = some p → p < k

/-- The steps back from a key, with enough fuel. -/
def trail (parent : List WalkStep) (key : Nat) : List WalkStep := stepsBack parent (key + 1) (some key)

theorem stepsBack_enough {parent : List WalkStep} (back : Back parent) {fuel : Nat} (enough : key < fuel) :
    stepsBack parent fuel (some key) = trail parent key := by
  induction key using Nat.strongRecOn generalizing fuel with
  | ind key ih =>
    obtain ⟨fuel, rfl⟩ := Nat.exists_eq_succ_of_ne_zero (Nat.ne_zero_of_lt enough)
    rw [trail, stepsBack, stepsBack]
    cases found : parent[key]? with
    | none => rfl
    | some step =>
      simp only [List.cons.injEq, true_and]
      cases prev : step.prev with
      | none => cases fuel <;> cases key <;> rfl
      | some p =>
        have earlier := back key step p found prev
        rw [ih p earlier (by omega : p < fuel), ih p earlier earlier]

theorem trail_cons {parent : List WalkStep} (back : Back parent) (found : parent[key]? = some step) :
    trail parent key = step :: (step.prev.elim [] (trail parent)) := by
  rw [trail, stepsBack, found]
  simp only [List.cons.injEq, true_and]
  cases prev : step.prev with
  | none => cases key <;> rfl
  | some p => exact stepsBack_enough back (back key step p found prev)

theorem stepsBack_append {parent more : List WalkStep} (back : Back parent) {fuel : Nat}
    (inside : key < parent.length) :
    stepsBack (parent ++ more) fuel (some key) = stepsBack parent fuel (some key) := by
  induction fuel generalizing key with
  | zero => rfl
  | succ fuel ih =>
    rw [stepsBack, stepsBack, List.getElem?_append_left inside]
    cases found : parent[key]? with
    | none => rfl
    | some step =>
      simp only [List.cons.injEq, true_and]
      cases prev : step.prev with
      | none => cases fuel <;> rfl
      | some p => exact ih ((back key step p found prev).trans inside)

def Covered (w : Walk) (step : WalkStep) : Prop :=
  ∃ k ∈ w.kept step.node.id, ∃ s, w.parent[k]? = some s ∧ beats s step = true

structure Inv (g : Search) (w : Walk) : Prop where
  back : Back w.parent
  routes : ∀ (k : Nat) (step : WalkStep), w.parent[k]? = some step → g.Route (trail w.parent k)
  slots : w.slot.length = w.parent.length
  queued : ∀ (place key : Nat), w.queue[place]? = some key → key < w.parent.length
  spent : ∀ k ∈ w.beaten, k < w.parent.length
  kept : ∀ id k, k ∈ w.kept id → k ∉ w.beaten ∧ (∃ s, w.parent[k]? = some s ∧ s.node.id = id) ∧
    ∃ place : Nat, w.slot[k]? = some place ∧ w.queue[place]? = some k
  live : ∀ (k : Nat) (s : WalkStep), w.parent[k]? = some s → k ∉ w.beaten → k ∈ w.kept s.node.id

/-- Where a new route is put: at the end, or instead of one that it beats. -/
inductive Placed (w : Walk) (step : WalkStep) : List Nat → Nat → Prop
  | last (none_ : w.lost step = []) : Placed w step (w.queue ++ [w.parent.length]) w.queue.length
  | instead {other place : Nat} (lost : other ∈ w.lost step) (slot : w.slot[other]? = some place) :
      Placed w step (w.queue.set place w.parent.length) place

theorem mem_lost : k ∈ w.lost step ↔
    k ∈ w.kept step.node.id ∧ ∃ s, w.parent[k]? = some s ∧ beats step s = true := by
  rw [Walk.lost, List.mem_filter, Option.any_eq_true]

def Walk.with (w : Walk) (step : WalkStep) (queue : List Nat) (place : Nat) : Walk :=
  ⟨w.parent ++ [step], assign w.routes step.node.id
    ((w.kept step.node.id).filter (fun other => !(w.parent[other]?).any (beats step)) ++ [w.parent.length]),
    w.beaten ++ w.lost step, queue, w.slot ++ [place]⟩

/-- What `keep` can do. -/
theorem keep_cases (inv : Inv g w) (step : WalkStep) : w.keep step = w ∧ Covered w step ∨
    ∃ queue place, w.keep step = w.with step queue place ∧ Placed w step queue place := by
  rw [Walk.keep]
  split
  · next beaten =>
    obtain ⟨other, among, better⟩ := List.any_eq_true.mp beaten
    obtain ⟨s, there, beats_⟩ := (Option.any_eq_true _ _).mp better
    exact Or.inl ⟨rfl, other, among, s, there, beats_⟩
  · right
    split
    · next none_ =>
      have empty : w.lost step = [] := List.map_eq_nil_iff.mp (List.min?_eq_none_iff.mp none_)
      refine ⟨_, _, ?_, .last empty⟩
      rw [Walk.with, empty, List.append_nil]
    · next place least =>
      obtain ⟨other, among, is⟩ := List.mem_map.mp (List.min?_mem least)
      obtain ⟨-, -, there, slot, -⟩ := inv.kept _ other (mem_lost.mp among).1
      rw [slot] at is
      obtain rfl : there = place := is
      exact ⟨_, _, rfl, .instead among slot⟩

/-! ### One more route -/

section Placed

variable {queue : List Nat}

theorem Placed.new (inv : Inv g w) (placed : Placed w step queue place) :
    queue[place]? = some w.parent.length := by
  cases placed with
  | last => rw [List.getElem?_append_right (Nat.le_refl _), Nat.sub_self]; rfl
  | @instead other _ lost slot =>
    obtain ⟨-, -, there, slot', here⟩ := inv.kept _ other (mem_lost.mp lost).1
    rw [slot] at slot'
    obtain rfl := Option.some.inj slot'
    exact List.getElem?_set_self (List.getElem?_eq_some_iff.mp here).1

/-- A route that is not beaten stays where it waits. -/
theorem Placed.stays (inv : Inv g w) (placed : Placed w step queue place) {p : Nat}
    (here : w.queue[p]? = some k) (stays : k ∉ w.lost step) : queue[p]? = some k := by
  cases placed with
  | last => rw [List.getElem?_append_left (List.getElem?_eq_some_iff.mp here).1, here]
  | @instead other _ lost slot =>
    obtain ⟨-, -, there, slot', old⟩ := inv.kept _ other (mem_lost.mp lost).1
    rw [slot] at slot'
    obtain rfl := Option.some.inj slot'
    have apart : place ≠ p := by
      rintro rfl
      rw [old] at here
      exact stays (Option.some.inj here ▸ lost)
    rw [List.getElem?_set_ne apart, here]

theorem Placed.old (placed : Placed w step queue place) {p : Nat} (here : queue[p]? = some k) :
    k = w.parent.length ∧ p = place ∨ p ≠ place ∧ w.queue[p]? = some k := by
  cases placed with
  | last =>
    by_cases inside : p < w.queue.length
    · rw [List.getElem?_append_left inside] at here
      exact Or.inr ⟨Nat.ne_of_lt inside, here⟩
    · rw [List.getElem?_append_right (Nat.not_lt.mp inside)] at here
      obtain ⟨single, is⟩ := List.getElem?_eq_some_iff.mp here
      rw [List.length_singleton] at single
      refine Or.inl ⟨?_, by omega⟩
      rw [← is, List.getElem_singleton]
  | instead lost slot =>
    by_cases same : place = p
    · subst same
      obtain ⟨inside, is⟩ := List.getElem?_eq_some_iff.mp here
      rw [List.getElem_set_self] at is
      exact Or.inl ⟨is.symm, rfl⟩
    · rw [List.getElem?_set_ne same] at here
      exact Or.inr ⟨Ne.symm same, here⟩

theorem Placed.level (inv : Inv g w) (placed : Placed w step queue place) :
    place = w.queue.length ∨ ∃ other s, w.queue[place]? = some other ∧ w.parent[other]? = some s ∧
      step.depth ≤ s.depth := by
  cases placed with
  | last => exact Or.inl rfl
  | @instead other _ lost slot =>
    obtain ⟨-, -, there, slot', old⟩ := inv.kept _ other (mem_lost.mp lost).1
    rw [slot] at slot'
    obtain rfl := Option.some.inj slot'
    obtain ⟨s, found, better⟩ := (mem_lost.mp lost).2
    exact Or.inr ⟨other, s, old, found, (beats_iff.mp better).1⟩

end Placed

section With

variable {queue : List Nat}

theorem with_old (inside : k < w.parent.length) : (w.with step queue place).parent[k]? = w.parent[k]? :=
  List.getElem?_append_left inside

theorem with_found {s : WalkStep} (found : w.parent[k]? = some s) :
    (w.with step queue place).parent[k]? = some s := by
  rw [with_old (List.getElem?_eq_some_iff.mp found).1, found]

theorem with_new : (w.with step queue place).parent[w.parent.length]? = some step := by
  rw [Walk.with, List.getElem?_append_right (Nat.le_refl _), Nat.sub_self]
  rfl

theorem with_parent {s : WalkStep} (found : (w.with step queue place).parent[k]? = some s) :
    k = w.parent.length ∧ s = step ∨ w.parent[k]? = some s := by
  by_cases inside : k < w.parent.length
  · rw [with_old inside] at found
    exact Or.inr found
  · rw [Walk.with, List.getElem?_append_right (Nat.not_lt.mp inside)] at found
    obtain ⟨single, is⟩ := List.getElem?_eq_some_iff.mp found
    rw [List.length_singleton] at single
    refine Or.inl ⟨by omega, ?_⟩
    rw [← is, List.getElem_singleton]

theorem kept_with (id : NodeId) : (w.with step queue place).kept id =
    if id = step.node.id then
      (w.kept id).filter (fun other => !(w.parent[other]?).any (beats step)) ++ [w.parent.length]
    else w.kept id := by
  rw [Walk.kept, Walk.with, lookup_assign]
  split
  · next same => rw [same]; rfl
  · rfl

/-- A route that is not beaten is still kept. -/
theorem kept_stays {id : NodeId} (among : k ∈ w.kept id) (stays : k ∉ w.lost step) :
    k ∈ (w.with step queue place).kept id := by
  rw [kept_with]
  split
  · next same =>
    refine List.mem_append_left _ (List.mem_filter.mpr ⟨among, ?_⟩)
    rw [Bool.not_eq_true', Bool.eq_false_iff]
    intro better
    refine stays (mem_lost.mpr ⟨same ▸ among, ?_⟩)
    exact (Option.any_eq_true _ _).mp better
  · exact among

theorem kept_new : w.parent.length ∈ (w.with step queue place).kept step.node.id := by
  rw [kept_with, if_pos rfl]
  exact List.mem_append_right _ (List.mem_singleton_self _)

theorem kept_before {id : NodeId} (among : k ∈ (w.with step queue place).kept id) :
    k = w.parent.length ∧ id = step.node.id ∨ k ∈ w.kept id ∧ k ∉ w.lost step ∨
      k ∈ w.kept id ∧ id ≠ step.node.id := by
  rw [kept_with] at among
  split at among
  · next same =>
    rcases mem_snoc.mp among with old | new
    · obtain ⟨here, worse⟩ := List.mem_filter.mp old
      refine Or.inr (Or.inl ⟨here, fun lost => ?_⟩)
      obtain ⟨-, s, found, better⟩ := mem_lost.mp lost
      rw [found, Option.any_some, better] at worse
      cases worse
    · exact Or.inl ⟨new, same⟩
  · next other => exact Or.inr (Or.inr ⟨among, other⟩)

theorem covered_with : Covered (w.with step queue place) step :=
  ⟨_, kept_new, step, with_new, beats_refl step⟩

/-- What was covered still is, by the new route if it beats the old one. -/
theorem Covered.with (inv : Inv g w) {s : WalkStep} (covered : Covered w s) :
    Covered (w.with step queue place) s := by
  obtain ⟨k, among, t, found, better⟩ := covered
  by_cases lost : k ∈ w.lost step
  · obtain ⟨here, t', found', better'⟩ := mem_lost.mp lost
    rw [found] at found'
    cases found'
    have same : s.node.id = step.node.id := by
      obtain ⟨-, ⟨u, is, id⟩, -⟩ := inv.kept _ k among
      obtain ⟨-, ⟨u', is', id'⟩, -⟩ := inv.kept _ k here
      rw [is] at is'
      cases is'
      exact id.symm.trans id'
    refine ⟨w.parent.length, ?_, step, with_new, beats_trans better' better⟩
    rw [same]
    exact kept_new
  · exact ⟨k, kept_stays among lost, t, with_found found, better⟩

theorem Inv.with (inv : Inv g w) (placed : Placed w step queue place)
    (prev : ∀ p, step.prev = some p → p < w.parent.length)
    (route : g.Route (step :: step.prev.elim [] (trail w.parent))) : Inv g (w.with step queue place) := by
  have back : Back (w.with step queue place).parent := by
    intro k s p found is
    rcases with_parent found with ⟨rfl, rfl⟩ | old
    · exact prev p is
    · exact inv.back k s p old is
  have same : ∀ k, k < w.parent.length → trail (w.with step queue place).parent k = trail w.parent k :=
    fun k inside => stepsBack_append inv.back inside
  have new := placed.new inv
  constructor
  · exact back
  · intro k s found
    rcases with_parent found with ⟨rfl, rfl⟩ | old
    · rw [trail_cons back found]
      cases is : s.prev with
      | none =>
        rw [is] at route
        exact route
      | some p =>
        rw [is] at route
        rw [Option.elim_some, same p (prev p is)]
        exact route
    · rw [same k (List.getElem?_eq_some_iff.mp old).1]
      exact inv.routes k s old
  · simp [Walk.with, inv.slots]
  · intro p a here
    rw [Walk.with, List.length_append, List.length_singleton]
    rcases placed.old here with ⟨rfl, -⟩ | ⟨-, old⟩
    · exact Nat.lt_succ_self _
    · exact Nat.lt_succ_of_lt (inv.queued p a old)
  · intro k beaten
    rw [Walk.with, List.length_append, List.length_singleton]
    rcases List.mem_append.mp beaten with old | lost
    · exact Nat.lt_succ_of_lt (inv.spent k old)
    · obtain ⟨-, s, found, -⟩ := mem_lost.mp lost
      exact Nat.lt_succ_of_lt (List.getElem?_eq_some_iff.mp found).1
  · intro id k among
    have slots : ∀ {x y : Nat}, w.slot[x]? = some y → (w.slot ++ [place])[x]? = some y := by
      intro x y is
      rw [List.getElem?_append_left (List.getElem?_eq_some_iff.mp is).1, is]
    have old : k ∈ w.kept id → k ∉ w.lost step → k ∉ (w.with step queue place).beaten ∧
        (∃ s, (w.with step queue place).parent[k]? = some s ∧ s.node.id = id) ∧
          ∃ p : Nat, (w.with step queue place).slot[k]? = some p ∧
            (w.with step queue place).queue[p]? = some k := by
      intro among stays
      obtain ⟨good, ⟨s, found, named⟩, p, slot, here⟩ := inv.kept id k among
      refine ⟨?_, ⟨s, with_found found, named⟩, p, slots slot, placed.stays inv here stays⟩
      intro beaten
      exact (List.mem_append.mp beaten).elim good stays
    rcases kept_before among with ⟨rfl, rfl⟩ | ⟨among, stays⟩ | ⟨among, other⟩
    · refine ⟨?_, ⟨step, with_new, rfl⟩, place, ?_, new⟩
      · intro beaten
        rcases List.mem_append.mp beaten with old | lost
        · exact Nat.lt_irrefl _ (inv.spent _ old)
        · obtain ⟨-, s, found, -⟩ := mem_lost.mp lost
          exact Nat.lt_irrefl _ (List.getElem?_eq_some_iff.mp found).1
      · rw [Walk.with, ← inv.slots, List.getElem?_append_right (Nat.le_refl _), Nat.sub_self]
        rfl
    · exact old among stays
    · refine old among fun lost => other ?_
      obtain ⟨-, ⟨s, found, named⟩, -⟩ := inv.kept id k among
      obtain ⟨-, ⟨s', found', named'⟩, -⟩ := inv.kept _ k (mem_lost.mp lost).1
      rw [found] at found'
      cases found'
      exact named.symm.trans named'
  · intro k s found good
    have stays : k ∉ w.lost step := fun lost => good (List.mem_append_right _ lost)
    rcases with_parent found with ⟨rfl, rfl⟩ | old
    · exact kept_new
    · exact kept_stays (inv.live k s old fun beaten => good (List.mem_append_left _ beaten)) stays

end With

variable {w' : Walk} {d e : Nat}

/-- The walk after, for which the routes at the first places are what they were. -/
structure Grown (w w' : Walk) (e : Nat) : Prop where
  found : ∀ (k : Nat) (s : WalkStep), w.parent[k]? = some s → w'.parent[k]? = some s
  trails : ∀ k, k < w.parent.length → trail w'.parent k = trail w.parent k
  places : ∀ p, p < e → w'.queue[p]? = w.queue[p]?
  good : ∀ p k, p < e → w.queue[p]? = some k → (k ∈ w'.beaten ↔ k ∈ w.beaten)
  covered : ∀ s, Covered w s → Covered w' s

theorem Grown.refl (w : Walk) (e : Nat) : Grown w w e :=
  ⟨fun _ _ found => found, fun _ _ => rfl, fun _ _ => rfl, fun _ _ _ _ => Iff.rfl, fun _ covered => covered⟩

theorem Grown.trans {w₁ w₂ : Walk} (left : Grown w w₁ e) (right : Grown w₁ w₂ e)
    (longer : w.parent.length ≤ w₁.parent.length) : Grown w w₂ e where
  found k s is := right.found k s (left.found k s is)
  trails k inside := (right.trails k (inside.trans_le longer)).trans (left.trails k inside)
  places p low := (right.places p low).trans (left.places p low)
  good p k low here := by
    rw [right.good p k low ((left.places p low).trans here), left.good p k low here]
  covered s is := right.covered s (left.covered s is)

/-- How the waiting routes lie: up to `e` those of one depth, behind it those of the next. -/
structure Levelled (w : Walk) (d e head : Nat) : Prop where
  inside : e ≤ w.queue.length
  low : ∀ (p k : Nat) (s : WalkStep), p < e → w.queue[p]? = some k → w.parent[k]? = some s → s.depth ≤ d
  here : ∀ (p k : Nat) (s : WalkStep), head ≤ p → p < e → w.queue[p]? = some k →
    w.parent[k]? = some s → s.depth = d
  high : ∀ (p k : Nat) (s : WalkStep), e ≤ p → w.queue[p]? = some k → w.parent[k]? = some s →
    s.depth = d + 1

section Next

variable {queue : List Nat}

theorem Levelled.behind (inv : Inv g w) (levelled : Levelled w d e head)
    (placed : Placed w step queue place)
    (next : step.depth = d + 1) : e ≤ place := by
  rcases placed.level inv with rfl | ⟨other, s, there, found, deep⟩
  · exact levelled.inside
  · by_contra early
    have shallow := levelled.low place other s (Nat.not_le.mp early) there found
    omega

theorem Levelled.apart (levelled : Levelled w d e head) (next : step.depth = d + 1) {p : Nat}
    (early : p < e) (here : w.queue[p]? = some k) : k ∉ w.lost step := by
  intro lost
  obtain ⟨-, s, found, better⟩ := mem_lost.mp lost
  have shallow := levelled.low p k s early here found
  have deep := (beats_iff.mp better).1
  omega

theorem grown_with (inv : Inv g w) (levelled : Levelled w d e head) (placed : Placed w step queue place)
    (next : step.depth = d + 1) : Grown w (w.with step queue place) e where
  found k s is := with_found is
  trails k inside := stepsBack_append inv.back inside
  places p early := by
    obtain ⟨k, here⟩ : ∃ k, w.queue[p]? = some k :=
      ⟨_, List.getElem?_eq_getElem (early.trans_le levelled.inside)⟩
    rw [here]
    exact placed.stays inv here (levelled.apart next early here)
  good p k early here := by
    have apart := levelled.apart next early here
    rw [Walk.with, List.mem_append]
    exact ⟨fun beaten => beaten.resolve_right apart, Or.inl⟩
  covered s is := is.with inv

theorem Levelled.with (inv : Inv g w) (levelled : Levelled w d e head) (placed : Placed w step queue place)
    (next : step.depth = d + 1) : Levelled (w.with step queue place) d e head := by
  have behind := levelled.behind inv placed next
  have old : ∀ {p k : Nat} {s : WalkStep}, (w.with step queue place).queue[p]? = some k →
      (w.with step queue place).parent[k]? = some s →
      s = step ∧ p = place ∨ w.queue[p]? = some k ∧ w.parent[k]? = some s := by
    intro p k s here found
    rcases placed.old here with ⟨rfl, rfl⟩ | ⟨-, before⟩
    · rw [with_new] at found
      exact Or.inl ⟨(Option.some.inj found).symm, rfl⟩
    · rw [with_old (inv.queued p k before)] at found
      exact Or.inr ⟨before, found⟩
  constructor
  · refine levelled.inside.trans ?_
    cases placed with
    | last => exact (List.length_append ▸ Nat.le_add_right _ _)
    | instead => exact (List.length_set ▸ Nat.le_refl _)
  · intro p k s early here found
    rcases old here found with ⟨-, rfl⟩ | ⟨before, is⟩
    · omega
    · exact levelled.low p k s early before is
  · intro p k s waiting early here found
    rcases old here found with ⟨-, rfl⟩ | ⟨before, is⟩
    · omega
    · exact levelled.here p k s waiting early before is
  · intro p k s late here found
    rcases old here found with ⟨rfl, -⟩ | ⟨before, is⟩
    · exact next
    · exact levelled.high p k s late before is

end Next

/-! ### The hops from one route -/

/-- Each route extends one whose turn has come and which is not beaten. -/
def Alive (w : Walk) (turn : Nat) : Prop :=
  ∀ (k : Nat) (s : WalkStep) (prev : Nat), w.parent[k]? = some s → s.prev = some prev →
    prev ∉ w.beaten ∧ ∃ p, p < turn ∧ w.queue[p]? = some prev

/-- While the hops from the route at `head` are taken. -/
structure Hopping (g : Search) (w : Walk) (d e head key : Nat) (at_ : WalkStep) : Prop where
  inv : Inv g w
  levelled : Levelled w d e head
  early : head < e
  waits : w.queue[head]? = some key
  found : w.parent[key]? = some at_
  good : key ∉ w.beaten
  alive : Alive w (head + 1)

variable {at_ : WalkStep}

def Search.Open (g : Search) (at_ : WalkStep) (passed : List WalkStep) (c : Callee) : Prop :=
  c ∈ g.calleesOf at_.node.id ∧ c.edge.kind ∈ FLOW_EDGE_KINDS ∧ g.streakAt at_.streak c ≤ g.maxBridge ∧
    ∀ s ∈ passed, s.node.id ≠ c.node.id

theorem Hopping.route (hopping : Hopping g w d e head key at_) : g.Route (trail w.parent key) :=
  hopping.inv.routes key at_ hopping.found

theorem Hopping.trail_eq (hopping : Hopping g w d e head key at_) :
    ∃ rest, trail w.parent key = at_ :: rest :=
  ⟨_, trail_cons hopping.inv.back hopping.found⟩

theorem Hopping.depth (hopping : Hopping g w d e head key at_) : at_.depth = d :=
  hopping.levelled.here head key at_ (Nat.le_refl _) hopping.early hopping.waits hopping.found

theorem onRoute_iff (hopping : Hopping g w d e head key at_) (id : NodeId) :
    onRoute w.parent key id = true ↔ ∃ s ∈ trail w.parent key, s.node.id = id := by
  have inside := (List.getElem?_eq_some_iff.mp hopping.found).1
  rw [onRoute, stepsBack_enough hopping.inv.back inside, List.any_eq_true]
  simp

theorem Alive.with {queue : List Nat} (alive : Alive w (head + 1)) (early : head < e)
    (grown : Grown w (w.with step queue place) e) (waits : w.queue[head]? = some key)
      (good : key ∉ w.beaten)
    (prev : step.prev = some key) : Alive (w.with step queue place) (head + 1) := by
  have kept : ∀ prev p, p < head + 1 → w.queue[p]? = some prev → prev ∉ w.beaten →
      prev ∉ (w.with step queue place).beaten ∧
        ∃ p, p < head + 1 ∧ (w.with step queue place).queue[p]? = some prev := by
    intro prev p low here good
    have before : p < e := by omega
    exact ⟨fun beaten => good ((grown.good p prev before here).mp beaten), p, low,
      (grown.places p before).trans here⟩
  intro k s prev' found is
  rcases with_parent found with ⟨rfl, rfl⟩ | old
  · rw [prev] at is
    cases is
    exact kept key head (Nat.lt_succ_self _) waits good
  · obtain ⟨good', p, low, here⟩ := alive k s prev' old is
    exact kept prev' p low here good'

/-- One hop: the walk goes on as it did, and the hop is covered if a route can take it. -/
theorem visit_spec (hopping : Hopping g w d e head key at_) (short : at_.depth + 1 < g.maxHops) {c : Callee}
    (among : c ∈ g.calleesOf at_.node.id) :
    Hopping g (g.visit key at_ w c) d e head key at_ ∧ Grown w (g.visit key at_ w c) e ∧
      w.parent.length ≤ (g.visit key at_ w c).parent.length ∧
      (g.Open at_ (trail w.parent key) c → Covered (g.visit key at_ w c) (g.onward (some key) at_ c)) := by
  rw [Search.visit]
  split
  · next other => exact ⟨hopping, .refl w e, Nat.le_refl _, fun open_ => absurd open_.2.1 other⟩
  split
  · next beyond => exact ⟨hopping, .refl w e, Nat.le_refl _, fun open_ =>
      absurd open_.2.2.1 (Nat.not_le.mpr beyond)⟩
  split
  · next passed =>
    obtain ⟨s, on, same⟩ := (onRoute_iff hopping _).mp passed
    exact ⟨hopping, .refl w e, Nat.le_refl _, fun open_ => absurd same (open_.2.2.2 s on)⟩
  · next kind bridge simple =>
    rcases keep_cases hopping.inv (g.onward (some key) at_ c) with
      ⟨is, covered⟩ | ⟨queue, place, is, placed⟩
    · rw [is]
      exact ⟨hopping, .refl w e, Nat.le_refl _, fun _ => covered⟩
    · rw [is]
      have next : (g.onward (some key) at_ c).depth = d + 1 := congrArg (· + 1) hopping.depth
      have route : g.Route (g.onward (some key) at_ c :: trail w.parent key) := by
        obtain ⟨rest, eq⟩ := hopping.trail_eq
        have before := hopping.route
        have apart : ∀ s ∈ trail w.parent key, s.node.id ≠ c.node.id := fun s on same =>
          simple ((onRoute_iff hopping _).mpr ⟨s, on, same⟩)
        rw [eq] at before apart ⊢
        exact .hop before among (not_not.mp kind) (Nat.not_lt.mp bridge) apart short
      have prev : ∀ p, (g.onward (some key) at_ c).prev = some p → p < w.parent.length := by
        rintro p ⟨⟩
        exact (List.getElem?_eq_some_iff.mp hopping.found).1
      have grown := grown_with hopping.inv hopping.levelled placed next
      refine ⟨?_, grown, ?_, fun _ => covered_with⟩
      · exact {
          inv := hopping.inv.with placed prev route
          levelled := hopping.levelled.with hopping.inv placed next
          early := hopping.early
          waits := (grown.places head hopping.early).trans hopping.waits
          found := with_found hopping.found
          good := fun beaten => hopping.good ((grown.good head key hopping.early hopping.waits).mp beaten)
          alive := hopping.alive.with hopping.early grown hopping.waits hopping.good rfl }
      · exact List.length_append ▸ Nat.le_add_right _ _

theorem visits_spec (hopping : Hopping g w d e head key at_) (short : at_.depth + 1 < g.maxHops)
    {cs : List Callee}
    (among : ∀ c ∈ cs, c ∈ g.calleesOf at_.node.id) :
    Hopping g (cs.foldl (g.visit key at_) w) d e head key at_ ∧ Grown w (cs.foldl (g.visit key at_) w) e ∧
      w.parent.length ≤ (cs.foldl (g.visit key at_) w).parent.length ∧
      ∀ c ∈ cs, g.Open at_ (trail w.parent key) c →
        Covered (cs.foldl (g.visit key at_) w) (g.onward (some key) at_ c) := by
  induction cs generalizing w with
  | nil => exact ⟨hopping, .refl w e, Nat.le_refl _, fun c none_ => absurd none_ (List.not_mem_nil)⟩
  | cons c cs ih =>
    obtain ⟨once, grown, longer, covered⟩ := visit_spec hopping short (among c List.mem_cons_self)
    obtain ⟨all, grown', longer', covered'⟩ := ih once fun c on => among c (List.mem_cons_of_mem _ on)
    have same := grown.trails key (List.getElem?_eq_some_iff.mp hopping.found).1
    refine ⟨all, grown.trans grown' longer, longer.trans longer', fun c' on open_ => ?_⟩
    rcases List.mem_cons.mp on with rfl | later
    · exact grown'.covered _ (covered open_)
    · exact covered' c' later (same.symm ▸ open_)

/-! ### The turns of the loop -/

/-- Before the turn of the route at `head`. -/
structure Progress (g : Search) (w : Walk) (d e head : Nat) (reached : List Nat) : Prop where
  inv : Inv g w
  levelled : Levelled w d e head
  early : head ≤ e
  alive : Alive w head
  seed : Covered w g.start
  /-- A hop from a route that had its turn is covered. -/
  closed : ∀ (p k : Nat) (s : WalkStep), p < head → w.queue[p]? = some k → k ∉ w.beaten →
    w.parent[k]? = some s →
    s.depth + 1 < g.maxHops → ∀ c, g.Open s (trail w.parent k) c → Covered w (g.onward (some k) s c)
  sound : ∀ k ∈ reached, ∃ s, w.parent[k]? = some s ∧ s.node.id ≠ g.seed.id ∧ s.node.id ∈ g.named
  complete : ∀ (p k : Nat) (s : WalkStep), p < head → w.queue[p]? = some k → k ∉ w.beaten →
    w.parent[k]? = some s →
    s.node.id ≠ g.seed.id → s.node.id ∈ g.named → k ∈ reached

variable {reached : List Nat}

theorem Grown.before (inv : Inv g w) (grown : Grown w w' e) {p : Nat} {s : WalkStep} (early : p < e)
    (here : w'.queue[p]? = some k) (good : k ∉ w'.beaten) (found : w'.parent[k]? = some s) :
    w.queue[p]? = some k ∧ k ∉ w.beaten ∧ w.parent[k]? = some s ∧ trail w'.parent k = trail w.parent k := by
  rw [grown.places p early] at here
  have inside := inv.queued p k here
  have old : w.parent[k]? = some w.parent[k] := List.getElem?_eq_getElem inside
  rw [grown.found k _ old] at found
  exact ⟨here, fun beaten => good ((grown.good p k early here).mpr beaten), old.trans found,
    grown.trails k inside⟩

theorem Levelled.turn (levelled : Levelled w d e head) : Levelled w d e (head + 1) :=
  ⟨levelled.inside, levelled.low, fun p k s waiting =>
    levelled.here p k s (Nat.le_of_succ_le waiting), levelled.high⟩

theorem Alive.turn (alive : Alive w head) : Alive w (head + 1) := by
  intro k s prev found is
  obtain ⟨good, p, low, here⟩ := alive k s prev found is
  exact ⟨good, p, Nat.lt_succ_of_lt low, here⟩

theorem Progress.skip (progress : Progress g w d e head reached) (early : head < e)
    (waits : w.queue[head]? = some key) (beaten : key ∈ w.beaten) :
    Progress g w d e (head + 1) reached := by
  have before : ∀ {p k : Nat}, p < head + 1 → w.queue[p]? = some k → k ∉ w.beaten → p < head := by
    intro p k low here good
    rcases Nat.lt_succ_iff_lt_or_eq.mp low with old | rfl
    · exact old
    · rw [waits] at here
      exact absurd (Option.some.inj here ▸ beaten) good
  exact {
    inv := progress.inv
    levelled := progress.levelled.turn
    early := early
    alive := progress.alive.turn
    seed := progress.seed
    closed := fun p k s low here good => progress.closed p k s (before low here good) here good
    sound := progress.sound
    complete := fun p k s low here good => progress.complete p k s (before low here good) here good }

theorem Progress.hopping (progress : Progress g w d e head reached) (early : head < e)
    (waits : w.queue[head]? = some key) (found : w.parent[key]? = some at_) (good : key ∉ w.beaten) :
    Hopping g w d e head key at_ :=
  ⟨progress.inv, progress.levelled, early, waits, found, good, progress.alive.turn⟩

/-- The turn of a route that is not beaten, after its hops. -/
theorem Progress.turn (progress : Progress g w d e head reached) (before : Hopping g w d e head key at_)
    (after : Hopping g w' d e head key at_) (grown : Grown w w' e)
    (covered : at_.depth + 1 < g.maxHops → ∀ c, g.Open at_ (trail w.parent key) c →
      Covered w' (g.onward (some key) at_ c)) :
    Progress g w' d e (head + 1)
      (if at_.node.id ≠ g.seed.id ∧ at_.node.id ∈ g.named then reached ++ [key] else reached) := by
  -- A route that had its turn is an earlier one or the one at `head`.
  have turns : ∀ {p k : Nat} {s : WalkStep}, p < head + 1 → w'.queue[p]? = some k → k ∉ w'.beaten →
      w'.parent[k]? = some s → trail w'.parent k = trail w.parent k ∧
        ((p < head ∧ w.queue[p]? = some k ∧ k ∉ w.beaten ∧ w.parent[k]? = some s) ∨ k = key ∧ s = at_) := by
    intro p k s low here good found
    obtain ⟨old, fresh, is, same⟩ :=
      grown.before progress.inv (Nat.lt_of_lt_of_le low before.early) here good found
    refine ⟨same, ?_⟩
    rcases Nat.lt_succ_iff_lt_or_eq.mp low with earlier | rfl
    · exact Or.inl ⟨earlier, old, fresh, is⟩
    · rw [before.waits] at old
      obtain rfl := Option.some.inj old
      rw [before.found] at is
      exact Or.inr ⟨rfl, (Option.some.inj is).symm⟩
  constructor
  · exact after.inv
  · exact after.levelled.turn
  · exact before.early
  · exact after.alive
  · exact grown.covered _ progress.seed
  · intro p k s low here good found short c open_
    obtain ⟨same, ⟨earlier, old, fresh, is⟩ | ⟨rfl, rfl⟩⟩ := turns low here good found
    · exact grown.covered _ (progress.closed p k s earlier old fresh is short c (same ▸ open_))
    · exact covered short c (same ▸ open_)
  · intro k among
    have old : k ∈ reached → ∃ s, w'.parent[k]? = some s ∧ s.node.id ≠ g.seed.id ∧ s.node.id ∈ g.named := by
      intro among
      obtain ⟨s, is, other, named⟩ := progress.sound k among
      exact ⟨s, grown.found k s is, other, named⟩
    split at among
    · next ends =>
      rcases mem_snoc.mp among with earlier | last
      · exact old earlier
      · obtain rfl := last
        exact ⟨at_, after.found, ends⟩
    · exact old among
  · intro p k s low here good found other named
    obtain ⟨-, ⟨earlier, old, fresh, is⟩ | ⟨rfl, rfl⟩⟩ := turns low here good found
    · have among := progress.complete p k s earlier old fresh is other named
      split
      · exact List.mem_append_left _ among
      · exact among
    · rw [if_pos ⟨other, named⟩]
      exact List.mem_append_right _ (List.mem_singleton_self _)

/-- The routes of the next depth come when those of this depth had their turn. -/
theorem Progress.next (progress : Progress g w d head head reached) :
    Progress g w (d + 1) w.queue.length head reached where
  inv := progress.inv
  levelled := by
    constructor
    · exact Nat.le_refl _
    · intro p k s _ here found
      rcases Nat.lt_or_ge p head with low | high
      · exact Nat.le_succ_of_le (progress.levelled.low p k s low here found)
      · exact (progress.levelled.high p k s high here found).le
    · exact fun p k s waiting _ here found => progress.levelled.high p k s waiting here found
    · intro p k s late here found
      exact absurd (List.getElem?_eq_some_iff.mp here).1 (Nat.not_lt.mpr late)
  early := progress.levelled.inside
  alive := progress.alive
  seed := progress.seed
  closed := progress.closed
  sound := progress.sound
  complete := progress.complete

/-- The loop ends with a result, however much fuel is left. -/
def Ends (g : Search) (w : Walk) (head : Nat) (reached : List Nat) (result : Walk × List Nat) : Prop :=
  ∃ n, ∀ fuel, n ≤ fuel → g.rounds fuel w head reached = some result

theorem Ends.now {result : Walk × List Nat}
    (step : ∀ fuel, g.rounds (fuel + 1) w head reached = some result) :
    Ends g w head reached result := by
  refine ⟨1, fun fuel enough => ?_⟩
  obtain ⟨fuel, rfl⟩ := Nat.exists_eq_succ_of_ne_zero (Nat.ne_zero_of_lt enough)
  exact step fuel

theorem Ends.later {head' : Nat} {reached' : List Nat} {result : Walk × List Nat}
    (ends : Ends g w' head' reached' result)
    (step : ∀ fuel, g.rounds (fuel + 1) w head reached = g.rounds fuel w' head' reached') :
    Ends g w head reached result := by
  obtain ⟨n, ends⟩ := ends
  refine ⟨n + 1, fun fuel enough => ?_⟩
  obtain ⟨fuel, rfl⟩ := Nat.exists_eq_succ_of_ne_zero (Nat.ne_zero_of_lt enough)
  rw [step fuel]
  exact ends fuel (Nat.le_of_succ_le_succ enough)

theorem Search.Route.short {rest : List WalkStep} (route : g.Route (step :: rest)) :
    step.depth = 0 ∨ step.depth < g.maxHops := by
  cases route with
  | seed => exact Or.inl rfl
  | hop _ _ _ _ _ short => exact Or.inr short

theorem rounds_spec {w : Walk} {d e head : Nat} {reached : List Nat}
    (progress : Progress g w d e head reached) :
    ∃ result d' e' head',
    Ends g w head reached result ∧ Progress g result.1 d' e' head' result.2 ∧
      (result.1.routes.length < NAMED_VISIT_CAP → head' = result.1.queue.length) := by
  cases waits : w.queue[head]? with
  | none =>
    refine ⟨(w, reached), d, e, head, .now fun fuel => ?_, progress, fun _ => ?_⟩
    · rw [Search.rounds, waits]
    · exact Nat.le_antisymm (progress.early.trans progress.levelled.inside)
        (List.getElem?_eq_none_iff.mp waits)
  | some key =>
    by_cases cap : NAMED_VISIT_CAP ≤ w.routes.length
    · refine ⟨(w, reached), d, e, head, .now fun fuel => ?_, progress, fun below => ?_⟩
      · rw [Search.rounds, waits]
        exact if_pos cap
      · exact absurd cap (Nat.not_le.mpr below)
    have inside := progress.inv.queued head key waits
    obtain ⟨at_, found⟩ : ∃ at_, w.parent[key]? = some at_ := ⟨_, List.getElem?_eq_getElem inside⟩
    rcases Nat.lt_or_eq_of_le progress.early with early | rfl
    · have closer : e - (head + 1) < e - head := by omega
      by_cases good : key ∈ w.beaten
      · obtain ⟨result, d', e', head', ends, rest⟩ := rounds_spec (progress.skip early waits good)
        refine ⟨result, d', e', head', ends.later fun fuel => ?_, rest⟩
        rw [Search.rounds, waits]
        simp only [if_neg cap, if_pos good]
      · have before := progress.hopping early waits found good
        by_cases short : at_.depth + 1 < g.maxHops
        · obtain ⟨after, grown, -, covered⟩ := visits_spec before short fun c among => among
          obtain ⟨result, d', e', head', ends, rest⟩ := rounds_spec
            (progress.turn before after grown fun _ c open_ => covered c open_.1 open_)
          refine ⟨result, d', e', head', ends.later fun fuel => ?_, rest⟩
          rw [Search.rounds, waits]
          simp only [if_neg cap, if_neg good, found, if_neg (Nat.not_le.mpr short)]
        · obtain ⟨result, d', e', head', ends, rest⟩ := rounds_spec
            (progress.turn before before (.refl w e) fun hop => absurd hop short)
          refine ⟨result, d', e', head', ends.later fun fuel => ?_, rest⟩
          rw [Search.rounds, waits]
          simp only [if_neg cap, if_neg good, found, if_pos (Nat.not_lt.mp short)]
    · have deep := progress.levelled.high head key at_ (Nat.le_refl _) waits found
      have route := progress.inv.routes key at_ found
      rw [trail_cons progress.inv.back found] at route
      have closer : g.maxHops - (d + 1) < g.maxHops - d := by
        rcases route.short with zero | short <;> omega
      exact rounds_spec progress.next
termination_by (g.maxHops - d, e - head)

/-! ### What is found -/

/-- Each step of a route that is not beaten is a route that is kept. -/
theorem Progress.trail_kept (progress : Progress g w d e head reached) {s : WalkStep}
    (found : w.parent[k]? = some s)
    (good : k ∉ w.beaten) : ∀ passed ∈ trail w.parent k, Covered w passed := by
  induction k using Nat.strongRecOn generalizing s with
  | ind k ih =>
    rw [trail_cons progress.inv.back found]
    intro passed on
    rcases List.mem_cons.mp on with rfl | earlier
    · exact ⟨k, progress.inv.live k passed found good, passed, found, beats_refl passed⟩
    · cases is : s.prev with
      | none => rw [is] at earlier; cases earlier
      | some prev =>
        rw [is] at earlier
        have before := progress.inv.back k s prev found is
        have inside := before.trans (List.getElem?_eq_some_iff.mp found).1
        exact ih prev before (List.getElem?_eq_getElem inside) (progress.alive k s prev found is).1
          passed earlier

theorem streakAt_mono {c : Callee} {m n : Nat} (le : m ≤ n) : g.streakAt m c ≤ g.streakAt n c := by
  rw [Search.streakAt, Search.streakAt]
  split
  · exact Nat.le_refl _
  split
  · exact le
  · exact Nat.succ_le_succ le

theorem beats_onward {c : Callee} {p q : Option Nat} (better : beats a b = true) :
    beats (g.onward p a c) (g.onward q b c) = true := by
  obtain ⟨depth, named, streak⟩ := beats_iff.mp better
  exact beats_iff.mpr ⟨Nat.succ_le_succ depth, Nat.add_le_add_right named _, streakAt_mono streak⟩

theorem Covered.of_beats (covered : Covered w a) (same : a.node.id = b.node.id)
    (better : beats a b = true) :
    Covered w b := by
  obtain ⟨k, among, s, found, beats_⟩ := covered
  exact ⟨k, same ▸ among, s, found, beats_trans beats_ better⟩

theorem Progress.covers (progress : Progress g w d e w.queue.length reached) (replaceable : g.Replaceable)
    {route : List WalkStep} (is : g.Route route) : ∀ step rest, route = step :: rest → Covered w step := by
  induction is with
  | seed =>
    rintro step rest ⟨⟩
    exact progress.seed
  | @hop prev at_ rest c before among kind bridge simple short ih =>
    rintro step rest' ⟨⟩
    obtain ⟨k, kept, s, found, better⟩ := ih at_ rest rfl
    obtain ⟨good, ⟨s', found', same⟩, p, -, waits⟩ := progress.inv.kept _ k kept
    rw [found] at found'
    cases found'
    have route := progress.inv.routes k s found
    have extended :
        g.Route (g.onward prev at_ c :: at_ :: rest) := .hop before among kind bridge simple short
    by_cases passes : ∃ passed ∈ trail w.parent k, passed.node.id = c.node.id
    · -- The better route cannot be extended, but has come to the node already.
      obtain ⟨passed, on, there⟩ := passes
      refine (progress.trail_kept found good passed on).of_beats there ?_
      rw [trail_cons progress.inv.back found] at route on
      exact replaceable s at_ _ rest _ route before same better extended passed on there
    · have open_ : g.Open s (trail w.parent k) c :=
        ⟨same ▸ among, kind, (streakAt_mono (beats_iff.mp better).2.2).trans bridge,
          fun passed on there => passes ⟨passed, on, there⟩⟩
      have depth := (beats_iff.mp better).1
      have covered := progress.closed p k s (List.getElem?_eq_some_iff.mp waits).1 waits good found
        (by omega) c open_
      exact covered.of_beats rfl (beats_onward better)

theorem Progress.recorded (progress : Progress g w d e head reached) : g.Recorded w reached := by
  intro key among
  obtain ⟨s, found, other, named⟩ := progress.sound key among
  have route := progress.inv.routes key s found
  have inside := (List.getElem?_eq_some_iff.mp found).1
  rw [trail_cons progress.inv.back found] at route
  refine ⟨s, _, ?_, route, other, named⟩
  rw [stepsBack_enough progress.inv.back inside, trail_cons progress.inv.back found]

theorem Progress.all (progress : Progress g w d e w.queue.length reached) (replaceable : g.Replaceable) :
    g.Complete w reached := by
  intro step rest route other named
  obtain ⟨k, kept, s, found, -⟩ := progress.covers replaceable route step rest rfl
  obtain ⟨good, ⟨s', found', same⟩, p, -, waits⟩ := progress.inv.kept _ k kept
  rw [found] at found'
  cases found'
  rw [← same] at other named
  exact ⟨k, progress.complete p k s (List.getElem?_eq_some_iff.mp waits).1 waits good found other
    named, s, found, same⟩

theorem start_progress (g : Search) : Progress g (Walk.empty.keep g.start) 0 1 0 [] := by
  have only : ∀ {k : Nat} {s : WalkStep}, (Walk.empty.keep g.start).parent[k]? = some s →
      k = 0 ∧ s = g.start := by
    intro k s found
    match k, found with
    | 0, rfl => exact ⟨rfl, rfl⟩
  have queued : ∀ {p k : Nat}, (Walk.empty.keep g.start).queue[p]? = some k → p = 0 ∧ k = 0 := by
    intro p k here
    match p, here with
    | 0, rfl => exact ⟨rfl, rfl⟩
  have kept : ∀ id, (Walk.empty.keep g.start).kept id = if id = g.seed.id then [0] else [] := by
    intro id
    change (lookup (assign [] g.start.node.id [0]) id).getD [] = if id = g.start.node.id then [0] else []
    rw [lookup_assign]
    by_cases same : id = g.start.node.id
    · rw [if_pos same, if_pos same]
      rfl
    · rw [if_neg same, if_neg same]
      rfl
  have no_prev : ∀ {prev : Nat}, g.start.prev ≠ some prev := fun is => nomatch is
  constructor
  · constructor
    · intro k s p found is
      obtain ⟨-, rfl⟩ := only found
      exact absurd is no_prev
    · intro k s found
      obtain ⟨rfl, rfl⟩ := only found
      exact .seed
    · rfl
    · intro p k here
      obtain ⟨-, rfl⟩ := queued here
      exact Nat.one_pos
    · exact fun k beaten => absurd beaten List.not_mem_nil
    · intro id k among
      rw [kept] at among
      split at among
      · next same =>
        obtain rfl := List.mem_singleton.mp among
        exact ⟨List.not_mem_nil, ⟨g.start, rfl, same.symm⟩, 0, rfl, rfl⟩
      · cases among
    · intro k s found _
      obtain ⟨rfl, rfl⟩ := only found
      rw [kept, if_pos (show g.start.node.id = g.seed.id from rfl)]
      exact List.mem_singleton_self _
  · constructor
    · exact Nat.le_refl _
    · intro p k s _ _ found
      obtain ⟨-, rfl⟩ := only found
      exact Nat.le_refl _
    · intro p k s _ _ _ found
      obtain ⟨-, rfl⟩ := only found
      rfl
    · intro p k s late here found
      obtain ⟨rfl, -⟩ := queued here
      omega
  · exact Nat.zero_le _
  · intro k s prev found is
    obtain ⟨-, rfl⟩ := only found
    exact absurd is no_prev
  · refine ⟨0, ?_, g.start, rfl, beats_refl _⟩
    rw [kept, if_pos (show g.start.node.id = g.seed.id from rfl)]
    exact List.mem_singleton_self _
  · exact fun p k s low => absurd low (Nat.not_lt_zero p)
  · exact fun k among => absurd among List.not_mem_nil
  · exact fun p k s low => absurd low (Nat.not_lt_zero p)

/-- A function, or a route if the identifier starts with a slash. -/
def nodeOf (id : NodeId) : Node :=
  ⟨id, if id.toList.head? = some '/' then .route else .function, .typescript⟩

def callOf (source target : NodeId) : Callee :=
  ⟨nodeOf target, ⟨0, source, target, .calls, none, none⟩, none⟩

def searchOf (calls : List (NodeId × List NodeId)) (named : List NodeId) : Search where
  calleesOf id := ((calls.lookup id).getD []).map (callOf id)
  seed := nodeOf "main"
  named := named
  maxHops := 7
  maxBridge := 1

theorem rounds_more {fuel : Nat} {result : Walk × List Nat}
    (is : g.rounds fuel w head reached = some result)
    {more : Nat} (enough : fuel ≤ more) : g.rounds more w head reached = some result := by
  induction fuel generalizing w head reached more with
  | zero => cases is
  | succ fuel ih =>
    obtain ⟨more, rfl⟩ := Nat.exists_eq_succ_of_ne_zero (Nat.ne_zero_of_lt enough)
    have le := Nat.le_of_succ_le_succ enough
    rw [Search.rounds] at is ⊢
    split at is
    · exact is
    split_ifs at is ⊢ with cap beaten
    · exact is
    · exact ih is le
    split at is
    · exact ih is le
    dsimp only at is ⊢
    split_ifs at is ⊢ <;> exact ih is le

/-- Both `/c` and `/d` call `find`, which calls `/c`; the walk keeps the way through `/c`, and from
there it cannot pass `/c` again to `send`. -/
def crossing : Search :=
  searchOf [("main", ["left", "right"]), ("left", ["/c"]), ("right", ["/d"]), ("/c", ["find", "post"]),
    ("/d", ["find"]), ("find", ["/c"]), ("post", ["send"])] ["find", "send"]

theorem crossing_route : ∃ step rest, crossing.Route (step :: rest) ∧ step.node.id = "send" := by
  have hop : ∀ {at_ : WalkStep} {rest : List WalkStep} (c : Callee), crossing.Route (at_ :: rest) →
      c ∈ crossing.calleesOf at_.node.id ∧ c.edge.kind ∈ FLOW_EDGE_KINDS ∧
        crossing.streakAt at_.streak c ≤ crossing.maxBridge ∧ (∀ s ∈ at_ :: rest, s.node.id ≠ c.node.id) ∧
          at_.depth + 1 < crossing.maxHops →
      crossing.Route (crossing.onward none at_ c :: at_ :: rest) :=
    fun c route ⟨among, kind, bridge, simple, short⟩ => .hop route among kind bridge simple short
  have right := hop (callOf "main" "right") .seed (by decide +kernel)
  have d := hop (callOf "right" "/d") right (by decide +kernel)
  have find := hop (callOf "/d" "find") d (by decide +kernel)
  have c := hop (callOf "find" "/c") find (by decide +kernel)
  have post := hop (callOf "/c" "post") c (by decide +kernel)
  exact ⟨_, _, hop (callOf "post" "send") post (by decide +kernel), rfl⟩

end CodeGraph.Graph.NamedFlow
