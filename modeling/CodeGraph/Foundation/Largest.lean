import CodeGraph.Foundation.Decisions

/-!
A loop that keeps the first of the largest.

What it keeps depends on the order of the list only where two of the largest differ.
-/
namespace CodeGraph

variable {α β : Type}

/-- The first of the largest of what `candidate` lets through. -/
def firstLargest (candidate : α → Option β) (size : β → Nat) (xs : List α) : Option β :=
  xs.foldl (fun best x =>
    match candidate x with
    | none => best
    | some c => if best.any (size c ≤ size ·) then best else some c) none

/-- `c` is let through at a place where none before it is as large, and none after it larger. -/
def Leads (candidate : α → Option β) (size : β → Nat) (xs : List α) (c : β) : Prop :=
  ∃ before x after, xs = before ++ x :: after ∧ candidate x = some c ∧
    (∀ y ∈ before, ∀ d, candidate y = some d → size d < size c) ∧
    ∀ y ∈ after, ∀ d, candidate y = some d → size d ≤ size c

variable {candidate : α → Option β} {size : β → Nat}

private theorem firstLargest_concat (xs : List α) (x : α) :
    firstLargest candidate size (xs ++ [x]) =
      match candidate x with
      | none => firstLargest candidate size xs
      | some c =>
        if (firstLargest candidate size xs).any (size c ≤ size ·) then firstLargest candidate size xs
        else some c := by
  unfold firstLargest
  rw [List.foldl_append]
  rfl

theorem firstLargest_none {xs : List α} :
    firstLargest candidate size xs = none ↔ ∀ x ∈ xs, candidate x = none := by
  induction xs using List.reverseRecOn with
  | nil => simp [firstLargest]
  | append_singleton xs x ih =>
    rw [firstLargest_concat]
    cases found : candidate x with
    | none =>
      simp only [ih, List.mem_append, List.mem_singleton]
      constructor
      · rintro none_ y (old | rfl)
        · exact none_ y old
        · exact found
      · exact fun none_ y old => none_ y (.inl old)
    | some c =>
      constructor
      · intro none_
        simp only at none_
        split at none_
        · next smaller =>
          rw [none_] at smaller
          cases smaller
        · cases none_
      · intro none_
        rw [none_ x (by simp)] at found
        cases found

private theorem Leads.upper {xs : List α} {c : β} (leads : Leads candidate size xs c) {x : α}
    (member : x ∈ xs) {d : β} (found : candidate x = some d) : size d ≤ size c := by
  obtain ⟨before, y, after, rfl, here, earlier, later⟩ := leads
  rcases List.mem_append.mp member with old | new
  · exact Nat.le_of_lt (earlier x old d found)
  · rcases List.mem_cons.mp new with rfl | new
    · rw [here] at found
      cases found
      exact Nat.le_refl _
    · exact later x new d found

theorem Leads.candidate_of_member {xs : List α} {c : β} (leads : Leads candidate size xs c) :
    ∃ x ∈ xs, candidate x = some c := by
  obtain ⟨before, x, after, rfl, here, -, -⟩ := leads
  exact ⟨x, by simp, here⟩

theorem Leads.same_size {xs ys : List α} (perm : xs.Perm ys) {c d : β}
    (left : Leads candidate size xs c) (right : Leads candidate size ys d) : size c = size d := by
  obtain ⟨x, listed, here⟩ := left.candidate_of_member
  obtain ⟨y, listed', there⟩ := right.candidate_of_member
  exact Nat.le_antisymm (right.upper (perm.mem_iff.mp listed) here)
    (left.upper (perm.mem_iff.mpr listed') there)

theorem leads_of_firstLargest {xs : List α} {c : β}
    (found : firstLargest candidate size xs = some c) : Leads candidate size xs c := by
  induction xs using List.reverseRecOn generalizing c with
  | nil => cases found
  | append_singleton xs x ih =>
    rw [firstLargest_concat] at found
    -- whatever led before leads on, unless the last one is larger
    have carried : firstLargest candidate size xs = some c →
        (∀ d, candidate x = some d → size d ≤ size c) → Leads candidate size (xs ++ [x]) c := by
      intro led smaller
      obtain ⟨before, y, after, rfl, here, earlier, later⟩ := ih led
      refine ⟨before, y, after ++ [x], by simp, here, earlier, fun z member d passed => ?_⟩
      rcases mem_snoc.mp member with old | new
      · exact later z old d passed
      · rw [new] at passed
        exact smaller d passed
    cases here : candidate x with
    | none =>
      rw [here] at found
      refine carried found fun d passed => ?_
      rw [here] at passed
      cases passed
    | some b =>
      rw [here] at found
      simp only at found
      split at found
      · next smaller =>
        refine carried found fun d passed => ?_
        rw [here] at passed
        cases passed
        rw [found] at smaller
        simpa using smaller
      · next larger =>
        cases found
        refine ⟨xs, x, [], rfl, here, fun y member d passed => ?_, fun y member => nomatch member⟩
        cases before : firstLargest candidate size xs with
        | none =>
          rw [firstLargest_none.mp before y member] at passed
          cases passed
        | some e =>
          have upper := (ih before).upper member passed
          rw [before] at larger
          simp only [Option.any_some, decide_eq_true_eq, Nat.not_le] at larger
          exact Nat.lt_of_le_of_lt upper larger

private theorem Leads.unique {xs : List α} {c d : β} (left : Leads candidate size xs c)
    (right : Leads candidate size xs d) : c = d := by
  have sizes := left.same_size (List.Perm.refl xs) right
  obtain ⟨before, x, after, rfl, here, earlier, -⟩ := left
  obtain ⟨before', y, after', same, there, earlier', -⟩ := right
  rcases List.append_eq_append_iff.mp same with ⟨mid, rfl, rest⟩ | ⟨mid, rfl, rest⟩
  · cases mid with
    | nil =>
      cases rest
      exact Option.some.inj (here.symm.trans there)
    | cons z mid =>
      cases rest
      exact absurd (earlier' x (by simp) c here) (by omega)
  · cases mid with
    | nil =>
      cases rest
      exact Option.some.inj (here.symm.trans there)
    | cons z mid =>
      cases rest
      exact absurd (earlier y (by simp) d there) (by omega)

theorem firstLargest_some {xs : List α} {c : β} :
    firstLargest candidate size xs = some c ↔ Leads candidate size xs c := by
  refine ⟨leads_of_firstLargest, fun leads => ?_⟩
  cases found : firstLargest candidate size xs with
  | none =>
    obtain ⟨before, x, after, rfl, here, -, -⟩ := leads
    rw [firstLargest_none.mp found x (by simp)] at here
    cases here
  | some d => rw [(leads_of_firstLargest found).unique leads]

/-- What is made of the first of the largest is the same in two orders of a list just where it is
the same for the two that lead. -/
theorem firstLargest_perm {γ : Type} (otherwise : γ) (f : β → γ) {xs ys : List α} (perm : xs.Perm ys) :
    (firstLargest candidate size xs).elim otherwise f =
        (firstLargest candidate size ys).elim otherwise f ↔
      ∀ c d, Leads candidate size xs c → Leads candidate size ys d → f c = f d := by
  cases left : firstLargest candidate size xs with
  | none =>
    have right : firstLargest candidate size ys = none :=
      firstLargest_none.mpr fun y listed => firstLargest_none.mp left y (perm.mem_iff.mpr listed)
    rw [right]
    refine ⟨fun _ c d leads => ?_, fun _ => rfl⟩
    rw [firstLargest_some.mpr leads] at left
    cases left
  | some c =>
    have leads := firstLargest_some.mp left
    cases right : firstLargest candidate size ys with
    | none =>
      obtain ⟨x, listed, here⟩ := leads.candidate_of_member
      rw [firstLargest_none.mp right x (perm.mem_iff.mp listed)] at here
      cases here
    | some d =>
      have leads' := firstLargest_some.mp right
      constructor
      · intro same c' d' led led'
        rw [led.unique leads, led'.unique leads']
        exact same
      · exact fun same => same c d leads leads'

end CodeGraph
