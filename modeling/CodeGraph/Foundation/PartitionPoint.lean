import CodeGraph.Foundation.Decisions

/-! Binary search for the point at which a predicate stops to hold. -/
namespace CodeGraph.PartitionPoint

variable {α : Type}

/-- The base of the last window; the window starts at `base` and is `size` long. The fuel bounds the
rounds. -/
def narrow (pred : α → Bool) (xs : List α) : Nat → Nat → Nat → Nat
  | 0, _, base => base
  | fuel + 1, size, base =>
    if size ≤ 1 then base
    else
      let half := size / 2
      let mid := base + half
      narrow pred xs fuel (size - half) (if xs[mid]?.any pred then mid else base)

def partitionPoint (pred : α → Bool) (xs : List α) : Nat :=
  if xs = [] then 0
  else
    let base := narrow pred xs xs.length xs.length 0
    if xs[base]?.any pred then base + 1 else base

variable {pred : α → Bool} {front back : List α}

/-- In a partitioned list the predicate holds at an index if it is below the partition point. -/
theorem holds_iff (all : ∀ x ∈ front, pred x = true) (none_ : ∀ x ∈ back, pred x = false) (i : Nat) :
    ((front ++ back)[i]?.any pred) = true ↔ i < front.length := by
  rcases Nat.lt_or_ge i front.length with less | le
  · rw [List.getElem?_append_left less, List.getElem?_eq_getElem less, Option.any_some]
    exact iff_of_true (all _ (List.getElem_mem less)) less
  · refine iff_of_false (fun holds => ?_) (Nat.not_lt_of_le le)
    rw [List.getElem?_append_right le, Option.any_eq_true] at holds
    obtain ⟨x, found, held⟩ := holds
    rw [none_ x (List.mem_of_getElem? found)] at held
    cases held

theorem narrow_window (all : ∀ x ∈ front, pred x = true) (none_ : ∀ x ∈ back, pred x = false)
    {fuel size base : Nat} (enough : size ≤ fuel) (above : front.length ≤ base + size)
    (below : base = 0 ∨ base < front.length) :
    front.length ≤ narrow pred (front ++ back) fuel size base + 1 ∧
      (narrow pred (front ++ back) fuel size base = 0 ∨
        narrow pred (front ++ back) fuel size base < front.length) := by
  induction fuel generalizing size base with
  | zero => exact ⟨by rw [narrow]; omega, by rw [narrow]; exact below⟩
  | succ fuel ih =>
    simp only [narrow]
    split
    · next single => exact ⟨by omega, below⟩
    · next wide =>
      have holds := holds_iff all none_ (base + size / 2)
      by_cases here : ((front ++ back)[base + size / 2]?.any pred) = true
      · rw [if_pos here]
        exact ih (by omega) (by omega) (.inr (holds.mp here))
      · rw [if_neg here]
        have le := Nat.le_of_not_lt (holds.not.mp here)
        exact ih (by omega) (by omega) below

/-- On a partitioned list the search ends at the first element for which the predicate fails. -/
theorem partitionPoint_append (all : ∀ x ∈ front, pred x = true) (none_ : ∀ x ∈ back, pred x = false) :
    partitionPoint pred (front ++ back) = front.length := by
  simp only [partitionPoint]
  split
  · next empty => rw [(List.append_eq_nil_iff.mp empty).1, List.length_nil]
  · have length : front.length ≤ 0 + (front ++ back).length := by
      rw [List.length_append]
      omega
    have window := narrow_window all none_ (Nat.le_refl (front ++ back).length) length (.inl rfl)
    have holds := holds_iff all none_ (narrow pred (front ++ back) (front ++ back).length
      (front ++ back).length 0)
    split
    · next here =>
      have less := holds.mp here
      omega
    · next other =>
      have le := Nat.le_of_not_lt (holds.not.mp other)
      omega

example : partitionPoint (· ≤ 4) [0, 2, 4, 4, 7, 9] = 4 := by decide

end CodeGraph.PartitionPoint
