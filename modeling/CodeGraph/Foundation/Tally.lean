import CodeGraph.Foundation.Decisions

/-! How many there are, and counts that are too large. -/
namespace CodeGraph.Tally

variable {α β : Type}

/-- There are exactly `n` with the property. -/
def Counts (n : Nat) (p : α → Prop) : Prop :=
  ∃ ids : List α, ids.Nodup ∧ (∀ id, id ∈ ids ↔ p id) ∧ ids.length = n

theorem Counts.unique {m n : Nat} {p : α → Prop} (one : Counts m p) (other : Counts n p) : m = n := by
  obtain ⟨ids, distinct, all, rfl⟩ := one
  obtain ⟨ids', distinct', all', rfl⟩ := other
  refine List.Perm.length_eq ((List.perm_ext_iff_of_nodup distinct distinct').mpr fun id => ?_)
  rw [all, all']

theorem Counts.iff {m n : Nat} {p : α → Prop} (one : Counts m p) : Counts n p ↔ n = m :=
  ⟨fun other => other.unique one, fun same => same ▸ one⟩

open Classical in
theorem exists_counts {p : α → Prop} (all : List α) (inside : ∀ x, p x → x ∈ all) : ∃ n, Counts n p := by
  refine ⟨_, all.dedup.filter fun x => decide (p x), all.nodup_dedup.filter _, fun x => ?_, rfl⟩
  rw [List.mem_filter, List.mem_dedup, decide_eq_true_eq]
  exact ⟨fun both => both.2, fun holds => ⟨inside x holds, holds⟩⟩

theorem countP_split (p q : β → Bool) (l : List β) :
    l.countP p = l.countP (fun x => p x && q x) + l.countP fun x => p x && !q x := by
  induction l with
  | nil => rfl
  | cons x l ih =>
    simp only [List.countP_cons, ih]
    cases p x <;> cases q x <;> simp <;> omega

theorem countP_keys [DecidableEq α] {key : β → α} {keys : List α} (distinct : keys.Nodup) {l : List β}
    {p : β → Bool} (inside : ∀ x ∈ l, p x = true → key x ∈ keys) :
    l.countP p = (keys.map fun k => l.countP fun x => p x && decide (key x = k)).sum := by
  induction keys generalizing p with
  | nil =>
    refine List.countP_eq_zero.mpr fun x listed counted => ?_
    cases inside x listed counted
  | cons k keys ih =>
    rw [List.nodup_cons] at distinct
    rw [countP_split p (fun x => decide (key x = k)), List.map_cons, List.sum_cons,
      ih (p := fun x => p x && !decide (key x = k)) distinct.2]
    · refine congrArg (_ + List.sum ·) (List.map_congr_left fun k' member => ?_)
      refine List.countP_congr fun x _ => ?_
      by_cases here : key x = k'
      · have other : ¬k' = k := fun same => distinct.1 (same ▸ member)
        simp [here, other]
      · simp [here]
    · intro x listed counted
      rw [Bool.and_eq_true, Bool.not_eq_true', decide_eq_false_iff_not] at counted
      exact (List.mem_cons.mp (inside x listed counted.1)).resolve_left counted.2

theorem sum_le {l : List α} {f g : α → Nat} (least : ∀ x ∈ l, g x ≤ f x) :
    (l.map g).sum ≤ (l.map f).sum := by
  induction l with
  | nil => exact Nat.le_refl _
  | cons x l ih =>
    rw [List.map_cons, List.map_cons, List.sum_cons, List.sum_cons]
    exact Nat.add_le_add (least x List.mem_cons_self)
      (ih fun y h => least y (List.mem_cons_of_mem x h))

/-- Counts that are nowhere too small are right in sum exactly if they are right everywhere. -/
theorem sum_exact {l : List α} {f g : α → Nat} (least : ∀ x ∈ l, g x ≤ f x) :
    (l.map f).sum = (l.map g).sum ↔ ∀ x ∈ l, f x = g x := by
  induction l with
  | nil => simp
  | cons x l ih =>
    have rest : ∀ y ∈ l, g y ≤ f y := fun y h => least y (List.mem_cons_of_mem x h)
    have here := least x List.mem_cons_self
    have below := sum_le rest
    have tail := ih rest
    rw [List.map_cons, List.map_cons, List.sum_cons, List.sum_cons, List.forall_mem_cons]
    constructor
    · intro equal
      exact ⟨by omega, tail.mp (by omega)⟩
    · rintro ⟨first, others⟩
      rw [first, tail.mpr others]

theorem countP_exact {l : List β} {p q : β → Bool} (least : ∀ x ∈ l, q x = true → p x = true) :
    l.countP p = l.countP q ↔ ∀ x ∈ l, p x = true → q x = true := by
  induction l with
  | nil => simp
  | cons x l ih =>
    have rest : ∀ y ∈ l, q y = true → p y = true := fun y h => least y (List.mem_cons_of_mem x h)
    have here := least x List.mem_cons_self
    have below : l.countP q ≤ l.countP p := List.countP_mono_left rest
    rw [List.forall_mem_cons, ← ih rest, List.countP_cons, List.countP_cons]
    cases hp : p x <;> cases hq : q x
    · simp
    · exact absurd (here hq) (by simp [hp])
    · simp
      omega
    · simp

/-- One of each exactly if the keys are as many as what is counted. -/
theorem countP_once [DecidableEq α] (key : β → α) {keys : List α} (distinct : keys.Nodup) {l : List β}
    {p : β → Bool} (some_ : ∀ k ∈ keys, 1 ≤ l.countP fun x => p x && decide (key x = k)) :
    l.countP p = keys.length ↔ (∀ x ∈ l, p x = true → key x ∈ keys) ∧
      ∀ k ∈ keys, (l.countP fun x => p x && decide (key x = k)) = 1 := by
  have ones : (keys.map fun _ => 1).sum = keys.length := by
    rw [List.map_const', List.sum_replicate_nat, Nat.mul_one]
  have same : ∀ k ∈ keys, (l.countP fun x => p x && decide (key x ∈ keys) && decide (key x = k)) =
      l.countP fun x => p x && decide (key x = k) := by
    refine fun k member => List.countP_congr fun x _ => ?_
    by_cases here : key x = k
    · simp [here, member]
    · simp [here]
  have inside : l.countP (fun x => p x && decide (key x ∈ keys)) =
      (keys.map fun k => l.countP fun x => p x && decide (key x = k)).sum := by
    rw [countP_keys distinct (fun x _ counted => by simpa using (Bool.and_eq_true_iff.mp counted).2)]
    exact congrArg List.sum (List.map_congr_left same)
  have exact_ := sum_exact some_
  have least : keys.length ≤ l.countP fun x => p x && decide (key x ∈ keys) := by
    rw [inside, ← ones]
    exact sum_le some_
  have outside : (l.countP fun x => p x && !decide (key x ∈ keys)) = 0 ↔
      ∀ x ∈ l, p x = true → key x ∈ keys := by
    simp [List.countP_eq_zero]
  rw [ones, ← inside] at exact_
  rw [countP_split p (fun x => decide (key x ∈ keys)), ← outside, ← exact_]
  omega

theorem keys_nodup [DecidableEq α] (key : β → α) {l : List β}
    (once : ∀ x ∈ l, (l.countP fun y => decide (key y = key x)) = 1) : (l.map key).Nodup := by
  rw [List.nodup_iff_count_le_one]
  intro k
  by_cases listed : k ∈ l.map key
  · obtain ⟨x, member, rfl⟩ := List.mem_map.mp listed
    rw [List.count, List.countP_map]
    refine Nat.le_of_eq (Eq.trans (List.countP_congr fun y _ => ?_) (once x member))
    simp
  · rw [List.count_eq_zero_of_not_mem listed]
    exact Nat.zero_le 1

end CodeGraph.Tally
