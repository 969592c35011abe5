import Mathlib

/-! Lists that grow by one element at their end. -/
namespace CodeGraph

universe u

variable {α : Type u} {xs : List α} {x y : α}

theorem mem_snoc : y ∈ xs ++ [x] ↔ y ∈ xs ∨ y = x := by rw [List.mem_append, List.mem_singleton]

theorem forall_snoc {p : α → Prop} (old : ∀ y ∈ xs, p y) (last : p x) : ∀ y ∈ xs ++ [x], p y := by
  intro y listed
  rcases mem_snoc.mp listed with member | rfl
  · exact old y member
  · exact last

theorem nodup_snoc (distinct : xs.Nodup) (fresh : x ∉ xs) : (xs ++ [x]).Nodup := by
  refine List.nodup_append.mpr ⟨distinct, List.pairwise_singleton _ _, fun a member b last same => fresh ?_⟩
  rwa [← List.mem_singleton.mp last, ← same]

theorem dedup_snoc [DecidableEq α] (xs : List α) (x : α) :
    (xs ++ [x]).dedup = xs.dedup.filter (· ≠ x) ++ [x] := by
  induction xs with
  | nil => rfl
  | cons y xs ih =>
    by_cases later : y ∈ xs
    · rw [List.cons_append, List.dedup_cons_of_mem (List.mem_append_left _ later), ih,
        List.dedup_cons_of_mem later]
    · rw [List.dedup_cons_of_notMem later, List.cons_append]
      by_cases same : y = x
      · subst same
        rw [List.dedup_cons_of_mem (mem_snoc.mpr (.inr rfl)), ih]
        simp
      · rw [List.dedup_cons_of_notMem (fun h => (mem_snoc.mp h).elim later same), ih]
        simp [same]

theorem take_filter [DecidableEq α] {xs : List α} (distinct : xs.Nodup) (x : α) (n : Nat) :
    ((xs.take (n + 1)).filter (· ≠ x)).take n = (xs.filter (· ≠ x)).take n := by
  induction xs generalizing n with
  | nil => rfl
  | cons y xs ih =>
    obtain ⟨fresh, rest⟩ := List.nodup_cons.mp distinct
    by_cases same : y = x
    · subst same
      have all (ys : List α) (inside : ys ⊆ xs) : (y :: ys).filter (· ≠ y) = ys := by
        rw [List.filter_cons_of_neg (by simp), List.filter_eq_self]
        intro z listed
        exact decide_eq_true fun is => fresh (is ▸ inside listed)
      rw [List.take_succ_cons, all _ (List.take_subset n xs), all xs fun _ h => h,
        List.take_take, Nat.min_self]
    · cases n with
      | zero => rfl
      | succ n =>
        have other (ys : List α) : (y :: ys).filter (· ≠ x) = y :: ys.filter (· ≠ x) :=
          List.filter_cons_of_pos (decide_eq_true same)
        rw [List.take_succ_cons, other, other, List.take_succ_cons, List.take_succ_cons, ih rest]

/-- The last of the keys, the least recently used first, after one more use. -/
theorem rtake_used [DecidableEq α] (xs : List α) (x : α) (n : Nat) :
    ((xs.dedup.rtake (n + 1)).filter (· ≠ x) ++ [x]).rtake (n + 1) =
      (xs ++ [x]).dedup.rtake (n + 1) := by
  have kept := take_filter (List.nodup_reverse.mpr xs.nodup_dedup) x n
  rw [dedup_snoc, List.rtake_concat_succ, List.rtake_concat_succ]
  simp only [List.rtake_eq_reverse_take_reverse, ← List.filter_reverse, List.reverse_reverse, kept]

theorem rtake_grown (xs : List α) (x : α) (n : Nat) :
    (xs.rtake (n + 1) ++ [x]).rtake (n + 1) = (xs ++ [x]).rtake (n + 1) := by
  rw [List.rtake_concat_succ, List.rtake_concat_succ]
  simp only [List.rtake_eq_reverse_take_reverse, List.reverse_reverse, List.take_take]
  rw [Nat.min_eq_left (Nat.le_succ n)]

theorem map_rtake {β : Type u} (f : α → β) (xs : List α) (n : Nat) :
    (xs.rtake n).map f = (xs.map f).rtake n := by
  rw [List.rtake, List.rtake, List.map_drop, List.length_map]

end CodeGraph
