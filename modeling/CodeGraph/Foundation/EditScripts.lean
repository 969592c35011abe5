import CodeGraph.Foundation.Decisions

/-!
# Edit scripts and the Levenshtein distance

A script turns one list into another from left to right, keeping, substituting, deleting and
inserting single elements. The Levenshtein distance is the least number of edits of a script.
-/
namespace CodeGraph.EditScripts

variable {α : Type}

inductive Edits : List α → List α → Nat → Prop
  | done : Edits [] [] 0
  | keep {as bs : List α} {n : Nat} (a : α) (rest : Edits as bs n) : Edits (a :: as) (a :: bs) n
  | substitute {as bs : List α} {n : Nat} (a b : α) (rest : Edits as bs n) :
    Edits (a :: as) (b :: bs) (n + 1)
  | delete {as bs : List α} {n : Nat} (a : α) (rest : Edits as bs n) : Edits (a :: as) bs (n + 1)
  | insert {as bs : List α} {n : Nat} (b : α) (rest : Edits as bs n) : Edits as (b :: bs) (n + 1)

noncomputable def levenshtein (as bs : List α) : Nat := sInf {n | Edits as bs n}

variable {as bs cs ds : List α} {m n : Nat}

theorem Edits.append (first : Edits as bs m) (second : Edits cs ds n) :
    Edits (as ++ cs) (bs ++ ds) (m + n) := by
  induction first with
  | done => simpa using second
  | keep a _ ih => exact .keep a ih
  | @substitute _ _ k a b _ ih =>
    rw [Nat.add_right_comm]
    exact .substitute a b ih
  | @delete _ _ k a _ ih =>
    rw [Nat.add_right_comm]
    exact .delete a ih
  | @insert _ _ k b _ ih =>
    rw [Nat.add_right_comm]
    exact .insert b ih

theorem Edits.reverse (script : Edits as bs n) : Edits as.reverse bs.reverse n := by
  induction script with
  | done => exact .done
  | keep a _ ih => simpa using ih.append (.keep a .done)
  | substitute a b _ ih => simpa using ih.append (.substitute a b .done)
  | delete a _ ih => simpa using ih.append (.delete a .done)
  | insert b _ ih => simpa using ih.append (.insert b .done)

theorem edits_self (as : List α) : Edits as as 0 := by
  induction as with
  | nil => exact .done
  | cons a as ih => exact .keep a ih

theorem edits_nil_left (bs : List α) : Edits [] bs bs.length := by
  induction bs with
  | nil => exact .done
  | cons b bs ih => exact .insert b ih

theorem edits_nil_right (as : List α) : Edits as [] as.length := by
  induction as with
  | nil => exact .done
  | cons a as ih => exact .delete a ih

theorem exists_edits (as bs : List α) : ∃ n, Edits as bs n := by
  have script := (edits_nil_right as).append (edits_nil_left bs)
  rw [List.append_nil, List.nil_append] at script
  exact ⟨_, script⟩

theorem Edits.length (script : Edits as bs n) :
    as.length ≤ bs.length + n ∧ bs.length ≤ as.length + n := by
  induction script with
  | done => simp
  | keep _ _ ih => simp only [List.length_cons]; omega
  | substitute _ _ _ ih => simp only [List.length_cons]; omega
  | delete _ _ ih => simp only [List.length_cons]; omega
  | insert _ _ ih => simp only [List.length_cons]; omega

theorem Edits.split (script : Edits as bs n) (i : Nat) :
    ∃ j ≤ bs.length, ∃ k ≤ n, Edits (as.take i) (bs.take j) k := by
  induction script generalizing i with
  | done => exact ⟨0, Nat.le_refl _, 0, Nat.le_refl _, by simpa using Edits.done⟩
  | keep a _ ih =>
    cases i with
    | zero => exact ⟨0, Nat.zero_le _, 0, Nat.zero_le _, .done⟩
    | succ i =>
      obtain ⟨j, within, k, fewer, part⟩ := ih i
      exact ⟨j + 1, Nat.succ_le_succ within, k, fewer, .keep a part⟩
  | substitute a b _ ih =>
    cases i with
    | zero => exact ⟨0, Nat.zero_le _, 0, Nat.zero_le _, .done⟩
    | succ i =>
      obtain ⟨j, within, k, fewer, part⟩ := ih i
      exact ⟨j + 1, Nat.succ_le_succ within, k + 1, Nat.succ_le_succ fewer, .substitute a b part⟩
  | delete a _ ih =>
    cases i with
    | zero => exact ⟨0, Nat.zero_le _, 0, Nat.zero_le _, .done⟩
    | succ i =>
      obtain ⟨j, within, k, fewer, part⟩ := ih i
      exact ⟨j, within, k + 1, Nat.succ_le_succ fewer, .delete a part⟩
  | insert b _ ih =>
    obtain ⟨j, within, k, fewer, part⟩ := ih i
    exact ⟨j + 1, Nat.succ_le_succ within, k + 1, Nat.succ_le_succ fewer, .insert b part⟩

/-! ### The distance -/

theorem levenshtein_edits (as bs : List α) : Edits as bs (levenshtein as bs) :=
  Nat.sInf_mem (exists_edits as bs)

theorem Edits.least (script : Edits as bs n) : levenshtein as bs ≤ n := Nat.sInf_le script

theorem levenshtein_self (as : List α) : levenshtein as as = 0 :=
  Nat.le_zero.mp (edits_self as).least

theorem levenshtein_nil_left (bs : List α) : levenshtein [] bs = bs.length := by
  have long := (levenshtein_edits [] bs).length.2
  have short := (edits_nil_left bs).least
  simp only [List.length_nil] at long
  omega

theorem levenshtein_nil_right (as : List α) : levenshtein as [] = as.length := by
  have long := (levenshtein_edits as []).length.1
  have short := (edits_nil_right as).least
  simp only [List.length_nil] at long
  omega

theorem levenshtein_reverse (as bs : List α) :
    levenshtein as.reverse bs.reverse = levenshtein as bs := by
  apply Nat.le_antisymm
  · exact (levenshtein_edits as bs).reverse.least
  · have back := (levenshtein_edits as.reverse bs.reverse).reverse
    rw [List.reverse_reverse, List.reverse_reverse] at back
    exact back.least

/-- A start of the first list is no farther from some start of the second. -/
theorem levenshtein_take (as bs : List α) (i : Nat) :
    ∃ j ≤ bs.length, levenshtein (as.take i) (bs.take j) ≤ levenshtein as bs := by
  obtain ⟨j, within, k, fewer, part⟩ := (levenshtein_edits as bs).split i
  exact ⟨j, within, part.least.trans fewer⟩

variable [DecidableEq α]

theorem levenshtein_cons (a b : α) (as bs : List α) :
    levenshtein (a :: as) (b :: bs) =
      min (levenshtein (a :: as) bs + 1)
        (min (levenshtein as (b :: bs) + 1) (levenshtein as bs + if a = b then 0 else 1)) := by
  apply Nat.le_antisymm
  · refine Nat.le_min.mpr ⟨?_, Nat.le_min.mpr ⟨?_, ?_⟩⟩
    · exact (Edits.insert b (levenshtein_edits (a :: as) bs)).least
    · exact (Edits.delete a (levenshtein_edits as (b :: bs))).least
    · split
      · next same =>
        subst same
        exact (Edits.keep a (levenshtein_edits as bs)).least
      · exact (Edits.substitute a b (levenshtein_edits as bs)).least
  · generalize whole : levenshtein (a :: as) (b :: bs) = n
    have script := levenshtein_edits (a :: as) (b :: bs)
    rw [whole] at script
    cases script with
    | keep _ rest =>
      have least := rest.least
      simp only [if_true]
      omega
    | substitute _ _ rest =>
      have least := rest.least
      split <;> omega
    | delete _ rest =>
      have least := rest.least
      omega
    | insert _ rest =>
      have least := rest.least
      omega

theorem levenshtein_concat (a b : α) (as bs : List α) :
    levenshtein (as ++ [a]) (bs ++ [b]) =
      min (levenshtein (as ++ [a]) bs + 1)
        (min (levenshtein as (bs ++ [b]) + 1) (levenshtein as bs + if a = b then 0 else 1)) := by
  have back := levenshtein_cons a b as.reverse bs.reverse
  have concat : ∀ (c : α) (cs : List α), c :: cs.reverse = (cs ++ [c]).reverse := by simp
  rwa [concat, concat, levenshtein_reverse, levenshtein_reverse, levenshtein_reverse,
    levenshtein_reverse] at back

end CodeGraph.EditScripts
