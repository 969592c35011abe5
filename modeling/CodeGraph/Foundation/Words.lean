import CodeGraph.Foundation.Decisions

/-! The words of a list: the parts between separators that are not empty. -/
namespace CodeGraph.Words

variable {α : Type} {p : α → Bool}

def words (p : α → Bool) (xs : List α) : List (List α) := (xs.splitOnP p).filter (!·.isEmpty)

inductive Spaced (p : α → Bool) : List (List α) → List α → Prop
  | done : Spaced p [] []
  | blank {ws : List (List α)} {x : α} {xs : List α} :
      p x = true → Spaced p ws xs → Spaced p ws (x :: xs)
  | word {w : List α} {ws : List (List α)} {xs : List α} :
      w ≠ [] → (∀ x ∈ w, p x = false) → (∀ x ∈ xs.head?, p x = true) → Spaced p ws xs →
        Spaced p (w :: ws) (w ++ xs)

theorem words_blank {x : α} (blank : p x = true) (xs : List α) :
    words p (x :: xs) = words p xs := by
  rw [words, List.splitOnP_cons_eq_if_modifyHead, if_pos blank, words]
  rfl

theorem words_word {w : List α} (some_ : w ≠ []) (plain : ∀ x ∈ w, p x = false) {xs : List α}
    (stop : ∀ x ∈ xs.head?, p x = true) : words p (w ++ xs) = w :: words p xs := by
  have full : (!w.isEmpty) = true := by simpa using some_
  cases xs with
  | nil =>
    rw [List.append_nil, words, List.splitOnP_eq_singleton plain]
    simp [words, full]
  | cons x xs =>
    rw [words_blank (stop x rfl), words,
      List.splitOnP_append_cons_of_forall_mem plain x (stop x rfl), List.filter_cons, full]
    rfl

theorem words_of_spaced {ws : List (List α)} {xs : List α} (spaced : Spaced p ws xs) :
    words p xs = ws := by
  induction spaced with
  | done => rfl
  | blank blank _ ih => rw [words_blank blank, ih]
  | word some_ plain stop _ ih => rw [words_word some_ plain stop, ih]

theorem spaced_words (p : α → Bool) (xs : List α) : Spaced p (words p xs) xs := by
  induction size : xs.length using Nat.strong_induction_on generalizing xs with
  | _ n ih =>
    subst size
    cases xs with
    | nil => exact .done
    | cons x xs =>
      cases blank : p x with
      | true =>
        rw [words_blank blank]
        exact .blank blank (ih _ (Nat.lt_succ_self _) _ rfl)
      | false =>
        -- The first word is taken whole.
        have split := List.takeWhile_append_dropWhile (p := fun y => !p y) (l := x :: xs)
        have some_ : (x :: xs).takeWhile (fun y => !p y) ≠ [] := by
          rw [List.takeWhile_cons_of_pos (by simp [blank])]
          exact List.cons_ne_nil _ _
        have plain : ∀ y ∈ (x :: xs).takeWhile (fun y => !p y), p y = false := by
          intro y listed
          simpa using List.mem_takeWhile_imp listed
        have stop : ∀ y ∈ ((x :: xs).dropWhile fun y => !p y).head?, p y = true := by
          intro y first
          have here := List.head?_dropWhile_not (fun y => !p y) (x :: xs)
          rw [Option.mem_def.mp first] at here
          simpa using here
        have shorter : ((x :: xs).dropWhile fun y => !p y).length < (x :: xs).length := by
          have sizes := congrArg List.length split
          have positive := List.length_pos_of_ne_nil some_
          rw [List.length_append] at sizes
          omega
        have later := ih _ shorter _ rfl
        rw [← split, words_word some_ plain stop]
        exact .word some_ plain stop later

theorem spaced_iff {ws : List (List α)} {xs : List α} : Spaced p ws xs ↔ words p xs = ws :=
  ⟨words_of_spaced, fun same => same ▸ spaced_words p xs⟩

end CodeGraph.Words
