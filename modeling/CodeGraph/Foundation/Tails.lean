import CodeGraph.Foundation.Decisions

/-!
# Ends of lists

What follows the last mark of a list, what is left of a list without the marks at its end, and what
follows a word at its start.
-/
namespace CodeGraph.Tails

variable {α : Type} {p : α → Bool} {word xs ys : List α} {x : α}

/-- Behind a mark, the tail is all there is, as long as there is no other mark. -/
theorem rtakeWhile_append_cons (mark : p x = false) (plain : ∀ y ∈ ys, p y = true) :
    (xs ++ x :: ys).rtakeWhile p = ys := by
  have stopped : ((xs ++ x :: ys).reverse).takeWhile p = ys.reverse := by
    rw [List.reverse_append, List.reverse_cons, List.append_assoc,
      List.takeWhile_append_of_pos fun y listed => plain y (List.mem_reverse.mp listed)]
    simp [mark]
  rw [List.rtakeWhile, stopped, List.reverse_reverse]

theorem rdropWhile_append_cons (mark : p x = false) (plain : ∀ y ∈ ys, p y = true) :
    (xs ++ x :: ys).rdropWhile p = xs ++ [x] := by
  have parts := List.rdropWhile_append_rtakeWhile (p := p) (l := xs ++ x :: ys)
  rw [rtakeWhile_append_cons mark plain] at parts
  have cut : (xs ++ x :: ys).rdropWhile p ++ ys = xs ++ [x] ++ ys := by
    rw [parts, List.append_assoc, List.singleton_append]
  exact List.append_cancel_right cut

theorem last_mark (listed : x ∈ xs) (mark : p x = false) :
    ∃ front y, p y = false ∧ xs = front ++ y :: xs.rtakeWhile p := by
  have parts := List.rdropWhile_append_rtakeWhile (p := p) (l := xs)
  have some_ : xs.rdropWhile p ≠ [] := by
    intro none_
    rw [List.rdropWhile_eq_nil_iff.mp none_ x listed] at mark
    cases mark
  have last := List.rdropWhile_last_not p xs some_
  refine ⟨(xs.rdropWhile p).dropLast, (xs.rdropWhile p).getLast some_, by simpa using last, ?_⟩
  rw [List.append_cons, List.dropLast_append_getLast some_, parts]

theorem rtakeWhile_append_of_mark (listed : x ∈ ys) (mark : p x = false) :
    (xs ++ ys).rtakeWhile p = ys.rtakeWhile p := by
  obtain ⟨front, y, stop, cut⟩ := last_mark listed mark
  have plain : ∀ z ∈ ys.rtakeWhile p, p z = true := fun z member => List.mem_rtakeWhile_imp member
  conv_lhs => rw [cut, ← List.append_assoc]
  exact rtakeWhile_append_cons stop plain

theorem rtakeWhile_append_of_plain (plain : ∀ y ∈ ys, p y = true) :
    (xs ++ ys).rtakeWhile p = xs.rtakeWhile p ++ ys := by
  rw [List.rtakeWhile, List.reverse_append,
    List.takeWhile_append_of_pos fun y listed => plain y (List.mem_reverse.mp listed),
    List.reverse_append, List.reverse_reverse, List.rtakeWhile]

variable [DecidableEq α]

def after? (word xs : List α) : Option (List α) :=
  if word.isPrefixOf xs then some (xs.drop word.length) else none

@[simp]
theorem after?_append : after? word (word ++ xs) = some xs := by
  simp [after?]

theorem after?_eq_none (other : word.isPrefixOf xs = false) : after? word xs = none := by
  simp [after?, other]

end CodeGraph.Tails

/-! Queues: what is at the front, and what one more at the end adds. -/
namespace CodeGraph.Queues

variable {α : Type} {queue front back : List α} {x y : α}

/-- An element of a queue with one more is that one, or one of the others. -/
theorem concat_cases (whole : queue ++ [x] = front ++ y :: back) :
    (front = queue ∧ y = x) ∨ ∃ back, queue = front ++ y :: back := by
  rcases List.eq_nil_or_concat' back with rfl | ⟨back, last, rfl⟩
  · obtain ⟨rfl, same⟩ := List.append_inj' whole rfl
    exact Or.inl ⟨rfl, (List.singleton_inj.mp same).symm⟩
  · rw [← List.cons_append, ← List.append_assoc] at whole
    exact Or.inr ⟨back, List.append_inj_left' whole rfl⟩

end CodeGraph.Queues
