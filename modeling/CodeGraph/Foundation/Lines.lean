import CodeGraph.Foundation.Decisions

/-!
# Lines of a stream

A list of elements with a terminator among them: the lines that are complete, and what is left
after the last terminator. Both can be read part by part, and through a function that decodes a
line at a time.
-/
namespace CodeGraph.Lines

variable {α β : Type} [DecidableEq α] [DecidableEq β] {terminator : α} {line xs ys : List α}

def complete (terminator : α) (xs : List α) : List (List α) := (xs.splitOn terminator).dropLast

def remainder (terminator : α) (xs : List α) : List α :=
  (xs.splitOn terminator).getLast (List.splitOn_ne_nil terminator xs)

theorem complete_of_not_mem (none_ : terminator ∉ xs) : complete terminator xs = [] := by
  rw [complete, List.splitOn_eq_singleton none_]
  rfl

theorem remainder_of_not_mem (none_ : terminator ∉ xs) : remainder terminator xs = xs := by
  simp only [remainder, List.splitOn_eq_singleton none_, List.getLast_singleton]

theorem complete_line (none_ : terminator ∉ line) :
    complete terminator (line ++ terminator :: xs) = line :: complete terminator xs := by
  rw [complete, List.splitOn_append_cons_self_of_not_mem none_,
    List.dropLast_cons_of_ne_nil (List.splitOn_ne_nil _ _), complete]

theorem remainder_line (none_ : terminator ∉ line) :
    remainder terminator (line ++ terminator :: xs) = remainder terminator xs := by
  simp only [remainder, List.splitOn_append_cons_self_of_not_mem none_]
  exact List.getLast_cons _

/-- A stream is a part without a terminator, or a line before a shorter stream. -/
theorem induction {motive : List α → Prop} (terminator : α)
    (part : ∀ xs, terminator ∉ xs → motive xs)
    (lines : ∀ line xs, terminator ∉ line → motive xs → motive (line ++ terminator :: xs))
    (xs : List α) : motive xs := by
  induction size : xs.length using Nat.strongRecOn generalizing xs with
  | ind n ih =>
    by_cases listed : terminator ∈ xs
    · obtain ⟨line, rest, rfl, none_⟩ := List.eq_append_cons_of_mem listed
      rw [List.length_append, List.length_cons] at size
      exact lines line rest none_ (ih rest.length (by omega) rest rfl)
    · exact part xs listed

theorem remainder_not_mem (terminator : α) (xs : List α) :
    terminator ∉ remainder terminator xs := by
  induction xs using induction terminator with
  | part xs none_ => rwa [remainder_of_not_mem none_]
  | lines line xs none_ ih => rwa [remainder_line none_]

theorem not_mem_of_mem_splitOn (listed : line ∈ xs.splitOn terminator) : terminator ∉ line := by
  induction xs using induction terminator with
  | part xs none_ =>
    rw [List.splitOn_eq_singleton none_, List.mem_singleton] at listed
    rwa [listed]
  | lines first xs none_ ih =>
    rw [List.splitOn_append_cons_self_of_not_mem none_, List.mem_cons] at listed
    rcases listed with rfl | later
    · exact none_
    · exact ih later

theorem subset_of_mem_splitOn (listed : line ∈ xs.splitOn terminator) : line ⊆ xs := by
  induction xs using induction terminator with
  | part xs none_ =>
    rw [List.splitOn_eq_singleton none_, List.mem_singleton] at listed
    rw [listed]
    exact List.Subset.refl xs
  | lines first xs none_ ih =>
    rw [List.splitOn_append_cons_self_of_not_mem none_, List.mem_cons] at listed
    rcases listed with rfl | later
    · exact List.subset_append_left _ _
    · exact List.Subset.trans (ih later)
        (List.Subset.trans (List.subset_cons_self _ _) (List.subset_append_right _ _))

theorem splitOn_append_separator (xs ys : List α) :
    (xs ++ terminator :: ys).splitOn terminator =
      xs.splitOn terminator ++ ys.splitOn terminator := by
  induction xs using induction terminator with
  | part xs none_ =>
    rw [List.splitOn_append_cons_self_of_not_mem none_, List.splitOn_eq_singleton none_,
      List.singleton_append]
  | lines line xs none_ ih =>
    rw [List.append_assoc, List.cons_append, List.splitOn_append_cons_self_of_not_mem none_, ih,
      List.splitOn_append_cons_self_of_not_mem none_, List.cons_append]

theorem complete_append (terminator : α) (xs ys : List α) :
    complete terminator (xs ++ ys) =
      complete terminator xs ++ complete terminator (remainder terminator xs ++ ys) := by
  induction xs using induction terminator with
  | part xs none_ => rw [complete_of_not_mem none_, remainder_of_not_mem none_, List.nil_append]
  | lines line xs none_ ih =>
    rw [List.append_assoc, List.cons_append, complete_line none_, complete_line none_,
      remainder_line none_, ih, List.cons_append]

theorem remainder_append (terminator : α) (xs ys : List α) :
    remainder terminator (xs ++ ys) = remainder terminator (remainder terminator xs ++ ys) := by
  induction xs using induction terminator with
  | part xs none_ => rw [remainder_of_not_mem none_]
  | lines line xs none_ ih =>
    rw [List.append_assoc, List.cons_append, remainder_line none_, remainder_line none_, ih]

theorem complete_append_of_not_mem (none_ : terminator ∉ ys) :
    complete terminator (xs ++ ys) = complete terminator xs := by
  have left : terminator ∉ remainder terminator xs ++ ys := by
    rw [List.mem_append, not_or]
    exact ⟨remainder_not_mem terminator xs, none_⟩
  rw [complete_append, complete_of_not_mem left, List.append_nil]

structure ByLine (terminator : α) (mark : β) (decode : List α → List β) : Prop where
  lines : ∀ line rest, terminator ∉ line →
    decode (line ++ terminator :: rest) = decode line ++ mark :: decode rest
  open_ : ∀ line, terminator ∉ line → mark ∉ decode line

theorem ByLine.complete {mark : β} {decode : List α → List β} (by_line : ByLine terminator mark decode)
    (xs : List α) : Lines.complete mark (decode xs) = (Lines.complete terminator xs).map decode := by
  induction xs using induction terminator with
  | part xs none_ =>
    rw [complete_of_not_mem (by_line.open_ xs none_), complete_of_not_mem none_, List.map_nil]
  | lines line xs none_ ih =>
    rw [by_line.lines line xs none_, complete_line (by_line.open_ line none_),
      complete_line none_, ih, List.map_cons]

omit [DecidableEq α] in
theorem intercalate_append {front back : List (List α)} (some_ : front ≠ []) (more : back ≠ []) :
    [terminator].intercalate (front ++ back) =
      [terminator].intercalate front ++ terminator :: [terminator].intercalate back := by
  induction front with
  | nil => exact absurd rfl some_
  | cons line front ih =>
    cases front with
    | nil =>
      rw [List.singleton_append, List.intercalate_cons_of_ne_nil more, List.intercalate_singleton,
        List.append_assoc, List.singleton_append]
    | cons next front =>
      rw [List.cons_append, List.cons_append, List.intercalate_cons_cons, ← List.cons_append,
        ih (List.cons_ne_nil _ _), List.intercalate_cons_cons, List.append_assoc, List.append_assoc,
        List.append_assoc]

/-- The last parts of a text are those of what is left behind a separator. -/
theorem splitOn_suffix_iff :
    xs.splitOn terminator <:+ ys.splitOn terminator ↔ xs = ys ∨ terminator :: xs <:+ ys := by
  constructor
  · rintro ⟨front, cut⟩
    have whole : [terminator].intercalate (ys.splitOn terminator) = ys :=
      List.intercalate_splitOn terminator
    by_cases none_ : front = []
    · left
      rwa [← cut, none_, List.nil_append, List.intercalate_splitOn] at whole
    · right
      rw [← cut, intercalate_append none_ (List.splitOn_ne_nil terminator xs),
        List.intercalate_splitOn] at whole
      exact ⟨_, whole⟩
  · rintro (rfl | ⟨front, rfl⟩)
    · exact List.suffix_refl _
    · rw [List.splitOn_append_cons_self]
      exact List.suffix_append _ _

def drain (terminator : α) : Nat → List α → List (List α) × List α
  | 0, buffer => ([], buffer)
  | fuel + 1, buffer =>
    match buffer.idxOf? terminator with
    | none => ([], buffer)
    | some idx =>
      let (lines, rest) := drain terminator fuel (buffer.drop (idx + 1))
      (buffer.take idx :: lines, rest)

theorem idxOf?_line (none_ : terminator ∉ line) :
    (line ++ terminator :: xs).idxOf? terminator = some line.length := by
  rw [List.idxOf?_eq_some_iff]
  refine ⟨by simp, by simp, fun j before same => none_ ?_⟩
  rw [List.getElem_append_left before] at same
  exact List.mem_of_getElem same

theorem line_inj {other : List α} (none_ : terminator ∉ line) (also : terminator ∉ other)
    (same : line ++ terminator :: xs = other ++ terminator :: ys) : line = other ∧ xs = ys := by
  have position : (line ++ terminator :: xs).idxOf? terminator = some line.length :=
    idxOf?_line none_
  rw [same, idxOf?_line also] at position
  obtain ⟨front, behind⟩ := List.append_inj same (Option.some.inj position).symm
  cases behind
  exact ⟨front, rfl⟩

theorem drain_eq (terminator : α) {fuel : Nat} {buffer : List α} (enough : buffer.length ≤ fuel) :
    drain terminator fuel buffer = (complete terminator buffer, remainder terminator buffer) := by
  induction buffer using induction terminator generalizing fuel with
  | part buffer none_ =>
    rw [complete_of_not_mem none_, remainder_of_not_mem none_]
    cases fuel with
    | zero => rfl
    | succ fuel => rw [drain, List.idxOf?_eq_none_iff.mpr none_]
  | lines line buffer none_ ih =>
    rw [List.length_append, List.length_cons] at enough
    cases fuel with
    | zero => exact absurd enough (by omega)
    | succ fuel =>
      have after : (line ++ terminator :: buffer).drop (line.length + 1) = buffer := by
        rw [List.append_cons, List.drop_left' (by simp)]
      rw [drain, idxOf?_line none_]
      dsimp only
      rw [after, ih (by omega), List.take_left, complete_line none_, remainder_line none_]

end CodeGraph.Lines
