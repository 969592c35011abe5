import CodeGraph.Extraction.PascalWords

/-!
# Pascal source is rewritten in place

Whatever ranges and words are applied, each edit goes on where the text before it ended.
-/
namespace CodeGraph.Extraction.PascalPreparse

open Scanning Text InPlace

variable {s out : JsString} {edits : List Word} {m n p : Nat}

inductive Unit_ (s : JsString) (edits : List Word) (out : JsString) (p : Nat) : Prop where
  | kept (same : out[p]? = s[p]?)
  | blanked (e : Word) (listed : e ∈ edits) (from_ : e.start ≤ p) (to_ : p < e.stop) (c : UInt16)
      (was : s[p]? = some c) (is : out[p]? = some (blankUnit c))
  | written (w : Word) (listed : w ∈ edits) (from_ : w.start ≤ p) (to_ : p < w.start + w.text.length)
      (room : w.start + w.text.length ≤ w.stop)
      (whole : ∀ q < w.text.length, out[w.start + q]? = w.text[q]?)

structure Upto (s : JsString) (edits : List Word) (out : JsString) (n : Nat) : Prop where
  length : out.length = min n s.length
  units : ∀ p < out.length, Unit_ s edits out p

theorem Unit_.append (unit : Unit_ s edits out p) (below : p < out.length) (rest : JsString) :
    Unit_ s edits (out ++ rest) p := by
  cases unit with
  | kept same => exact .kept (by rwa [List.getElem?_append_left below])
  | blanked e listed from_ to_ c was is =>
    exact .blanked e listed from_ to_ c was (by rwa [List.getElem?_append_left below])
  | written w listed from_ to_ room whole =>
    refine .written w listed from_ to_ room fun q inside => ?_
    have here := whole q inside
    rw [List.getElem?_eq_getElem inside] at here ⊢
    rw [List.getElem?_append_left (lt_length here), here]

theorem slice_length_min {a b : Nat} : (slice s a b).length = min b s.length - a := by
  rw [slice, List.length_drop, List.length_take]

theorem slice_getElem?_add {a b q : Nat} (inside : q < (slice s a b).length) :
    (slice s a b)[q]? = s[a + q]? := by
  rw [slice_length_min] at inside
  exact slice_getElem? (by omega)

theorem Upto.extend (upto : Upto s edits out n) (le : n ≤ m) {rest : JsString}
    (length : rest.length = min m s.length - n)
    (units : ∀ q < rest.length, n ≤ s.length → Unit_ s edits (out ++ rest) (n + q)) :
    Upto s edits (out ++ rest) m := by
  have before := upto.length
  refine ⟨by rw [List.length_append, length, before]; omega, fun p below => ?_⟩
  rw [List.length_append] at below
  by_cases early : p < out.length
  · exact (upto.units p early).append early rest
  · have place : p = n + (p - n) := by omega
    rw [place]
    exact units (p - n) (by omega) (by omega)

theorem Upto.getElem?_rest (upto : Upto s edits out n) (within : n ≤ s.length) (rest : JsString)
    (q : Nat) : (out ++ rest)[n + q]? = rest[q]? := by
  have length : out.length = n := by rw [upto.length, Nat.min_eq_left within]
  rw [List.getElem?_append_right (by omega), length, Nat.add_sub_cancel_left]

theorem Upto.copy (upto : Upto s edits out n) (le : n ≤ m) : Upto s edits (out ++ slice s n m) m := by
  apply upto.extend le slice_length_min
  intro q inside within
  apply Unit_.kept
  rw [upto.getElem?_rest within, slice_getElem?_add inside]

theorem Upto.blank (upto : Upto s edits out n) (le : n ≤ m) {e : Word} (listed : e ∈ edits)
    (from_ : e.start ≤ n) (to_ : m ≤ e.stop) :
    Upto s edits (out ++ (slice s n m).map blankUnit) m := by
  apply upto.extend le (by rw [List.length_map, slice_length_min])
  intro q inside within
  rw [List.length_map] at inside
  have below : n + q < s.length := by
    rw [slice_length_min] at inside
    omega
  have until_ : n + q < m := by
    rw [slice_length_min] at inside
    omega
  refine .blanked e listed (by omega) (by omega) s[n + q] (List.getElem?_eq_getElem below) ?_
  rw [upto.getElem?_rest within, List.getElem?_map, slice_getElem?_add inside,
    List.getElem?_eq_getElem below]
  rfl

theorem Upto.write (upto : Upto s edits out n) {w : Word} (listed : w ∈ edits) (start : w.start = n)
    (room : w.start + w.text.length ≤ w.stop) (inside : w.start + w.text.length ≤ s.length) :
    Upto s edits (out ++ w.text) (n + w.text.length) := by
  apply upto.extend (Nat.le_add_right _ _) (by omega)
  intro q below within
  refine .written w listed (by omega) (by omega) room fun q' _ => ?_
  rw [start, upto.getElem?_rest within]

theorem applyEdit_upto (upto : Upto s edits out n) {e : Word} (listed : e ∈ edits)
    (inside : e.text ≠ [] → e.stop ≤ s.length) :
    Upto s edits (applyEdit s (out, n) e).1 (applyEdit s (out, n) e).2 := by
  rw [applyEdit]
  dsimp only
  split
  · exact upto
  next ahead =>
    have copied := upto.copy (Nat.le_max_right e.start n)
    split
    next room =>
      by_cases empty : e.text = []
      · rw [empty, List.append_nil]
        exact copied.blank (by omega) listed (Nat.le_max_left _ _) (Nat.le_refl _)
      · have within := inside empty
        have written := copied.write listed room.1.symm (by omega) (by omega)
        exact written.blank (by omega) listed (by omega) (Nat.le_refl _)
    next =>
      rw [List.append_nil]
      exact copied.blank (by omega) listed (Nat.le_max_left _ _) (Nat.le_refl _)

theorem applyEdits_upto {ranges : List Range} {words : List Word}
    (inside : ∀ w ∈ words, w.stop ≤ s.length) :
    Upto s (words ++ ranges.map fun r => ⟨r.1, r.2, []⟩) (applyEdits s ranges words) s.length := by
  rw [applyEdits]
  split
  · exact ⟨(Nat.min_self _).symm, fun p _ => .kept rfl⟩
  · have all : ∀ w ∈ words ++ ranges.map fun r => ⟨r.1, r.2, []⟩, w.text ≠ [] → w.stop ≤ s.length := by
      intro w listed some_
      rcases List.mem_append.mp listed with word | range
      · exact inside w word
      · obtain ⟨r, -, rfl⟩ := List.mem_map.mp range
        exact absurd rfl some_
    generalize words ++ ranges.map (fun r => (⟨r.1, r.2, []⟩ : Word)) = edits at all
    dsimp only
    have written : ∀ sorted : List Word, (∀ w ∈ sorted, w ∈ edits) → ∀ out n, Upto s edits out n →
        Upto s edits (sorted.foldl (applyEdit s) (out, n)).1 (sorted.foldl (applyEdit s) (out, n)).2 := by
      intro sorted listed
      induction sorted with
      | nil => exact fun out n upto => upto
      | cons e sorted ih =>
        intro out n upto
        have here := listed e List.mem_cons_self
        exact ih (fun w later => listed w (List.mem_cons_of_mem _ later)) _ _
          (applyEdit_upto upto here (all e here))
    have folded := written (edits.mergeSort fun a b => a.start ≤ b.start)
      (fun w listed => List.mem_mergeSort.mp listed) [] 0
      ⟨by rw [Nat.zero_min]; rfl, fun p below => absurd below (Nat.not_lt_zero p)⟩
    generalize (edits.mergeSort fun a b => a.start ≤ b.start).foldl (applyEdit s) ([], 0) = done at folded
    obtain ⟨out, last⟩ := done
    dsimp only at folded ⊢
    by_cases beyond : s.length ≤ last
    · rw [List.drop_eq_nil_iff.mpr beyond, List.append_nil]
      exact ⟨by rw [folded.length]; omega, folded.units⟩
    · have rest : s.drop last = slice s last s.length := by rw [slice, List.take_length]
      rw [rest]
      exact folded.copy (by omega)

structure Rewrites (s out : JsString) : Prop where
  /-- The text has the same length, and its line breaks are where they were. -/
  lines : Keeps (fun c => isBreak c = true) s out
  /-- Each unit is as it was, or a space, or of a word that lies whole on a line of its construct. -/
  units : ∀ p < s.length, out[p]? = s[p]? ∨ out[p]? = some CH_SPACE ∨
    ∃ w ∈ (editsOf s).2, Over s w ∧ w.start ≤ p ∧ p < w.start + w.text.length ∧
      w.start + w.text.length ≤ w.stop ∧ Line s w.start w.text.length ∧
      ∀ q < w.text.length, out[w.start + q]? = w.text[q]?
  /-- What no range and no word covers is as it was. -/
  outside : ∀ p : Nat, (∀ r ∈ (editsOf s).1, ¬(r.1 ≤ p ∧ p < r.2)) →
    (∀ w ∈ (editsOf s).2, ¬(w.start ≤ p ∧ p < w.stop)) → out[p]? = s[p]?

theorem blankUnit_cases (c : UInt16) : blankUnit c = c ∨ isBreak c = false ∧ blankUnit c = CH_SPACE := by
  rw [blankUnit]
  cases isBreak c with
  | true => exact Or.inl rfl
  | false => exact Or.inr ⟨rfl, rfl⟩

theorem Rewrites.of_edits (upto : Upto s
    ((editsOf s).2 ++ (editsOf s).1.map fun r => ⟨r.1, r.2, []⟩) out s.length) : Rewrites s out := by
  have length : out.length = s.length := by rw [upto.length, Nat.min_self]
  have units : ∀ p < s.length, Unit_ s ((editsOf s).2 ++ (editsOf s).1.map fun r => ⟨r.1, r.2, []⟩) out p :=
    fun p below => upto.units p (by omega)
  -- a text is written only by a word
  have word : ∀ w ∈ (editsOf s).2 ++ (editsOf s).1.map fun r => ⟨r.1, r.2, []⟩, ∀ p,
      w.start ≤ p → p < w.start + w.text.length → w ∈ (editsOf s).2 := by
    intro w listed p from_ to_
    rcases List.mem_append.mp listed with word | range
    · exact word
    · obtain ⟨r, -, rfl⟩ := List.mem_map.mp range
      exact absurd to_ (Nat.not_lt.mpr from_)
  constructor
  · apply Keeps.of_units length
    intro p below
    cases units p below with
    | kept same => exact Or.inl same
    | blanked e _ _ _ c was is =>
      rcases blankUnit_cases c with same | ⟨plain, space⟩
      · exact Or.inl (by rw [is, was, same])
      · refine Or.inr ⟨c, blankUnit c, was, is, by simp [plain], ?_⟩
        rw [space]
        decide
    | written w listed from_ to_ room whole =>
      have fits := (words_over s w (word w listed p from_ to_)).fits
      have inside : p - w.start < w.text.length := by omega
      have place : w.start + (p - w.start) = p := by omega
      obtain ⟨c, was, plain⟩ := fits.line room (p - w.start) inside
      have is := whole (p - w.start) inside
      rw [place] at was is
      rw [List.getElem?_eq_getElem inside] at is
      have clean := fits.text _ (List.getElem_mem inside)
      exact Or.inr ⟨c, _, was, is, by simp [plain], by simp [clean]⟩
  · intro p below
    cases units p below with
    | kept same => exact Or.inl same
    | blanked e _ _ _ c was is =>
      rcases blankUnit_cases c with same | ⟨-, space⟩
      · exact Or.inl (by rw [is, was, same])
      · exact Or.inr (Or.inl (by rw [is, space]))
    | written w listed from_ to_ room whole =>
      have beyond := words_over s w (word w listed p from_ to_)
      exact Or.inr (Or.inr ⟨w, word w listed p from_ to_, beyond, from_, to_, room, beyond.fits.line room, whole⟩)
  · intro p ranges words
    by_cases below : p < s.length
    · cases units p below with
      | kept same => exact same
      | blanked e listed from_ to_ c was is =>
        rcases List.mem_append.mp listed with word | range
        · exact absurd ⟨from_, to_⟩ (words e word)
        · obtain ⟨r, member, rfl⟩ := List.mem_map.mp range
          exact absurd ⟨from_, to_⟩ (ranges r member)
      | written w listed from_ to_ room whole =>
        exact absurd ⟨from_, by omega⟩ (words w (word w listed p from_ to_))
    · rw [List.getElem?_eq_none (by omega), List.getElem?_eq_none (by omega)]

theorem preParsePascal_rewrites (s : JsString) : Rewrites s (preParsePascal s) := by
  have unchanged : Rewrites s s := ⟨Keeps.refl s, fun p _ => Or.inl rfl, fun p _ _ => rfl⟩
  rw [preParsePascal]
  split
  · exact unchanged
  · exact Rewrites.of_edits (applyEdits_upto fun w listed => (words_over s w listed).fits.inside)

end CodeGraph.Extraction.PascalPreparse
