import CodeGraph.Foundation.EditScripts
import CodeGraph.Foundation.Text

/-!
# The bounded edit distance of the fuzzy search

`boundedEditDistance` of `search/query-parser.ts`: two rows of a dynamic program, given up as soon
as a whole row is past the bound.
-/
namespace CodeGraph.Search

open Text EditScripts

structure RowState where
  cur : List Nat
  rowMin : Nat

def rowStart (cur : List Nat) (i : Nat) : RowState := ⟨cur.set 0 i, i⟩

def fillCell (a b : JsString) (prev : List Nat) (i : Nat) (s : RowState) (j : Nat) : RowState :=
  let cost := if a.getD (i - 1) 0 = b.getD (j - 1) 0 then 0 else 1
  let insertion := s.cur.getD (j - 1) 0 + 1
  let deletion := prev.getD j 0 + 1
  let substitution := prev.getD (j - 1) 0 + cost
  let value := min insertion (min deletion substitution)
  ⟨s.cur.set j value, if value < s.rowMin then value else s.rowMin⟩

def fillRow (a b : JsString) (prev cur : List Nat) (i : Nat) : RowState :=
  (List.range' 1 b.length).foldl (fillCell a b prev i) (rowStart cur i)

/-- The rows from `i` on, `n` of them; each turn swaps the two arrays. -/
def rowsFrom (a b : JsString) (maxDist : ℚ) : Nat → Nat → List Nat → List Nat → ℚ
  | 0, _, prev, _ => prev.getD b.length 0
  | n + 1, i, prev, cur =>
    let filled := fillRow a b prev cur i
    if (filled.rowMin : ℚ) > maxDist then maxDist + 1
    else rowsFrom a b maxDist n (i + 1) filled.cur prev

def boundedEditDistance (a b : JsString) (maxDist : ℚ) : ℚ :=
  if a = b then 0
  else if |(a.length : ℚ) - b.length| > maxDist then maxDist + 1
  else if a.length = 0 then b.length
  else if b.length = 0 then a.length
  else
    -- the cells of the second array are written before they are read
    rowsFrom a b maxDist a.length 1 (List.range (b.length + 1)) (List.replicate (b.length + 1) 0)

/-! ### The rows -/

/-- The distance of the first `i` units from the first `j`. -/
noncomputable def cell (a b : JsString) (i j : Nat) : Nat := levenshtein (a.take i) (b.take j)

variable {a b : JsString} {prev cur : List Nat} {i j : Nat}

structure RowOf (a b : JsString) (i : Nat) (row : List Nat) : Prop where
  length : row.length = b.length + 1
  cells : ∀ j ≤ b.length, row.getD j 0 = cell a b i j

structure FilledTo (a b : JsString) (i j : Nat) (s : RowState) : Prop where
  length : s.cur.length = b.length + 1
  cells : ∀ k ≤ j, s.cur.getD k 0 = cell a b i k
  least : ∀ k ≤ j, s.rowMin ≤ cell a b i k

theorem cell_zero_left (a b : JsString) (within : j ≤ b.length) : cell a b 0 j = j := by
  rw [cell, List.take_zero, levenshtein_nil_left, List.length_take]
  omega

theorem cell_zero_right (a b : JsString) (within : i ≤ a.length) : cell a b i 0 = i := by
  rw [cell, List.take_zero, levenshtein_nil_right, List.length_take]
  omega

private theorem take_succ_getD {s : JsString} (within : i < s.length) :
    s.take (i + 1) = s.take i ++ [s.getD i 0] := by
  rw [List.take_add_one, List.getD_eq_getElem?_getD, List.getElem?_eq_getElem within]
  rfl

theorem cell_succ (within_i : i < a.length) (within_j : j < b.length) :
    cell a b (i + 1) (j + 1) =
      min (cell a b (i + 1) j + 1)
        (min (cell a b i (j + 1) + 1)
          (cell a b i j + if a.getD i 0 = b.getD j 0 then 0 else 1)) := by
  simp only [cell, take_succ_getD within_i, take_succ_getD within_j]
  exact levenshtein_concat _ _ _ _

private theorem getD_set {l : List Nat} {v k : Nat} (within : j < l.length) :
    (l.set j v).getD k 0 = if k = j then v else l.getD k 0 := by
  simp only [List.getD_eq_getElem?_getD, List.getElem?_set]
  split
  · next same => simp [same]
  · next other => rw [if_neg fun same => other same.symm]

private theorem rowStart_filled (cur_length : cur.length = b.length + 1) (within : i ≤ a.length) :
    FilledTo a b i 0 (rowStart cur i) where
  length := by rw [rowStart, List.length_set, cur_length]
  cells k upto := by
    obtain rfl := Nat.le_zero.mp upto
    rw [rowStart, getD_set (by omega), if_pos rfl, cell_zero_right a b within]
  least k upto := by
    obtain rfl := Nat.le_zero.mp upto
    exact Nat.le_of_eq (cell_zero_right a b within).symm

private theorem fillCell_filled {s : RowState} (before : RowOf a b i prev)
    (within_i : i < a.length) (within_j : j < b.length) (filled : FilledTo a b (i + 1) j s) :
    FilledTo a b (i + 1) (j + 1) (fillCell a b prev (i + 1) s (j + 1)) := by
  obtain ⟨length, cells, least⟩ := filled
  have value : min (s.cur.getD j 0 + 1) (min (prev.getD (j + 1) 0 + 1)
      (prev.getD j 0 + if a.getD i 0 = b.getD j 0 then 0 else 1)) = cell a b (i + 1) (j + 1) := by
    rw [cells j (Nat.le_refl j), before.cells (j + 1) within_j, before.cells j (by omega),
      cell_succ within_i within_j]
  have step : fillCell a b prev (i + 1) s (j + 1) =
      ⟨s.cur.set (j + 1) (cell a b (i + 1) (j + 1)),
        if cell a b (i + 1) (j + 1) < s.rowMin then cell a b (i + 1) (j + 1) else s.rowMin⟩ := by
    rw [← value]
    rfl
  rw [step]
  refine ⟨by rw [List.length_set, length], fun k upto => ?_, fun k upto => ?_⟩
  · rw [getD_set (by omega)]
    split
    · next here => rw [here]
    · exact cells k (by omega)
  · rcases Nat.lt_or_eq_of_le upto with earlier | rfl
    · have bound := least k (by omega)
      dsimp only
      split <;> omega
    · dsimp only
      split <;> omega

private theorem fillRow_filled (before : RowOf a b i prev) (cur_length : cur.length = b.length + 1)
    (within : i < a.length) : FilledTo a b (i + 1) b.length (fillRow a b prev cur (i + 1)) := by
  suffices filled : ∀ j ≤ b.length, FilledTo a b (i + 1) j
      ((List.range' 1 j).foldl (fillCell a b prev (i + 1)) (rowStart cur (i + 1))) from
    filled b.length (Nat.le_refl _)
  intro j
  induction j with
  | zero => exact fun _ => rowStart_filled cur_length within
  | succ j ih =>
    intro within_j
    rw [List.range'_1_concat, List.foldl_append, Nat.add_comm 1 j]
    exact fillCell_filled before within within_j (ih (by omega))

variable {maxDist : ℚ}

def Decides (maxDist : ℚ) (distance : Nat) (result : ℚ) : Prop :=
  ((distance : ℚ) ≤ maxDist → result = distance) ∧ (maxDist < distance → maxDist < result)

private theorem decides_past {distance : Nat} (past : maxDist < distance) :
    Decides maxDist distance (maxDist + 1) :=
  ⟨fun within => absurd within (not_le.mpr past), fun _ => by linarith⟩

private theorem decides_exact (distance : Nat) : Decides maxDist distance distance :=
  ⟨fun _ => rfl, id⟩

private theorem rowsFrom_decides {n : Nat} (before : RowOf a b i prev)
    (cur_length : cur.length = b.length + 1) (rows : i + n = a.length) :
    Decides maxDist (levenshtein a b) (rowsFrom a b maxDist n (i + 1) prev cur) := by
  induction n generalizing i prev cur with
  | zero =>
    have whole : prev.getD b.length 0 = levenshtein a b := by
      rw [before.cells b.length (Nat.le_refl _), cell, List.take_length,
        List.take_of_length_le (by omega)]
    rw [rowsFrom, whole]
    exact decides_exact _
  | succ n ih =>
    have filled := fillRow_filled before cur_length (by omega : i < a.length)
    rw [rowsFrom]
    split
    · next past =>
      -- every cell of the row is past the bound, and the distance is no less than one of them
      obtain ⟨j, within, bound⟩ := levenshtein_take a b (i + 1)
      have least := filled.least j within
      have below : (fillRow a b prev cur (i + 1)).rowMin ≤ levenshtein a b := least.trans bound
      exact decides_past (lt_of_lt_of_le past (Nat.cast_le.mpr below))
    · exact ih ⟨filled.length, filled.cells⟩ before.length (by omega)

/-- The bounded distance is the Levenshtein distance as far as the bound, and past it else. -/
theorem boundedEditDistance_decides (a b : JsString) (maxDist : ℚ) :
    ((levenshtein a b : ℚ) ≤ maxDist → boundedEditDistance a b maxDist = levenshtein a b) ∧
      (maxDist < levenshtein a b → maxDist < boundedEditDistance a b maxDist) := by
  change Decides maxDist (levenshtein a b) (boundedEditDistance a b maxDist)
  unfold boundedEditDistance
  split
  · next same =>
    rw [same, levenshtein_self]
    exact decides_exact 0
  split
  · next far =>
    obtain ⟨left, right⟩ := (levenshtein_edits a b).length
    have long : |(a.length : ℚ) - b.length| ≤ levenshtein a b := by
      have left_cast : (a.length : ℚ) ≤ b.length + levenshtein a b := by exact_mod_cast left
      have right_cast : (b.length : ℚ) ≤ a.length + levenshtein a b := by exact_mod_cast right
      rw [abs_le]
      constructor <;> linarith
    exact decides_past (lt_of_lt_of_le far long)
  split
  · next empty =>
    rw [List.eq_nil_of_length_eq_zero empty, levenshtein_nil_left]
    exact decides_exact _
  split
  · next empty =>
    rw [List.eq_nil_of_length_eq_zero empty, levenshtein_nil_right]
    exact decides_exact _
  · refine rowsFrom_decides (i := 0) ⟨by simp, fun j within => ?_⟩ (by simp) (Nat.zero_add _)
    rw [cell_zero_left a b within, List.getD_eq_getElem?_getD, List.getElem?_range (by omega)]
    rfl

end CodeGraph.Search
