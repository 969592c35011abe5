import CodeGraph.Foundation.Text

/-! Positions in a text, counted in UTF-8 bytes and in UTF-16 units. -/
namespace CodeGraph.CharOffsets

open Text

variable {c : Char} {cs left right : List Char}

/-! ### Bytes -/

def byteLength (cs : List Char) : Nat := (cs.map Char.utf8Size).sum

@[simp] theorem byteLength_nil : byteLength [] = 0 := rfl

@[simp] theorem byteLength_cons : byteLength (c :: cs) = c.utf8Size + byteLength cs := rfl

@[simp] theorem byteLength_append : byteLength (left ++ right) = byteLength left + byteLength right := by
  rw [byteLength, List.map_append, List.sum_append, byteLength, byteLength]

theorem length_encode (cs : List Char) :
    (cs.flatMap String.utf8EncodeChar).length = byteLength cs := by
  induction cs with
  | nil => rfl
  | cons c cs ih => rw [List.flatMap_cons, List.length_append, String.length_utf8EncodeChar, ih, byteLength_cons]

theorem length_utf8 (s : String) : (utf8 s).length = byteLength s.toList := length_encode s.toList

theorem byteLength_eq_zero : byteLength cs = 0 ↔ cs = [] := by
  cases cs with
  | nil => simp
  | cons c cs =>
    have positive := c.utf8Size_pos
    simp only [byteLength_cons, reduceCtorEq, iff_false]
    omega

/-- A byte below 0x80 is a whole character. -/
theorem byte_of_ascii {b : UInt8} (listed : b ∈ String.utf8EncodeChar c) (small : b < 0x80) :
    c.utf8Size = 1 ∧ b = UInt8.ofNat c.val.toNat := by
  have value : b.toNat < 128 := small
  have large : ∀ n, n < 0x100 → 0x80 ≤ n → b ≠ UInt8.ofNat n := by
    rintro n less le rfl
    rw [UInt8.toNat_ofNat', Nat.mod_eq_of_lt less] at value
    omega
  rw [String.utf8EncodeChar] at listed
  -- One case for each length; every byte of the longer ones has its high bit set.
  split at listed
  · next le =>
    exact ⟨Char.utf8Size_eq_one_iff.mpr le, List.mem_singleton.mp listed⟩
  · split at listed
    · simp only [List.mem_cons, List.not_mem_nil, or_false] at listed
      rcases listed with first | second
      · exact absurd first (large _ (by omega) (by omega))
      · exact absurd second (large _ (by omega) (by omega))
    · split at listed
      · simp only [List.mem_cons, List.not_mem_nil, or_false] at listed
        rcases listed with first | second | third
        · exact absurd first (large _ (by omega) (by omega))
        · exact absurd second (large _ (by omega) (by omega))
        · exact absurd third (large _ (by omega) (by omega))
      · simp only [List.mem_cons, List.not_mem_nil, or_false] at listed
        rcases listed with first | second | third | fourth
        · exact absurd first (large _ (by omega) (by omega))
        · exact absurd second (large _ (by omega) (by omega))
        · exact absurd third (large _ (by omega) (by omega))
        · exact absurd fourth (large _ (by omega) (by omega))

/-- What is before and after an offset, if no character lies across it. -/
def splitAt : List Char → Nat → Option (List Char × List Char)
  | cs, 0 => some ([], cs)
  | [], _ + 1 => none
  | c :: cs, n + 1 =>
    if c.utf8Size ≤ n + 1 then
      (splitAt cs (n + 1 - c.utf8Size)).map fun parts => (c :: parts.1, parts.2)
    else none

theorem splitAt_eq {n : Nat} :
    splitAt cs n = some (left, right) ↔ cs = left ++ right ∧ byteLength left = n := by
  induction cs generalizing n left with
  | nil =>
    cases n with
    | zero =>
      simp only [splitAt, Option.some.injEq, Prod.mk.injEq, byteLength_eq_zero]
      constructor
      · rintro ⟨rfl, rfl⟩
        exact ⟨rfl, rfl⟩
      · rintro ⟨whole, rfl⟩
        exact ⟨rfl, whole⟩
    | succ n =>
      simp only [splitAt, reduceCtorEq, false_iff]
      rintro ⟨whole, length⟩
      rw [(List.append_eq_nil_iff.mp whole.symm).1] at length
      cases length
  | cons c cs ih =>
    have positive := c.utf8Size_pos
    cases n with
    | zero =>
      simp only [splitAt, Option.some.injEq, Prod.mk.injEq, byteLength_eq_zero]
      constructor
      · rintro ⟨rfl, rfl⟩
        exact ⟨rfl, rfl⟩
      · rintro ⟨whole, rfl⟩
        exact ⟨rfl, whole⟩
    | succ n =>
      rw [splitAt]
      constructor
      · intro split_
        split at split_
        · next le =>
          obtain ⟨⟨l, r⟩, parts, same⟩ := Option.map_eq_some_iff.mp split_
          cases same
          obtain ⟨whole, length⟩ := ih.mp parts
          refine ⟨by rw [whole, List.cons_append], ?_⟩
          rw [byteLength_cons, length]
          omega
        · cases split_
      · rintro ⟨whole, length⟩
        cases left with
        | nil => cases length
        | cons d left =>
          rw [List.cons_append, List.cons.injEq] at whole
          obtain ⟨rfl, whole⟩ := whole
          rw [byteLength_cons] at length
          have parts := ih.mpr ⟨whole, show byteLength left = n + 1 - c.utf8Size by omega⟩
          rw [if_pos (by omega), parts]
          rfl

/-- The text between two offsets, if both are at boundaries of characters. -/
def slice (src : String) (start stop : Nat) : Option String := do
  let (_, rest) ← splitAt src.toList start
  if start ≤ stop then
    let (part, _) ← splitAt rest (stop - start)
    return String.ofList part
  else none

theorem slice_eq {src text : String} {start stop : Nat} : slice src start stop = some text ↔
    ∃ before after, src.toList = before ++ text.toList ++ after ∧ byteLength before = start ∧
      start + byteLength text.toList = stop := by
  constructor
  · intro found
    simp only [slice, Option.bind_eq_bind, Option.bind_eq_some_iff, Option.ite_none_right_eq_some,
      Option.pure_def, Option.some.injEq] at found
    obtain ⟨⟨before, rest⟩, first, le, ⟨part, after⟩, second, rfl⟩ := found
    obtain ⟨whole, length⟩ := splitAt_eq.mp first
    have parts : rest = part ++ after ∧ byteLength part = stop - start := splitAt_eq.mp second
    refine ⟨before, after, ?_, length, ?_⟩
    · simp only [whole, parts.1, String.toList_ofList, List.append_assoc]
    · simp only [String.toList_ofList, parts.2]
      omega
  · rintro ⟨before, after, whole, length, stop_⟩
    have first : splitAt src.toList start = some (before, text.toList ++ after) :=
      splitAt_eq.mpr ⟨by rw [whole, List.append_assoc], length⟩
    have second : splitAt (text.toList ++ after) (stop - start) = some (text.toList, after) :=
      splitAt_eq.mpr ⟨rfl, by omega⟩
    simp only [slice, Option.bind_eq_bind, first, Option.bind_some, if_pos (show start ≤ stop by omega),
      second, Option.pure_def, String.ofList_toList]

/-! ### UTF-16 units -/

/-- How many UTF-16 units a character takes. -/
def lenUtf16 (c : Char) : Nat := if c.val < 0x10000 then 1 else 2

def units (cs : List Char) : Nat := (cs.map lenUtf16).sum

@[simp] theorem units_nil : units [] = 0 := rfl

@[simp] theorem units_cons : units (c :: cs) = lenUtf16 c + units cs := rfl

@[simp] theorem units_append : units (left ++ right) = units left + units right := by
  rw [units, List.map_append, List.sum_append, units, units]

theorem length_flatMap_charUnits (cs : List Char) : (cs.flatMap charUnits).length = units cs := by
  induction cs with
  | nil => rfl
  | cons c cs ih =>
    rw [List.flatMap_cons, List.length_append, ih, units_cons, charUnits, lenUtf16]
    split <;> rfl

theorem length_utf16 (s : String) : (utf16 s).length = units s.toList := length_flatMap_charUnits s.toList

theorem lenUtf16_le (c : Char) : lenUtf16 c ≤ c.utf8Size := by
  have positive := c.utf8Size_pos
  rw [lenUtf16]
  split
  · exact positive
  · next large =>
    have size : c.utf8Size ≠ 1 := fun single => by
      have small := Char.utf8Size_eq_one_iff.mp single
      have wide : ¬c.val.toNat < 0x10000 := large
      have narrow : c.val.toNat ≤ 127 := small
      omega
    omega

theorem units_le (cs : List Char) : units cs ≤ byteLength cs := by
  induction cs with
  | nil => exact Nat.le_refl 0
  | cons c cs ih => exact Nat.add_le_add (lenUtf16_le c) ih

theorem units_ascii (single : ∀ c ∈ cs, c.utf8Size = 1) : units cs = byteLength cs := by
  induction cs with
  | nil => rfl
  | cons c cs ih =>
    have size := single c List.mem_cons_self
    have le := lenUtf16_le c
    have some_ : 1 ≤ lenUtf16 c := by
      rw [lenUtf16]
      split <;> omega
    rw [units_cons, byteLength_cons, ih fun d member => single d (List.mem_cons_of_mem c member)]
    omega

theorem utf16_slice {src text : String} {before after : List Char}
    (whole : src.toList = before ++ text.toList ++ after) :
    ((utf16 src).take (units before + units text.toList)).drop (units before) = utf16 text := by
  have front : (before.flatMap charUnits ++ text.toList.flatMap charUnits).length =
      units before + units text.toList := by
    rw [List.length_append, length_flatMap_charUnits, length_flatMap_charUnits]
  rw [utf16, whole, List.flatMap_append, List.flatMap_append, ← front, List.take_left,
    ← length_flatMap_charUnits before, List.drop_left]
  rfl

end CodeGraph.CharOffsets
