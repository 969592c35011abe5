import CodeGraph.Resolution.AwaitedPositions

/-!
# Offsets in UTF-16 units

`js_unit_to_byte` skips whole blocks of bytes and walks the characters only behind them.
-/
namespace CodeGraph.Resolution.UnitOffsets

open Awaited CharOffsets Text

def BLOCK : Nat := 64

def skipBlocks (bytes : List UInt8) (units : Nat) : Nat → Nat → Nat → Nat × Nat
  | 0, pos, seen => (pos, seen)
  | fuel + 1, pos, seen =>
    if pos + BLOCK ≤ bytes.length then
      let block := (bytes.drop pos).take BLOCK
      let leads : UInt8 := (block.map fun b => if -0x40 ≤ b.toInt8 then 1 else 0).sum
      let wide : UInt8 := (block.map fun b => if 0xF0 ≤ b then 1 else 0).sum
      let block_units := leads.toNat + wide.toNat
      if units ≤ seen + block_units then (pos, seen)
      else skipBlocks bytes units fuel (pos + BLOCK) (seen + block_units)
    else (pos, seen)

def js_unit_to_byte (s : String) (units : Nat) : Option Nat :=
  let bytes := utf8 s
  let reach := min units bytes.length
  if (bytes.take reach).all (· < 0x80) then some reach
  else
    let (skipped, seen) := skipBlocks bytes units bytes.length 0 0
    let pos := skipped + ((bytes.drop skipped).takeWhile continues).length
    (splitAt s.toList pos).map fun parts => pos + advanceFrom units seen parts.2

def utf16_len_exceeds (s : String) (limit : Nat) : Bool :=
  let len := (utf8 s).length
  limit < len && (3 * limit < len || limit < utf16_len s)

variable {cs : List Char} {bytes : List UInt8} {n p pos seen fuel : Nat}

theorem byte_units (b : UInt8) : (if -0x40 ≤ b.toInt8 then (1 : UInt8) else 0).toNat ≤ 1 ∧
    (if 0xF0 ≤ b then (1 : UInt8) else 0).toNat ≤ 1 ∧
    (if -0x40 ≤ b.toInt8 then (1 : UInt8) else 0).toNat + (if 0xF0 ≤ b then (1 : UInt8) else 0).toNat =
      unitsOfByte b := by
  revert b
  exact AsciiBytes.forall_byte (by decide +kernel)

/-- The sums of a block do not overflow. -/
theorem block_units (short : bytes.length < 256) :
    ((bytes.map fun b => if -0x40 ≤ b.toInt8 then (1 : UInt8) else 0).sum).toNat ≤ bytes.length ∧
    ((bytes.map fun b => if 0xF0 ≤ b then (1 : UInt8) else 0).sum).toNat ≤ bytes.length ∧
    ((bytes.map fun b => if -0x40 ≤ b.toInt8 then (1 : UInt8) else 0).sum).toNat +
      ((bytes.map fun b => if 0xF0 ≤ b then (1 : UInt8) else 0).sum).toNat =
        (bytes.map unitsOfByte).sum := by
  induction bytes with
  | nil => exact ⟨Nat.le_refl 0, Nat.le_refl 0, rfl⟩
  | cons b bytes ih =>
    rw [List.length_cons] at short
    obtain ⟨leads, wide, both⟩ := ih (by omega)
    obtain ⟨lead, four, one⟩ := byte_units b
    simp only [List.map_cons, List.sum_cons, List.length_cons, UInt8.toNat_add]
    omega

theorem skipBlocks_spec (some_ : seen < n) (inside : pos ≤ bytes.length)
    (sum : ((bytes.take pos).map unitsOfByte).sum = seen) :
    (skipBlocks bytes n fuel pos seen).2 < n ∧ (skipBlocks bytes n fuel pos seen).1 ≤ bytes.length ∧
      ((bytes.take (skipBlocks bytes n fuel pos seen).1).map unitsOfByte).sum =
        (skipBlocks bytes n fuel pos seen).2 := by
  induction fuel generalizing pos seen with
  | zero => exact ⟨some_, inside, sum⟩
  | succ fuel ih =>
    have short : ((bytes.drop pos).take BLOCK).length < 256 :=
      Nat.lt_of_le_of_lt (List.length_take_le _ _) (by decide)
    simp only [skipBlocks, (block_units short).2.2]
    split
    · next fits =>
      split
      · exact ⟨some_, inside, sum⟩
      · refine ih (by omega) fits ?_
        rw [List.take_add, List.map_append, List.sum_append, sum]
    · exact ⟨some_, inside, sum⟩

theorem takeWhile_encode (cs : List Char) : (Utf8.encode cs).takeWhile continues = [] := by
  cases cs with
  | nil => rfl
  | cons c cs =>
    obtain ⟨b, tail, code, lead, -⟩ := encodeChar_units c
    rw [Utf8.encode_cons, code, List.cons_append, List.takeWhile_cons_of_neg (by rw [lead]; decide)]

theorem next_boundary (inside : p ≤ byteLength cs) : ∃ front back, cs = front ++ back ∧
    byteLength front = p + (((Utf8.encode cs).drop p).takeWhile continues).length ∧
      (((Utf8.encode cs).take p).map unitsOfByte).sum = units front := by
  induction cs generalizing p with
  | nil =>
    obtain rfl : p = 0 := Nat.le_zero.mp inside
    exact ⟨[], [], rfl, rfl, rfl⟩
  | cons c cs ih =>
    cases p with
    | zero => exact ⟨[], c :: cs, rfl, by rw [List.drop_zero, takeWhile_encode]; rfl, rfl⟩
    | succ p =>
      obtain ⟨b, tail, code, lead, first, rest⟩ := encodeChar_units c
      have size : c.utf8Size = tail.length + 1 := by
        rw [← String.length_utf8EncodeChar, code, List.length_cons]
      rw [byteLength_cons] at inside
      rw [Utf8.encode_cons, code, List.cons_append, List.drop_succ_cons, List.take_succ_cons, List.map_cons,
        List.sum_cons, first, List.drop_append, List.take_append, List.map_append, List.sum_append,
        sum_continues fun t listed => rest t (List.mem_of_mem_take listed), Nat.zero_add]
      rcases Nat.lt_or_ge p tail.length with within_ | past
      · -- the offset is within the first character
        have all : ∀ t ∈ tail.drop p, continues t = true := fun t listed =>
          rest t (List.mem_of_mem_drop listed)
        refine ⟨[c], cs, rfl, ?_, ?_⟩
        · rw [List.takeWhile_append_of_pos all, Nat.sub_eq_zero_of_le (Nat.le_of_lt within_),
            List.drop_zero,
            takeWhile_encode, List.append_nil, List.length_drop, byteLength_cons, byteLength_nil]
          omega
        · rw [Nat.sub_eq_zero_of_le (Nat.le_of_lt within_), List.take_zero]
          rfl
      · obtain ⟨front, back, rfl, length, sum⟩ := ih (show p - tail.length ≤ byteLength cs by omega)
        refine ⟨c :: front, back, rfl, ?_, ?_⟩
        · rw [List.drop_eq_nil_of_le past, List.nil_append, byteLength_cons, length]
          omega
        · rw [sum, units_cons]

theorem ascii_front (inside : p ≤ byteLength cs)
    (ascii : ((Utf8.encode cs).take p).all (· < 0x80) = true) :
    ∃ front back, cs = front ++ back ∧ byteLength front = p ∧ units front = p := by
  induction cs generalizing p with
  | nil =>
    obtain rfl : p = 0 := Nat.le_zero.mp inside
    exact ⟨[], [], rfl, rfl, rfl⟩
  | cons c cs ih =>
    cases p with
    | zero => exact ⟨[], c :: cs, rfl, rfl, rfl⟩
    | succ p =>
      obtain ⟨b, tail, code, -⟩ := encodeChar_units c
      rw [Utf8.encode_cons, code, List.cons_append, List.take_succ_cons, List.all_cons, Bool.and_eq_true,
        decide_eq_true_eq] at ascii
      have size := (byte_of_ascii (code ▸ List.mem_cons_self) ascii.1).1
      have none_ : tail = [] := by
        have length := String.length_utf8EncodeChar c
        rw [code, List.length_cons, size] at length
        exact List.eq_nil_of_length_eq_zero (by omega)
      rw [none_, List.nil_append] at ascii
      rw [byteLength_cons, size] at inside
      obtain ⟨front, back, rfl, length, sum⟩ := ih (by omega) ascii.2
      have one : lenUtf16 c = 1 := Nat.le_antisymm (size ▸ lenUtf16_le c) (lenUtf16_pos c)
      exact ⟨c :: front, back, rfl, by rw [byteLength_cons, size, length, Nat.add_comm],
        by rw [units_cons, one, sum, Nat.add_comm]⟩

theorem advanceFrom_first (cs : List Char) : ∃ before after, cs = before ++ after ∧
    advanceFrom n seen cs = byteLength before ∧ (after ≠ [] → n ≤ seen + units before) ∧
      ∀ front c, front ++ [c] <+: before → seen + units front < n := by
  induction cs generalizing seen with
  | nil => exact ⟨[], [], rfl, rfl, fun some_ => absurd rfl some_, fun front c shorter => by
      have none_ := List.prefix_nil.mp shorter
      simp at none_⟩
  | cons c cs ih =>
    rw [advanceFrom]
    split
    · next enough =>
      exact ⟨[], c :: cs, rfl, rfl, fun _ => enough, fun front c shorter => by
        have none_ := List.prefix_nil.mp shorter
        simp at none_⟩
    · next few =>
      obtain ⟨before, after, rfl, length, stop, less⟩ := @ih (seen + lenUtf16 c)
      refine ⟨c :: before, after, rfl, by rw [length, byteLength_cons], fun some_ => ?_, ?_⟩
      · rw [units_cons, ← Nat.add_assoc]
        exact stop some_
      · intro front d shorter
        cases front with
        | nil => exact Nat.lt_of_not_le few
        | cons e front =>
          obtain ⟨rfl, inner⟩ := List.cons_prefix_cons.mp shorter
          rw [units_cons, ← Nat.add_assoc]
          exact less front d inner

theorem js_unit_to_byte_walk (s : String) (n : Nat) :
    js_unit_to_byte s n = some (advanceFrom n 0 s.toList) := by
  simp only [js_unit_to_byte]
  split
  · next ascii =>
    have inside : min n (utf8 s).length ≤ byteLength s.toList := length_utf8 s ▸ Nat.min_le_right _ _
    obtain ⟨front, back, parts, length, sum⟩ := ascii_front inside ascii
    have le : 0 + units front ≤ n := by
      rw [Nat.zero_add, sum]
      exact Nat.min_le_left _ _
    rw [parts, advanceFrom_front le, Nat.zero_add, sum, length]
    rcases Nat.le_total n (utf8 s).length with fits | long
    · rw [Nat.min_eq_left fits, advanceFrom_stop, Nat.add_zero]
    · rw [Nat.min_eq_right long] at length ⊢
      rw [length_utf8, parts, byteLength_append] at length
      rw [byteLength_eq_zero.mp (show byteLength back = 0 by omega)]
      rfl
  · next wide =>
    have some_ : 0 < n := by
      refine Nat.pos_of_ne_zero fun none_ => wide ?_
      rw [none_, Nat.zero_min]
      rfl
    have skipped := @skipBlocks_spec (utf8 s) n 0 0 (utf8 s).length some_ (Nat.zero_le _) rfl
    generalize skipBlocks (utf8 s) n (utf8 s).length 0 0 = behind at skipped ⊢
    obtain ⟨less, inside, sum⟩ := skipped
    obtain ⟨front, back, parts, length, seen⟩ := next_boundary (length_utf8 s ▸ inside)
    replace seen := seen.symm.trans sum
    have walk := advanceFrom_front (show 0 + units front ≤ n by omega) back
    rw [Nat.zero_add, ← parts, seen, length] at walk
    have split_ := splitAt_eq.mpr ⟨parts, length⟩
    rw [walk]
    exact congrArg (Option.map _) split_

theorem byteLength_le_units (cs : List Char) : byteLength cs ≤ 3 * units cs := by
  induction cs with
  | nil => exact Nat.le_refl 0
  | cons c cs ih =>
    have one : c.utf8Size ≤ 3 * lenUtf16 c := by
      have most := c.utf8Size_le_four
      rw [lenUtf16]
      split
      · next narrow =>
        have four : c.utf8Size ≠ 4 := fun wide => by
          have large : 0xFFFF < c.val.toNat := Char.utf8Size_eq_four_iff.mp wide
          have small : c.val.toNat < 0x10000 := narrow
          omega
        omega
      · omega
    rw [byteLength_cons, units_cons]
    omega

/-- What `js_unit_to_byte` and `utf16_len_exceeds` say of a text. -/
structure UnitsExact (s : String) : Prop where
  walk : ∀ n, js_unit_to_byte s n = some (advanceFrom n 0 s.toList)
  first : ∀ n, ∃ before after, s.toList = before ++ after ∧ js_unit_to_byte s n = some (byteLength before) ∧
    (after ≠ [] → n ≤ units before) ∧ ∀ front c, front ++ [c] <+: before → units front < n
  exceeds : ∀ limit, utf16_len_exceeds s limit = true ↔ limit < utf16_len s

theorem unit_offsets_exact (s : String) : UnitsExact s where
  walk := js_unit_to_byte_walk s
  first n := by
    obtain ⟨before, after, parts, length, stop, less⟩ := @advanceFrom_first n 0 s.toList
    simp only [Nat.zero_add] at stop less
    exact ⟨before, after, parts, by rw [js_unit_to_byte_walk, length], stop, less⟩
  exceeds limit := by
    have fewer := units_le s.toList
    have more := byteLength_le_units s.toList
    simp only [utf16_len_exceeds, utf16_len_eq, length_utf8, Bool.and_eq_true, Bool.or_eq_true,
      decide_eq_true_eq]
    omega

end CodeGraph.Resolution.UnitOffsets
