import CodeGraph.Foundation.CharOffsets

/-! Texts as UTF-8 bytes, and reading them back. -/
namespace CodeGraph.Utf8

open CharOffsets

def encode (cs : List Char) : List UInt8 := cs.flatMap String.utf8EncodeChar

/-- `String::from_utf8` -/
def decode (bytes : List UInt8) : Option (List Char) :=
  bytes.toByteArray.utf8Decode?.map Array.toList

@[simp] theorem encode_nil : encode [] = [] := rfl

@[simp] theorem encode_cons (c : Char) (cs : List Char) :
    encode (c :: cs) = String.utf8EncodeChar c ++ encode cs := by
  rw [encode, List.flatMap_cons, encode]

@[simp] theorem encode_append (cs ds : List Char) : encode (cs ++ ds) = encode cs ++ encode ds := by
  rw [encode, List.flatMap_append, encode, encode]

@[simp] theorem length_encode (cs : List Char) : (encode cs).length = byteLength cs :=
  CharOffsets.length_encode cs

end CodeGraph.Utf8

/-!
# Scanning bytes for ASCII

A scanner that looks at the bytes of a text, and only tells bytes below 0x80 apart, sees its
characters: an ASCII character is one byte, and the bytes of every other one are above.
-/
namespace CodeGraph.AsciiBytes

open Text CharOffsets

def asciiByte (c : Char) : UInt8 := UInt8.ofNat c.val.toNat

def IsAscii (c : Char) : Prop := c.val.toNat < 0x80

instance (c : Char) : Decidable (IsAscii c) := inferInstanceAs (Decidable (_ < _))

variable {c : Char} {cs : List Char} {p : UInt8 → Bool}

theorem isAscii_iff : IsAscii c ↔ c.utf8Size = 1 := by
  rw [Char.utf8Size_eq_one_iff, UInt32.le_iff_toNat_le]
  exact Nat.lt_succ_iff

theorem toNat_asciiByte (ascii : IsAscii c) : (asciiByte c).toNat = c.val.toNat := by
  rw [asciiByte, UInt8.toNat_ofNat', Nat.mod_eq_of_lt (Nat.lt_trans ascii (by decide))]

theorem asciiByte_inj {d : Char} (first : IsAscii c) (second : IsAscii d) :
    asciiByte c = asciiByte d ↔ c = d := by
  constructor
  · intro bytes
    apply Char.ext
    apply UInt32.toNat_inj.mp
    rw [← toNat_asciiByte first, ← toNat_asciiByte second, bytes]
  · rintro rfl
    rfl

theorem encode_ascii (ascii : IsAscii c) : String.utf8EncodeChar c = [asciiByte c] := by
  have size : (String.utf8EncodeChar c).length = 1 := by
    rw [String.length_utf8EncodeChar, isAscii_iff.mp ascii]
  obtain ⟨b, single⟩ := List.length_eq_one_iff.mp size
  have le := Char.utf8Size_eq_one_iff.mp (isAscii_iff.mp ascii)
  rw [String.utf8EncodeChar]
  split
  next => rfl
  next large => exact absurd le large

/-- The bytes of other characters are above 0x7F. -/
theorem encode_other (other : ¬IsAscii c) {b : UInt8} (listed : b ∈ String.utf8EncodeChar c) :
    0x80 ≤ b.toNat := by
  apply Nat.le_of_not_lt
  intro small
  exact other (isAscii_iff.mpr (byte_of_ascii listed (UInt8.lt_iff_toNat_lt.mpr small)).1)

theorem forall_byte {P : UInt8 → Prop} (all : ∀ n < 256, P (UInt8.ofNat n)) (b : UInt8) : P b := by
  have here := all b.toNat b.toNat_lt
  rwa [UInt8.ofNat_toNat] at here

theorem forall_ascii {P : Char → Prop} (all : ∀ n < 128, P (Char.ofNat n)) (ascii : IsAscii c) :
    P c := by
  have here := all c.toNat ascii
  rwa [Char.ofNat_toNat] at here

/-! ### Tests -/

def onChar (p : UInt8 → Bool) (c : Char) : Bool := decide (IsAscii c) && p (asciiByte c)

theorem onChar_ascii (ascii : IsAscii c) : onChar p c = p (asciiByte c) := by
  rw [onChar, decide_eq_true ascii, Bool.true_and]

theorem isAscii_of_onChar (holds : onChar p c = true) : IsAscii c := by
  rw [onChar, Bool.and_eq_true, decide_eq_true_eq] at holds
  exact holds.1

section Low

variable (low : ∀ b, p b = true → b.toNat < 0x80)

include low

private theorem fails_above (other : ¬IsAscii c) {b : UInt8} (listed : b ∈ String.utf8EncodeChar c) :
    p b = false := by
  rw [Bool.eq_false_iff]
  intro holds
  exact absurd (low b holds) (Nat.not_lt_of_le (encode_other other listed))

theorem all_encodeChar : (String.utf8EncodeChar c).all p = onChar p c := by
  by_cases ascii : IsAscii c
  · rw [encode_ascii ascii, onChar_ascii ascii, List.all_cons, List.all_nil, Bool.and_true]
  · obtain ⟨b, rest, bytes⟩ := List.exists_cons_of_ne_nil (String.utf8EncodeChar_ne_nil (c := c))
    have high := fails_above low ascii (bytes ▸ List.mem_cons_self (a := b))
    rw [bytes, List.all_cons, high, onChar, decide_eq_false ascii]
    rfl

theorem all_encode : (cs.flatMap String.utf8EncodeChar).all p = cs.all (onChar p) := by
  induction cs with
  | nil => rfl
  | cons c cs ih => rw [List.flatMap_cons, List.all_append, ih, all_encodeChar low, List.all_cons]

/-- The bytes that pass from the start on are those of the characters that do. -/
theorem takeWhile_encode : (cs.flatMap String.utf8EncodeChar).takeWhile p =
    (cs.takeWhile (onChar p)).flatMap String.utf8EncodeChar := by
  induction cs with
  | nil => rfl
  | cons c cs ih =>
    rw [List.flatMap_cons, List.takeWhile_cons]
    by_cases ascii : IsAscii c
    · rw [encode_ascii ascii, onChar_ascii ascii, List.singleton_append, List.takeWhile_cons]
      split
      next => rw [ih, List.flatMap_cons, encode_ascii ascii, List.singleton_append]
      next => rfl
    · obtain ⟨b, rest, bytes⟩ := List.exists_cons_of_ne_nil (String.utf8EncodeChar_ne_nil (c := c))
      have high := fails_above low ascii (bytes ▸ List.mem_cons_self (a := b))
      rw [bytes, List.cons_append, List.takeWhile_cons, high, onChar, decide_eq_false ascii]
      rfl

end Low

theorem byteLength_ascii (ascii : ∀ c ∈ cs, IsAscii c) : byteLength cs = cs.length := by
  induction cs with
  | nil => rfl
  | cons c cs ih =>
    have one := isAscii_iff.mp (ascii c List.mem_cons_self)
    rw [byteLength_cons, one, ih fun d listed => ascii d (List.mem_cons_of_mem c listed),
      List.length_cons, Nat.add_comm]

theorem isPrefixOf_encode {ps : List Char} (ascii : ∀ c ∈ ps, IsAscii c) :
    (ps.flatMap String.utf8EncodeChar).isPrefixOf (cs.flatMap String.utf8EncodeChar) =
      ps.isPrefixOf cs := by
  induction ps generalizing cs with
  | nil => cases cs <;> rfl
  | cons q ps ih =>
    have first := ascii q List.mem_cons_self
    have rest : ∀ cs : List Char, (ps.flatMap String.utf8EncodeChar).isPrefixOf
        (cs.flatMap String.utf8EncodeChar) = ps.isPrefixOf cs :=
      fun _ => ih fun d listed => ascii d (List.mem_cons_of_mem q listed)
    rw [List.flatMap_cons, encode_ascii first, List.singleton_append]
    cases cs with
    | nil => rfl
    | cons c cs =>
      rw [List.flatMap_cons, List.isPrefixOf]
      by_cases same : IsAscii c
      · rw [encode_ascii same, List.singleton_append, List.isPrefixOf, rest cs]
        congr 1
        rw [Bool.eq_iff_iff, beq_iff_eq, beq_iff_eq, asciiByte_inj first same]
      · obtain ⟨b, bs, bytes⟩ := List.exists_cons_of_ne_nil (String.utf8EncodeChar_ne_nil (c := c))
        have above := encode_other same (bytes ▸ List.mem_cons_self (a := b))
        have apart : asciiByte q ≠ b := by
          rintro rfl
          rw [toNat_asciiByte first] at above
          exact absurd first (Nat.not_lt_of_le above)
        have other : q ≠ c := by
          rintro rfl
          exact same first
        rw [bytes, List.cons_append, List.isPrefixOf, beq_eq_false_iff_ne.mpr apart,
          beq_eq_false_iff_ne.mpr other, Bool.false_and, Bool.false_and]

end CodeGraph.AsciiBytes
