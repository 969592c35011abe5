import CodeGraph.Foundation.JsText
import CodeGraph.Foundation.Utf8

/-!
# JavaScript character classes on bytes

The scanners of the native side read the UTF-8 bytes of a text at places, and step over a character of
several bytes by its length.
-/
namespace CodeGraph.Kernel.JsBytes

open CharOffsets AsciiBytes Utf8 JsText

abbrev Bytes := List UInt8

/-! ### Places -/

/-- `while test(s[i]) { i += 1 }`: where it ends. -/
def advance (test : UInt8 → Bool) (s : Bytes) (i : Nat) : Nat :=
  i + ((s.drop i).takeWhile test).length

/-- `&s[a..b]` -/
def slice (s : Bytes) (a b : Nat) : Bytes := (s.take b).drop a

def isBlank (b : UInt8) : Bool := b == 0x20 || b == 0x09

def isWord (b : UInt8) : Bool :=
  (0x30 ≤ b && b ≤ 0x39) || (0x41 ≤ b && b ≤ 0x5A) || (0x61 ≤ b && b ≤ 0x7A) || b == 0x5F

def wordEnd (s : Bytes) (i : Nat) : Nat := advance isWord s i

def jswsLen (s : Bytes) (i : Nat) : Nat :=
  match s[i]? with
  | none => 0
  | some b =>
    if (0x09 ≤ b && b ≤ 0x0D) || b == 0x20 then 1
    else if b == 0xC2 && s[i + 1]? == some 0xA0 then 2
    else if b == 0xE1 && s[i + 1]? == some 0x9A && s[i + 2]? == some 0x80 then 3
    else if b == 0xE2 then
      if s[i + 1]? == some 0x80 && s[i + 2]?.any (fun c =>
          (0x80 ≤ c && c ≤ 0x8A) || c == 0xA8 || c == 0xA9 || c == 0xAF) then 3
      else if s[i + 1]? == some 0x81 && s[i + 2]? == some 0x9F then 3
      else 0
    else if b == 0xE3 && s[i + 1]? == some 0x80 && s[i + 2]? == some 0x80 then 3
    else if b == 0xEF && s[i + 1]? == some 0xBB && s[i + 2]? == some 0xBF then 3
    else 0

/-- Past the white space at a place, at most `fuel` characters of it. -/
def skipJswsFrom (s : Bytes) : Nat → Nat → Nat
  | 0, i => i
  | fuel + 1, i => if jswsLen s i = 0 then i else skipJswsFrom s fuel (i + jswsLen s i)

def skipJsws (s : Bytes) (i : Nat) : Nat := skipJswsFrom s s.length i

def jswsLenBack (s : Bytes) (b : Nat) : Nat :=
  match b with
  | 0 => 0
  | p + 1 =>
    match s[p]? with
    | none => 0
    | some c =>
      if (0x09 ≤ c && c ≤ 0x0D) || c == 0x20 then 1
      else if c == 0xA0 && 2 ≤ b && s[b - 2]? == some 0xC2 then 2
      else if c == 0x80 && 3 ≤ b && s[b - 3]? == some 0xE1 && s[b - 2]? == some 0x9A then 3
      else if ((0x80 ≤ c && c ≤ 0x8A) || c == 0xA8 || c == 0xA9 || c == 0xAF) && 3 ≤ b &&
          s[b - 3]? == some 0xE2 && s[b - 2]? == some 0x80 then 3
      else if c == 0x9F && 3 ≤ b && s[b - 3]? == some 0xE2 && s[b - 2]? == some 0x81 then 3
      else if c == 0x80 && 3 ≤ b && s[b - 3]? == some 0xE3 && s[b - 2]? == some 0x80 then 3
      else if c == 0xBF && 3 ≤ b && s[b - 3]? == some 0xEF && s[b - 2]? == some 0xBB then 3
      else 0

def trimStart (s : Bytes) (b : Nat) : Nat → Nat → Nat
  | 0, a => a
  | fuel + 1, a => if a < b ∧ 0 < jswsLen s a then trimStart s b fuel (a + jswsLen s a) else a

def trimEnd (s : Bytes) (a : Nat) : Nat → Nat → Nat
  | 0, b => b
  | fuel + 1, b => if a < b ∧ 0 < jswsLenBack s b then trimEnd s a fuel (b - jswsLenBack s b) else b

def jsTrim (s : Bytes) (a b : Nat) : Nat × Nat :=
  let a' := trimStart s b (b - a) a
  (a', trimEnd s a' (b - a') b)

def lineTermLen (s : Bytes) (i : Nat) : Nat :=
  match s[i]? with
  | none => 0
  | some b =>
    if b == 0x0A || b == 0x0D then 1
    else if b == 0xE2 && s[i + 1]? == some 0x80 && s[i + 2]?.any (fun c => c == 0xA8 || c == 0xA9)
    then 3
    else 0

/-- The next place where a line starts, `fuel` bytes being left. -/
def nextAnchorFrom (s : Bytes) : Nat → Nat → Option Nat
  | 0, _ => none
  | fuel + 1, i =>
    if 0 < lineTermLen s i then some (i + lineTermLen s i) else nextAnchorFrom s fuel (i + 1)

def nextAnchor (s : Bytes) (i : Nat) : Option Nat := nextAnchorFrom s (s.length - i) i

def isJsDot (s : Bytes) (i : Nat) : Bool :=
  match s[i]? with
  | none => false
  | some b =>
    if b == 0x0A || b == 0x0D then false
    else if b == 0xE2 then
      !(s[i + 1]? == some 0x80 && s[i + 2]?.any (fun c => c == 0xA8 || c == 0xA9))
    else true

/-- `while e < len && is_js_dot(s, e) { e += 1 }` -/
def dotEndFrom (s : Bytes) : Nat → Nat → Nat
  | 0, e => e
  | fuel + 1, e => if isJsDot s e then dotEndFrom s fuel (e + 1) else e

def dotEnd (s : Bytes) (e : Nat) : Nat := dotEndFrom s (s.length - e) e

/-! ### The characters at a place -/

variable {s : Bytes} {i : Nat} {c : Char} {t u v : Text}

def At (s : Bytes) (i : Nat) (t : Text) : Prop := s.drop i = encode t

theorem takeWhile_nil_iff {f : Char → Bool} (t : Text) :
    t.takeWhile f = [] ↔ t = t.dropWhile f := by
  constructor
  · intro none_
    conv_lhs => rw [← List.takeWhile_append_dropWhile (p := f) (l := t), none_, List.nil_append]
  · intro same
    have length := congrArg List.length (List.takeWhile_append_dropWhile (p := f) (l := t))
    rw [← same, List.length_append] at length
    exact List.length_eq_zero_iff.mp (by omega)

theorem stays_iff {n : Nat} {f : Char → Bool} (t : Text) :
    n + (encode (t.takeWhile f)).length = n ↔ t = t.dropWhile f := by
  rw [Nat.add_eq_left, Utf8.length_encode, byteLength_eq_zero, takeWhile_nil_iff]

theorem At.skip (at_ : At s i (u ++ v)) : At s (i + (encode u).length) v := by
  rw [At, ← List.drop_drop, show s.drop i = encode u ++ encode v by rw [at_, encode_append],
    List.drop_left]

theorem At.get (at_ : At s i t) (k : Nat) : s[i + k]? = (encode t)[k]? := by
  rw [← List.getElem?_drop, at_]

theorem At.length (at_ : At s i t) (within : i ≤ s.length) : s.length = i + (encode t).length := by
  have length := congrArg List.length at_
  rw [List.length_drop] at length
  omega

inductive Encoded (c : Char) : Prop
  | one (small : c.toNat < 0x80) (size : c.utf8Size = 1)
      (bytes : String.utf8EncodeChar c = [UInt8.ofNat c.toNat])
  | two (h l : Nat) (high : 2 ≤ h ∧ h < 0x20) (low : l < 0x40) (value : c.toNat = 64 * h + l)
      (size : c.utf8Size = 2)
      (bytes : String.utf8EncodeChar c = [UInt8.ofNat (h + 0xC0), UInt8.ofNat (l + 0x80)])
  | three (h m l : Nat) (high : h < 0x10) (middle : m < 0x40) (low : l < 0x40)
      (large : 0x800 ≤ c.toNat) (value : c.toNat = 4096 * h + 64 * m + l) (size : c.utf8Size = 3)
      (bytes : String.utf8EncodeChar c =
        [UInt8.ofNat (h + 0xE0), UInt8.ofNat (m + 0x80), UInt8.ofNat (l + 0x80)])
  | four (h m n l : Nat) (high : h < 8) (second : m < 0x40) (third : n < 0x40) (low : l < 0x40)
      (large : 0x10000 ≤ c.toNat) (size : c.utf8Size = 4)
      (bytes : String.utf8EncodeChar c = [UInt8.ofNat (h + 0xF0), UInt8.ofNat (m + 0x80),
        UInt8.ofNat (n + 0x80), UInt8.ofNat (l + 0x80)])

theorem encoded (c : Char) : Encoded c := by
  have size := String.length_utf8EncodeChar c
  have value : c.val.toNat = c.toNat := rfl
  have bytes : String.utf8EncodeChar c = String.utf8EncodeChar c := rfl
  conv_rhs at bytes => rw [String.utf8EncodeChar]
  rw [bytes, value] at size
  rw [value] at bytes
  split at size
  · next one =>
    rw [if_pos one] at bytes
    exact .one (by omega) size.symm bytes
  split at size
  · next one two =>
    rw [if_neg one, if_pos two] at bytes
    exact .two _ _ (by omega) (by omega) (by omega) size.symm bytes
  split at size
  · next one two three =>
    rw [if_neg one, if_neg two, if_pos three] at bytes
    exact .three _ _ _ (by omega) (by omega) (by omega) (by omega) (by omega) size.symm bytes
  · next one two three =>
    rw [if_neg one, if_neg two, if_neg three] at bytes
    exact .four _ _ _ _ (by omega) (by omega) (by omega) (by omega) (by omega) size.symm bytes

theorem byte_toNat {n : Nat} (small : n < 256) : (UInt8.ofNat n).toNat = n := by
  rw [UInt8.toNat_ofNat', Nat.mod_eq_of_lt small]

theorem isSpace_iff (c : Char) : isSpace c = true ↔ (0x09 ≤ c.toNat ∧ c.toNat ≤ 0x0D) ∨
    c.toNat = 0x20 ∨ c.toNat = 0xA0 ∨ c.toNat = 0x1680 ∨ (0x2000 ≤ c.toNat ∧ c.toNat ≤ 0x200A) ∨
    c.toNat = 0x2028 ∨ c.toNat = 0x2029 ∨ c.toNat = 0x202F ∨ c.toNat = 0x205F ∨ c.toNat = 0x3000 ∨
    c.toNat = 0xFEFF := by
  simp only [isSpace, Bool.or_eq_true, Bool.and_eq_true, decide_eq_true_eq, beq_iff_eq, or_assoc]

theorem isSpace_three {h m l : Nat} (middle : m < 0x40) (low : l < 0x40) (large : 0x800 ≤ c.toNat)
    (value : c.toNat = 4096 * h + 64 * m + l) :
    isSpace c = true ↔ (h = 1 ∧ m = 26 ∧ l = 0) ∨
      (h = 2 ∧ m = 0 ∧ (l ≤ 10 ∨ l = 40 ∨ l = 41 ∨ l = 47)) ∨ (h = 2 ∧ m = 1 ∧ l = 31) ∨
      (h = 3 ∧ m = 0 ∧ l = 0) ∨ (h = 15 ∧ m = 59 ∧ l = 63) := by
  rw [isSpace_iff, value]
  constructor
  · rintro (_ | _ | _ | _ | _ | _ | _ | _ | _ | _ | _) <;> omega
  · rintro (_ | ⟨_, _, _ | _ | _ | _⟩ | _ | _ | _) <;> omega

theorem isTerminator_iff (c : Char) : isTerminator c = true ↔
    c.toNat = 0x0A ∨ c.toNat = 0x0D ∨ c.toNat = 0x2028 ∨ c.toNat = 0x2029 := by
  have newline : c = '\n' ↔ c.toNat = 0x0A := by rw [← Char.toNat_inj]; rfl
  have return_ : c = '\r' ↔ c.toNat = 0x0D := by rw [← Char.toNat_inj]; rfl
  simp only [isTerminator, Bool.or_eq_true, beq_iff_eq, newline, return_, or_assoc]

theorem jswsLen_at (at_ : At s i (c :: t)) :
    jswsLen s i = if isSpace c then c.utf8Size else 0 := by
  have first := at_.get 0
  have second := at_.get 1
  have third := at_.get 2
  rw [encode_cons] at first second third
  cases encoded c with
  | one small size bytes =>
    rw [bytes] at first
    simp only [Nat.add_zero, List.cons_append, List.getElem?_cons_zero] at first
    simp (disch := omega) only [jswsLen, first, size, isSpace_iff, UInt8.le_iff_toNat_le,
      ← UInt8.toNat_inj, beq_iff_eq, Bool.or_eq_true, Bool.and_eq_true, decide_eq_true_eq,
      UInt8.reduceToNat, byte_toNat]
    split_ifs <;> omega
  | two h l high low value size bytes =>
    rw [bytes] at first second
    simp only [Nat.add_zero, List.cons_append, List.getElem?_cons_zero, List.getElem?_cons_succ]
      at first second
    simp (disch := omega) only [jswsLen, first, second, size, isSpace_iff, value,
      UInt8.le_iff_toNat_le, ← UInt8.toNat_inj, beq_iff_eq, Option.some.injEq, Bool.or_eq_true,
      Bool.and_eq_true, decide_eq_true_eq, UInt8.reduceToNat, byte_toNat]
    split_ifs <;> omega
  | three h m l high middle low large value size bytes =>
    rw [bytes] at first second third
    simp only [Nat.add_zero, List.cons_append, List.getElem?_cons_zero, List.getElem?_cons_succ]
      at first second third
    simp (disch := omega) only [jswsLen, first, second, third, size, UInt8.le_iff_toNat_le,
      ← UInt8.toNat_inj, beq_iff_eq, Option.some.injEq, Option.any_some, Bool.or_eq_true,
      Bool.and_eq_true, decide_eq_true_eq, UInt8.reduceToNat, byte_toNat]
    simp only [isSpace_three middle low large value]
    split_ifs <;> first | rfl | grind
  | four h m n l high _ _ _ large size bytes =>
    rw [bytes] at first
    simp only [Nat.add_zero, List.cons_append, List.getElem?_cons_zero] at first
    simp (disch := omega) only [jswsLen, first, size, isSpace_iff, UInt8.le_iff_toNat_le,
      ← UInt8.toNat_inj, beq_iff_eq, Bool.or_eq_true, Bool.and_eq_true, decide_eq_true_eq,
      UInt8.reduceToNat, byte_toNat]
    split_ifs <;> omega

theorem lineTermLen_at (at_ : At s i (c :: t)) :
    lineTermLen s i = if isTerminator c then c.utf8Size else 0 := by
  have first := at_.get 0
  have second := at_.get 1
  have third := at_.get 2
  rw [encode_cons] at first second third
  cases encoded c with
  | one small size bytes =>
    rw [bytes] at first
    simp only [Nat.add_zero, List.cons_append, List.getElem?_cons_zero] at first
    simp (disch := omega) only [lineTermLen, first, size, isTerminator_iff, ← UInt8.toNat_inj,
      beq_iff_eq, Bool.or_eq_true, Bool.and_eq_true, UInt8.reduceToNat, byte_toNat]
    split_ifs <;> omega
  | two h l high low value size bytes =>
    rw [bytes] at first
    simp only [Nat.add_zero, List.cons_append, List.getElem?_cons_zero] at first
    simp (disch := omega) only [lineTermLen, first, size, isTerminator_iff, value, ← UInt8.toNat_inj, beq_iff_eq, Bool.or_eq_true, Bool.and_eq_true, UInt8.reduceToNat, byte_toNat]
    split_ifs <;> omega
  | three h m l high middle low large value size bytes =>
    rw [bytes] at first second third
    simp only [Nat.add_zero, List.cons_append, List.getElem?_cons_zero, List.getElem?_cons_succ]
      at first second third
    simp (disch := omega) only [lineTermLen, first, second, third, size, isTerminator_iff, value,
      ← UInt8.toNat_inj, beq_iff_eq, Option.some.injEq, Option.any_some, Bool.or_eq_true,
      Bool.and_eq_true, UInt8.reduceToNat, byte_toNat]
    split_ifs <;> omega
  | four h m n l high _ _ _ large size bytes =>
    rw [bytes] at first
    simp only [Nat.add_zero, List.cons_append, List.getElem?_cons_zero] at first
    simp (disch := omega) only [lineTermLen, first, size, isTerminator_iff, ← UInt8.toNat_inj,
      beq_iff_eq, Bool.or_eq_true, Bool.and_eq_true, UInt8.reduceToNat, byte_toNat]
    split_ifs <;> omega

theorem jswsLenBack_char {x : Bytes}
    (ends : s.take (x.length + c.utf8Size) = x ++ String.utf8EncodeChar c) :
    jswsLenBack s (x.length + c.utf8Size) = if isSpace c then c.utf8Size else 0 := by
  have get : ∀ k < c.utf8Size, s[x.length + k]? = (String.utf8EncodeChar c)[k]? := by
    intro k inside
    rw [← List.getElem?_take_of_lt (show x.length + k < x.length + c.utf8Size by omega), ends,
      List.getElem?_append_right (Nat.le_add_right _ _), Nat.add_sub_cancel_left]
  cases encoded c with
  | one small size bytes =>
    have last := get 0 (by omega)
    simp only [bytes, Nat.add_zero, List.getElem?_cons_zero] at last
    rw [size]
    simp (disch := omega) only [jswsLenBack, last, isSpace_iff, UInt8.le_iff_toNat_le,
      ← UInt8.toNat_inj, beq_iff_eq, Bool.or_eq_true, Bool.and_eq_true, decide_eq_true_eq,
      UInt8.reduceToNat, byte_toNat]
    grind
  | two h l high low value size bytes =>
    have last := get 1 (by omega)
    have lead := get 0 (by omega)
    have least : 128 ≤ 64 * h + l := by omega
    have most : 64 * h + l < 2048 := by omega
    simp only [bytes, Nat.add_zero, List.getElem?_cons_zero, List.getElem?_cons_succ] at last lead
    rw [size]
    simp (disch := omega) only [jswsLenBack, last, lead, value, isSpace_iff, Nat.reduceSubDiff,
      UInt8.le_iff_toNat_le, ← UInt8.toNat_inj, beq_iff_eq, Option.some.injEq, Bool.or_eq_true,
      Bool.and_eq_true, decide_eq_true_eq, UInt8.reduceToNat, byte_toNat]
    grind
  | three h m l high middle low large value size bytes =>
    have last := get 2 (by omega)
    have second := get 1 (by omega)
    have lead := get 0 (by omega)
    simp only [bytes, Nat.add_zero, List.getElem?_cons_zero, List.getElem?_cons_succ]
      at last second lead
    rw [size]
    simp (disch := omega) only [jswsLenBack, last, second, lead, Nat.reduceSubDiff,
      UInt8.le_iff_toNat_le, ← UInt8.toNat_inj, beq_iff_eq, Option.some.injEq, Bool.or_eq_true,
      Bool.and_eq_true, decide_eq_true_eq, UInt8.reduceToNat, byte_toNat]
    simp only [isSpace_three middle low large value]
    split_ifs <;> first | rfl | grind
  | four h m n l high second third low large size bytes =>
    have last := get 3 (by omega)
    have before := get 2 (by omega)
    have first := get 1 (by omega)
    simp only [bytes, List.getElem?_cons_zero, List.getElem?_cons_succ] at last before first
    rw [size]
    simp (disch := omega) only [jswsLenBack, last, before, first, isSpace_iff, Nat.reduceSubDiff,
      UInt8.le_iff_toNat_le, ← UInt8.toNat_inj, beq_iff_eq, Option.some.injEq, Bool.or_eq_true,
      Bool.and_eq_true, decide_eq_true_eq, UInt8.reduceToNat, byte_toNat]
    grind

theorem At.within (at_ : At s i (c :: t)) {k : Nat} (inside : k < c.utf8Size) (later : k ≠ 0) :
    ∃ b : UInt8, s[i + k]? = some b ∧ 0x80 ≤ b.toNat ∧ b.toNat < 0xC0 := by
  have byte := at_.get k
  rw [encode_cons, List.getElem?_append_left (by rwa [String.length_utf8EncodeChar])] at byte
  rw [byte]
  cases encoded c with
  | one small size bytes => omega
  | two h l high low value size bytes =>
    obtain rfl : k = 1 := by omega
    exact ⟨_, by rw [bytes]; rfl, by rw [byte_toNat (by omega)]; omega⟩
  | three h m l high middle low large value size bytes =>
    obtain rfl | rfl : k = 1 ∨ k = 2 := by omega
    · exact ⟨_, by rw [bytes]; rfl, by rw [byte_toNat (by omega)]; omega⟩
    · exact ⟨_, by rw [bytes]; rfl, by rw [byte_toNat (by omega)]; omega⟩
  | four h m n l high second third low large size bytes =>
    obtain rfl | rfl | rfl : k = 1 ∨ k = 2 ∨ k = 3 := by omega
    · exact ⟨_, by rw [bytes]; rfl, by rw [byte_toNat (by omega)]; omega⟩
    · exact ⟨_, by rw [bytes]; rfl, by rw [byte_toNat (by omega)]; omega⟩
    · exact ⟨_, by rw [bytes]; rfl, by rw [byte_toNat (by omega)]; omega⟩

theorem lineTermLen_within (at_ : At s i (c :: t)) {k : Nat} (inside : k < c.utf8Size)
    (later : k ≠ 0) : lineTermLen s (i + k) = 0 := by
  obtain ⟨b, byte, least, most⟩ := at_.within inside later
  have plain : ¬(b = 0x0A ∨ b = 0x0D) := by
    rintro (rfl | rfl) <;> exact absurd least (by decide)
  have lead : ¬b = 0xE2 := by
    rintro rfl
    exact absurd most (by decide)
  simp [lineTermLen, byte, plain, lead]

theorem isJsDot_eq {b : UInt8} (byte : s[i]? = some b) : isJsDot s i = decide (lineTermLen s i = 0) := by
  simp only [isJsDot, lineTermLen, byte]
  split_ifs <;> grind

/-! ### Tests of bytes -/

/-- A test of bytes tells characters apart: each ASCII character by its byte, the others by none. -/
structure Tells (p : UInt8 → Bool) (f : Char → Bool) : Prop where
  ascii : ∀ c, IsAscii c → p (asciiByte c) = f c
  other : ∀ c, ¬IsAscii c → ∀ b : UInt8, 0x80 ≤ b.toNat → p b = f c

theorem le_advance (p : UInt8 → Bool) (s : Bytes) (i : Nat) : i ≤ advance p s i := Nat.le_add_right _ _

theorem advance_le {p : UInt8 → Bool} (within : i ≤ s.length) : advance p s i ≤ s.length := by
  have part := (List.takeWhile_prefix p (l := s.drop i)).length_le
  rw [List.length_drop] at part
  rw [advance]
  omega

section Tells

variable {p : UInt8 → Bool} {f : Char → Bool} (tells : Tells p f)

include tells

theorem takeWhile_tells (t : Text) : (encode t).takeWhile p = encode (t.takeWhile f) := by
  induction t with
  | nil => rfl
  | cons c t ih =>
    rw [encode_cons, List.takeWhile_cons]
    by_cases ascii : IsAscii c
    · rw [encode_ascii ascii, List.singleton_append, List.takeWhile_cons, tells.ascii c ascii, ih]
      cases f c with
      | false => rfl
      | true => rw [if_pos rfl, if_pos rfl, encode_cons, encode_ascii ascii, List.singleton_append]
    · have bytes : ∀ b ∈ String.utf8EncodeChar c, p b = f c :=
        fun b listed => tells.other c ascii b (encode_other ascii listed)
      cases passes : f c with
      | false =>
        obtain ⟨b, rest, shape⟩ := List.exists_cons_of_ne_nil (String.utf8EncodeChar_ne_nil (c := c))
        rw [shape, List.cons_append, List.takeWhile_cons_of_neg, if_neg Bool.false_ne_true, encode_nil]
        rw [bytes b (shape ▸ List.mem_cons_self), passes]
        exact Bool.false_ne_true
      | true =>
        rw [if_pos rfl, encode_cons, List.takeWhile_append_of_pos (fun b listed => by
          rw [bytes b listed, passes]), ih]

theorem advance_eq (at_ : At s i t) : advance p s i = i + (encode (t.takeWhile f)).length := by
  rw [advance, show s.drop i = encode t from at_, takeWhile_tells tells]

theorem advance_at (at_ : At s i t) : At s (advance p s i) (t.dropWhile f) := by
  rw [advance_eq tells at_]
  apply At.skip
  rwa [List.takeWhile_append_dropWhile]

end Tells

theorem tells_word : Tells isWord JsText.isWord where
  ascii c ascii := by
    have all : ∀ n < 128, isWord (asciiByte (Char.ofNat n)) = JsText.isWord (Char.ofNat n) := by decide
    exact forall_ascii (P := fun c => isWord (asciiByte c) = JsText.isWord c) all ascii
  other c other b high := by
    have plain : isWord b = false := by
      rw [Bool.eq_false_iff]
      intro word
      simp only [isWord, UInt8.le_iff_toNat_le, ← UInt8.toNat_inj, beq_iff_eq, Bool.or_eq_true,
        Bool.and_eq_true, decide_eq_true_eq, UInt8.reduceToNat] at word
      omega
    rw [plain]
    cases word : JsText.isWord c with
    | false => rfl
    | true => exact absurd (isWord_ascii word) other

/-- The byte at a place is that of an ASCII character just when the text begins with it. -/
theorem At.byte (at_ : At s i t) {d : Char} (ascii : IsAscii d) :
    s[i]? = some (asciiByte d) ↔ t.head? = some d := by
  have byte := at_.get 0
  rw [Nat.add_zero] at byte
  rw [byte]
  cases t with
  | nil => simp
  | cons c t =>
    rw [encode_cons, List.head?_cons, Option.some.injEq]
    by_cases same : IsAscii c
    · rw [encode_ascii same, List.singleton_append, List.getElem?_cons_zero, Option.some.injEq,
        asciiByte_inj same ascii]
    · obtain ⟨b, tail, shape⟩ := List.exists_cons_of_ne_nil (String.utf8EncodeChar_ne_nil (c := c))
      have high := encode_other same (shape ▸ List.mem_cons_self (a := b))
      rw [shape, List.cons_append, List.getElem?_cons_zero, Option.some.injEq]
      constructor
      · rintro rfl
        rw [toNat_asciiByte ascii] at high
        exact absurd ascii (Nat.not_lt_of_le high)
      · rintro rfl
        exact absurd ascii same

theorem tells_ne {d : Char} (ascii : IsAscii d) : Tells (· != asciiByte d) (· ≠ d) where
  ascii c same := by
    rw [Bool.eq_iff_iff, bne_iff_ne, decide_eq_true_eq, ne_eq, ne_eq, asciiByte_inj same ascii]
  other c other b high := by
    have byte : b ≠ asciiByte d := by
      rintro rfl
      rw [toNat_asciiByte ascii] at high
      exact absurd ascii (Nat.not_lt_of_le high)
    have char : c ≠ d := by
      rintro rfl
      exact other ascii
    rw [bne_iff_ne.mpr byte, decide_eq_true char]

/-! ### The loops -/

theorem At.first (at_ : At s i (c :: t)) : i < s.length := by
  by_contra beyond
  have none_ : s.drop i = [] := List.drop_eq_nil_of_le (Nat.not_lt.mp beyond)
  have whole : [] = encode (c :: t) := none_.symm.trans at_
  rw [encode_cons] at whole
  exact String.utf8EncodeChar_ne_nil (List.append_eq_nil_iff.mp whole.symm).1

theorem At.over (at_ : At s i []) : s.length ≤ i := List.drop_eq_nil_iff.mp at_

theorem At.nil (at_ : At s i t) (beyond : s.length ≤ i) : t = [] := by
  cases t with
  | nil => rfl
  | cons c t => exact absurd at_.first (Nat.not_lt.mpr beyond)

theorem At.tail (at_ : At s i (c :: t)) : At s (i + c.utf8Size) t := by
  have skip := At.skip (u := [c]) (v := t) at_
  simpa using skip

theorem At.le (at_ : At s i t) (within : i ≤ s.length) : i + (encode t).length ≤ s.length :=
  (at_.length within).ge

theorem dotEndFrom_skip {fuel e : Nat} (k : Nat) (dots : ∀ j < k, isJsDot s (e + j) = true) :
    dotEndFrom s (fuel + k) e = dotEndFrom s fuel (e + k) := by
  induction k generalizing e with
  | zero => rfl
  | succ k ih =>
    have first := dots 0 (Nat.succ_pos k)
    rw [Nat.add_zero] at first
    rw [← Nat.add_assoc, dotEndFrom, if_pos first, ih, Nat.add_assoc, Nat.add_comm 1 k]
    intro j less
    have next := dots (j + 1) (Nat.succ_lt_succ less)
    rwa [← Nat.add_assoc, Nat.add_right_comm] at next

theorem dotEndFrom_at (at_ : At s i t) {fuel : Nat} (enough : (encode t).length ≤ fuel) :
    dotEndFrom s fuel i = i + (encode (t.takeWhile fun c => !isTerminator c)).length := by
  induction t generalizing i fuel with
  | nil =>
    have stop : isJsDot s i = false := by
      have none_ := at_.get 0
      rw [Nat.add_zero, encode_nil, List.getElem?_nil] at none_
      simp only [isJsDot, none_]
    cases fuel with
    | zero => rfl
    | succ fuel =>
      rw [dotEndFrom, stop]
      rfl
  | cons c t ih =>
    have positive := c.utf8Size_pos
    have byte := List.getElem?_eq_getElem at_.first
    rw [encode_cons, List.length_append, String.length_utf8EncodeChar] at enough
    have here := lineTermLen_at at_
    cases ends : isTerminator c with
    | true =>
      rw [ends, if_pos rfl] at here
      have stop : isJsDot s i = false := by
        rw [isJsDot_eq byte, here, decide_eq_false]
        omega
      obtain ⟨fuel, rfl⟩ : ∃ n, fuel = n + 1 := ⟨fuel - 1, by omega⟩
      rw [dotEndFrom, stop, List.takeWhile_cons_of_neg (by simp [ends])]
      rfl
    | false =>
      rw [ends, if_neg Bool.false_ne_true] at here
      obtain ⟨fuel, rfl⟩ : ∃ n, fuel = n + c.utf8Size := ⟨fuel - c.utf8Size, by omega⟩
      have dots : ∀ j < c.utf8Size, isJsDot s (i + j) = true := by
        intro j inside
        rcases Nat.eq_zero_or_pos j with rfl | later
        · rw [Nat.add_zero, isJsDot_eq byte, here, decide_eq_true rfl]
        · obtain ⟨d, within, -⟩ := at_.within inside (by omega)
          rw [isJsDot_eq within, lineTermLen_within at_ inside (by omega), decide_eq_true rfl]
      rw [dotEndFrom_skip _ dots, ih at_.tail (by omega), List.takeWhile_cons_of_pos (by simp [ends]),
        encode_cons, List.length_append, String.length_utf8EncodeChar, Nat.add_assoc]

theorem dotEnd_at (at_ : At s i t) (within : i ≤ s.length) :
    dotEnd s i = i + (encode (t.takeWhile fun c => !isTerminator c)).length :=
  dotEndFrom_at at_ (by rw [at_.length within]; omega)

theorem nextAnchorFrom_skip {fuel : Nat} (k : Nat) (plain : ∀ j < k, lineTermLen s (i + j) = 0) :
    nextAnchorFrom s (fuel + k) i = nextAnchorFrom s fuel (i + k) := by
  induction k generalizing i with
  | zero => rfl
  | succ k ih =>
    have first := plain 0 (Nat.succ_pos k)
    rw [Nat.add_zero] at first
    rw [← Nat.add_assoc, nextAnchorFrom, if_neg (by omega), ih, Nat.add_assoc, Nat.add_comm 1 k]
    intro j less
    have next := plain (j + 1) (Nat.succ_lt_succ less)
    rwa [← Nat.add_assoc, Nat.add_right_comm] at next

theorem nextAnchorFrom_at (at_ : At s i t) {fuel : Nat} (exact_ : (encode t).length = fuel) :
    (nextAnchorFrom s fuel i).isSome = (nextLine t).isSome ∧
      ∀ j ∈ nextAnchorFrom s fuel i, ∀ u ∈ nextLine t, At s j u ∧ i < j ∧ j ≤ i + fuel := by
  induction t generalizing i fuel with
  | nil =>
    subst exact_
    exact ⟨rfl, fun j found => nomatch found⟩
  | cons c t ih =>
    have positive := c.utf8Size_pos
    have here := lineTermLen_at at_
    rw [encode_cons, List.length_append, String.length_utf8EncodeChar] at exact_
    rw [nextLine]
    cases ends : isTerminator c with
    | true =>
      rw [ends, if_pos rfl] at here
      obtain ⟨fuel, rfl⟩ : ∃ n, fuel = n + 1 := ⟨fuel - 1, by omega⟩
      rw [nextAnchorFrom, here, if_pos positive, if_pos rfl]
      refine ⟨rfl, ?_⟩
      rintro j ⟨⟩ u ⟨⟩
      exact ⟨at_.tail, by omega, by omega⟩
    | false =>
      rw [ends, if_neg Bool.false_ne_true] at here
      obtain ⟨fuel, rfl⟩ : ∃ n, fuel = n + c.utf8Size := ⟨fuel - c.utf8Size, by omega⟩
      have plain : ∀ j < c.utf8Size, lineTermLen s (i + j) = 0 := by
        intro j inside
        rcases Nat.eq_zero_or_pos j with rfl | later
        · exact here
        · exact lineTermLen_within at_ inside (by omega)
      rw [nextAnchorFrom_skip _ plain, if_neg Bool.false_ne_true]
      obtain ⟨both, found⟩ := ih at_.tail (show (encode t).length = fuel by omega)
      refine ⟨both, fun j anchor u next => ?_⟩
      obtain ⟨there, later, le⟩ := found j anchor u next
      exact ⟨there, by omega, by omega⟩

/-- A place from `least` on and the text there, or neither. -/
inductive Sees (s : Bytes) (least : Nat) : Option Nat → Option Text → Prop
  | none : Sees s least none none
  | some {j : Nat} {u : Text} (at_ : At s j u) (later : least ≤ j) (within : j ≤ s.length) :
      Sees s least (some j) (some u)

theorem Sees.mono {k l : Nat} {place : Option Nat} {text : Option Text} (sees : Sees s l place text)
    (le : k ≤ l) : Sees s k place text := by
  cases sees with
  | none => exact .none
  | some at_ later within => exact .some at_ (le.trans later) within

theorem nextAnchor_at (at_ : At s i t) (within : i ≤ s.length) :
    Sees s (i + 1) (nextAnchor s i) (nextLine t) := by
  obtain ⟨both, found⟩ := nextAnchorFrom_at at_ rfl
  have length := at_.length within
  rw [nextAnchor, length, Nat.add_sub_cancel_left]
  cases anchor : nextAnchorFrom s (encode t).length i with
  | none =>
    rw [anchor, Option.isSome_none] at both
    rw [Option.isSome_eq_false_iff.mp both.symm |> Option.isNone_iff_eq_none.mp]
    exact .none
  | some j =>
    rw [anchor, Option.isSome_some] at both
    obtain ⟨u, next⟩ := Option.isSome_iff_exists.mp both.symm
    obtain ⟨there, later, le⟩ := found j anchor u next
    rw [next]
    exact .some there later (by omega)

theorem skipJswsFrom_at (at_ : At s i t) {fuel : Nat} (enough : (encode t).length ≤ fuel) :
    skipJswsFrom s fuel i = i + (encode (t.takeWhile isSpace)).length := by
  induction t generalizing i fuel with
  | nil =>
    have stop : jswsLen s i = 0 := by
      have none_ := at_.get 0
      rw [Nat.add_zero, encode_nil, List.getElem?_nil] at none_
      simp only [jswsLen, none_]
    cases fuel with
    | zero => rfl
    | succ fuel =>
      rw [skipJswsFrom, if_pos stop]
      rfl
  | cons c t ih =>
    have positive := c.utf8Size_pos
    have here := jswsLen_at at_
    rw [encode_cons, List.length_append, String.length_utf8EncodeChar] at enough
    obtain ⟨fuel, rfl⟩ : ∃ n, fuel = n + 1 := ⟨fuel - 1, by omega⟩
    cases space : isSpace c with
    | true =>
      rw [space, if_pos rfl] at here
      rw [skipJswsFrom, here, if_neg (by omega), ih at_.tail (by omega),
        List.takeWhile_cons_of_pos space, encode_cons, List.length_append,
        String.length_utf8EncodeChar, Nat.add_assoc]
    | false =>
      rw [space, if_neg Bool.false_ne_true] at here
      rw [skipJswsFrom, if_pos here, List.takeWhile_cons_of_neg (by simp [space])]
      rfl

theorem skipJsws_at (at_ : At s i t) (within : i ≤ s.length) :
    skipJsws s i = i + (encode (t.takeWhile isSpace)).length :=
  skipJswsFrom_at at_ (by rw [at_.length within]; omega)

variable {m rest : Text}

theorem trimStart_at (at_ : At s i (m ++ rest)) {fuel : Nat} (enough : (encode m).length ≤ fuel) :
    trimStart s (i + (encode m).length) fuel i = i + (encode (m.takeWhile isSpace)).length := by
  induction m generalizing i fuel with
  | nil =>
    cases fuel with
    | zero => rfl
    | succ fuel =>
      rw [trimStart, if_neg (by simp)]
      rfl
  | cons c m ih =>
    have positive := c.utf8Size_pos
    have here := jswsLen_at at_
    have length : (encode (c :: m)).length = c.utf8Size + (encode m).length := by
      rw [encode_cons, List.length_append, String.length_utf8EncodeChar]
    obtain ⟨fuel, rfl⟩ : ∃ n, fuel = n + 1 := ⟨fuel - 1, by omega⟩
    cases space : isSpace c with
    | true =>
      rw [space, if_pos rfl] at here
      rw [trimStart, here, if_pos (by omega), length, ← Nat.add_assoc,
        ih at_.tail (by omega), List.takeWhile_cons_of_pos space, encode_cons, List.length_append,
        String.length_utf8EncodeChar, Nat.add_assoc]
    | false =>
      rw [space, if_neg Bool.false_ne_true] at here
      rw [trimStart, if_neg (by omega), List.takeWhile_cons_of_neg (by simp [space])]
      rfl

theorem take_at (at_ : At s i (m ++ rest)) :
    s.take (i + (encode m).length) = s.take i ++ encode m := by
  have parts : s.drop i = encode m ++ encode rest := by rw [show s.drop i = _ from at_, encode_append]
  rw [List.take_add, parts, List.take_left]

theorem trimEnd_at (at_ : At s i (m ++ rest)) (within : i ≤ s.length) {fuel : Nat}
    (enough : (encode m).length ≤ fuel) :
    trimEnd s i fuel (i + (encode m).length) = i + (encode (m.rdropWhile isSpace)).length := by
  induction m using List.reverseRecOn generalizing rest fuel with
  | nil =>
    cases fuel with
    | zero => rfl
    | succ fuel =>
      rw [trimEnd, if_neg (by simp)]
      rfl
  | append_singleton m c ih =>
    have positive := c.utf8Size_pos
    have length : (encode (m ++ [c])).length = (encode m).length + c.utf8Size := by
      rw [encode_append, List.length_append, encode_cons, encode_nil, List.append_nil,
        String.length_utf8EncodeChar]
    have start : (s.take i ++ encode m).length = i + (encode m).length := by
      rw [List.length_append, List.length_take, Nat.min_eq_left within]
    have ends : s.take ((s.take i ++ encode m).length + c.utf8Size) =
        (s.take i ++ encode m) ++ String.utf8EncodeChar c := by
      rw [start, Nat.add_assoc, ← length, take_at at_, encode_append]
      simp
    have here := jswsLenBack_char ends
    rw [start, Nat.add_assoc, ← length] at here
    obtain ⟨fuel, rfl⟩ : ∃ n, fuel = n + 1 := ⟨fuel - 1, by omega⟩
    cases space : isSpace c with
    | true =>
      rw [space, if_pos rfl] at here
      have at_' : At s i (m ++ (c :: rest)) := by simpa using at_
      have back : i + (encode (m ++ [c])).length - c.utf8Size = i + (encode m).length := by omega
      rw [trimEnd, here, if_pos (by omega), back, ih at_' (by omega),
        List.rdropWhile_concat_pos _ _ _ space]
    | false =>
      rw [space, if_neg Bool.false_ne_true] at here
      rw [trimEnd, if_neg (by omega), List.rdropWhile_concat_neg _ _ _ (by simp [space])]

theorem slice_at (at_ : At s i (m ++ rest)) : slice s i (i + (encode m).length) = encode m := by
  have parts : s.drop i = encode m ++ encode rest := by rw [show s.drop i = _ from at_, encode_append]
  rw [slice, List.drop_take, parts, Nat.add_sub_cancel_left, List.take_left]

theorem jsTrim_at (at_ : At s i (m ++ rest)) (within : i ≤ s.length) :
    ∃ a, jsTrim s i (i + (encode m).length) = (a, a + (encode (trim m)).length) ∧
      slice s a (a + (encode (trim m)).length) = encode (trim m) := by
  have whole : m ++ rest = m.takeWhile isSpace ++ (skipSpace m ++ rest) := by
    rw [← List.append_assoc, skipSpace, List.takeWhile_append_dropWhile]
  have inner : At s (i + (encode (m.takeWhile isSpace)).length) (skipSpace m ++ rest) :=
    At.skip (whole ▸ at_)
  have length : (encode m).length =
      (encode (m.takeWhile isSpace)).length + (encode (skipSpace m)).length := by
    rw [← List.length_append, ← encode_append, skipSpace, List.takeWhile_append_dropWhile]
  have le := at_.le within
  rw [encode_append, List.length_append] at le
  refine ⟨i + (encode (m.takeWhile isSpace)).length, ?_, ?_⟩
  · rw [jsTrim]
    simp only [Nat.add_sub_cancel_left]
    rw [trimStart_at at_ (Nat.le_refl _), length, ← Nat.add_assoc,
      Nat.add_sub_cancel_left, trimEnd_at inner (by omega) (Nat.le_refl _)]
    rfl
  · have parts : skipSpace m ++ rest = trim m ++ ((skipSpace m).rtakeWhile isSpace ++ rest) := by
      rw [← List.append_assoc, trim, List.rdropWhile_append_rtakeWhile]
    exact slice_at (parts ▸ inner)

end CodeGraph.Kernel.JsBytes
