import CodeGraph.Foundation.JsonTexts
import CodeGraph.Foundation.RustText
import CodeGraph.Foundation.Utf16

/-!
# Lists of strings in JSON

The reader of the kernel for the lists that the store keeps as JSON, one character after the other.
-/
namespace CodeGraph.Resolution.JsonStringArray

open RustText

def unescape (c : Char) : Char :=
  match c with
  | 'n' => '\n'
  | 't' => '\t'
  | 'r' => '\r'
  | 'b' => '\x08'
  | 'f' => '\x0c'
  | other => other

/-- The number of the four digits after `\u`. -/
def hexCode (a b c d : Char) : Option Nat := do
  let a ← hexDigit a
  let b ← hexDigit b
  let c ← hexDigit c
  let d ← hexDigit d
  return ((a * 16 + b) * 16 + c) * 16 + d

/-- The loop over the characters of a string: what it has read, and the text after the closing
quote. -/
def stringChars : List Char → Bool → List Char → Option (List Char × List Char)
  | [], _, _ => none
  | c :: rest, true, val =>
    if c = 'u' then
      match rest with
      | h₁ :: h₂ :: h₃ :: h₄ :: rest =>
        ((hexCode h₁ h₂ h₃ h₄).bind fromU32).bind fun ch => stringChars rest false (val ++ [ch])
      | _ => none
    else stringChars rest false (val ++ [unescape c])
  | c :: rest, false, val =>
    if c = '\\' then stringChars rest true val
    else if c = '"' then some (val, rest)
    else stringChars rest false (val ++ [c])

/-- The loop over the strings; the outer `none` is fuel that ends. -/
def stringsLoop : Nat → List Char → List String → Option (Option (List String))
  | 0, _, _ => none
  | fuel + 1, rest, out =>
    match stripPrefix ['"'] (trimStart rest) with
    | none => some none
    | some s =>
      match stringChars s false [] with
      | none => some none
      | some (val, rest) =>
        let out := out ++ [String.ofList val]
        let rest := trimStart rest
        if rest.isEmpty then some (some out)
        else
          match stripPrefix [','] rest with
          | none => some none
          | some rest => stringsLoop fuel rest out

def parseJsonStringArray (raw : String) : Option (Option (List String)) :=
  match (stripPrefix ['['] (trim raw.toList)).bind (stripSuffix [']']) with
  | none => some none
  | some inner =>
    if (trim inner).isEmpty then some (some [])
    else stringsLoop (inner.length + 1) inner []

/-!
### How a list of strings is written

The text of a list as gaps and strings, each string in pieces that stand for a character, and what
the reader makes of it.
-/

open Text Utf16

def isSurrogate (n : Nat) : Bool := 0xD800 ≤ n && n ≤ 0xDFFF

/-- Whether a text has an escape `\u` for half a surrogate pair. -/
def surrogateEscape : List Char → Bool
  | [] => false
  | c :: rest =>
    if c = '\\' then
      match rest with
      | [] => false
      | e :: rest =>
        if e = 'u' then
          match rest with
          | h₁ :: h₂ :: h₃ :: h₄ :: rest => (hexCode h₁ h₂ h₃ h₄).any isSurrogate || surrogateEscape rest
          | _ => false
        else surrogateEscape rest
    else surrogateEscape rest

theorem hexDigit_lt {c : Char} {n : Nat} (read : hexDigit c = some n) : n < 16 := by
  have points : ('0' ≤ c ∧ c ≤ '9' → c.toNat - '0'.toNat < 16) ∧
      ('a' ≤ c ∧ c ≤ 'f' → c.toNat - 'a'.toNat + 10 < 16) ∧
      ('A' ≤ c ∧ c ≤ 'F' → c.toNat - 'A'.toNat + 10 < 16) := by
    simp only [Char.le_def, UInt32.le_iff_toNat_le, Char.toNat]
    have values : '0'.val.toNat = 48 ∧ '9'.val.toNat = 57 ∧ 'a'.val.toNat = 97 ∧
        'f'.val.toNat = 102 ∧ 'A'.val.toNat = 65 ∧ 'F'.val.toNat = 70 := by decide
    omega
  rw [hexDigit] at read
  split at read
  next digit =>
    cases read
    exact points.1 digit
  next =>
    split at read
    next lower =>
      cases read
      exact points.2.1 lower
    next =>
      split at read
      next upper =>
        cases read
        exact points.2.2 upper
      next => cases read

theorem hexCode_lt {a b c d : Char} {n : Nat} (read : hexCode a b c d = some n) : n < 0x10000 := by
  simp only [hexCode, Option.bind_eq_bind, Option.bind_eq_some_iff, Option.pure_def,
    Option.some.injEq] at read
  obtain ⟨w, first, x, second, y, third, z, fourth, rfl⟩ := read
  have := hexDigit_lt first
  have := hexDigit_lt second
  have := hexDigit_lt third
  have := hexDigit_lt fourth
  omega

theorem fromU32_eq_none {n : Nat} (small : n < 0x10000) :
    fromU32 n = none ↔ isSurrogate n = true := by
  rw [fromU32, isSurrogate, Bool.and_eq_true, decide_eq_true_eq, decide_eq_true_eq]
  split
  next valid =>
    rw [Nat.isValidChar] at valid
    simp only [reduceCtorEq, false_iff]
    omega
  next invalid =>
    rw [Nat.isValidChar] at invalid
    simp only [true_iff]
    omega

theorem charUnits_fromU32 {n : Nat} {c : Char} (small : n < 0x10000) (read : fromU32 n = some c) :
    charUnits c = [UInt16.ofNat n] := by
  rw [fromU32, Option.ite_none_right_eq_some] at read
  obtain ⟨valid, same⟩ := read
  have value : c.val.toNat = n := by
    rw [← Option.some.inj same, Char.ofNat, dif_pos valid]
    rfl
  have less : c.val < 0x10000 := UInt32.lt_iff_toNat_lt.mpr (by rw [value]; exact small)
  rw [charUnits, if_pos less]
  congr 1
  apply UInt16.toNat_inj.mp
  rw [UInt32.toNat_toUInt16, value, UInt16.toNat_ofNat']

/-- A piece of a string: a character as it is, one after a backslash, or the number of one. -/
inductive Piece where
  | plain (c : Char) (quote : c ≠ '"') (backslash : c ≠ '\\')
  | short (e : Char) (other : e ≠ 'u')
  | unicode (a b c d : Char) (n : Nat) (code : hexCode a b c d = some n)

namespace Piece

def text : Piece → List Char
  | plain c _ _ => [c]
  | short e _ => ['\\', e]
  | unicode a b c d _ _ => ['\\', 'u', a, b, c, d]

def units : Piece → JsString
  | plain c _ _ => charUnits c
  | short e _ => charUnits (unescape e)
  | unicode _ _ _ _ n _ => [UInt16.ofNat n]

def char : Piece → Option Char
  | plain c _ _ => some c
  | short e _ => some (unescape e)
  | unicode _ _ _ _ n _ => fromU32 n

theorem units_of_char {piece : Piece} {c : Char} (stands : piece.char = some c) :
    piece.units = charUnits c := by
  cases piece with
  | plain d _ _ =>
    cases stands
    rfl
  | short e _ =>
    cases stands
    rfl
  | unicode _ _ _ _ n code => exact (charUnits_fromU32 (hexCode_lt code) stands).symm

theorem stringChars_text (piece : Piece) (rest val : List Char) :
    stringChars (piece.text ++ rest) false val =
      piece.char.bind fun c => stringChars rest false (val ++ [c]) := by
  cases piece with
  | plain c quote backslash =>
    rw [text, List.singleton_append, stringChars, if_neg backslash, if_neg quote]
    rfl
  | short e other =>
    rw [text, List.cons_append, List.singleton_append, stringChars, if_pos rfl, stringChars.eq_def]
    simp only [if_neg other, char, Option.bind_some]
  | unicode a b c d n code =>
    simp only [text, List.cons_append, List.nil_append, stringChars, if_pos, code, Option.bind_some,
      char]

theorem surrogateEscape_text (piece : Piece) (rest : List Char) :
    surrogateEscape (piece.text ++ rest) = (piece.char.isNone || surrogateEscape rest) := by
  cases piece with
  | plain c quote backslash =>
    rw [text, List.singleton_append, surrogateEscape.eq_def]
    simp only [if_neg backslash, char, Option.isNone_some, Bool.false_or]
  | short e other =>
    rw [text, List.cons_append, List.singleton_append, surrogateEscape.eq_def]
    simp only [if_pos, if_neg other, char, Option.isNone_some, Bool.false_or]
  | unicode a b c d n code =>
    have surrogate : (fromU32 n).isNone = isSurrogate n := by
      rw [Bool.eq_iff_iff, Option.isNone_iff_eq_none]
      exact fromU32_eq_none (hexCode_lt code)
    simp only [text, List.cons_append, List.nil_append, surrogateEscape, if_pos, code,
      Option.any_some, char, surrogate]

end Piece

def textOf (pieces : List Piece) : List Char := pieces.flatMap Piece.text

def unitsOf (pieces : List Piece) : JsString := pieces.flatMap Piece.units

/-- The characters of a string, if each piece stands for one. -/
def charsOf (pieces : List Piece) : Option (List Char) := pieces.mapM Piece.char

theorem charsOf_cons (piece : Piece) (pieces : List Piece) :
    charsOf (piece :: pieces) =
      piece.char.bind fun c => (charsOf pieces).map (c :: ·) := by
  rw [charsOf, List.mapM_cons, charsOf]
  cases piece.char with
  | none => rfl
  | some c => cases pieces.mapM Piece.char <;> rfl

theorem unitsOf_chars {pieces : List Piece} {chars : List Char} (read : charsOf pieces = some chars) :
    unitsOf pieces = chars.flatMap charUnits := by
  induction pieces generalizing chars with
  | nil =>
    cases read
    rfl
  | cons piece pieces ih =>
    rw [charsOf_cons, Option.bind_eq_some_iff] at read
    obtain ⟨c, first, later⟩ := read
    obtain ⟨rest, second, rfl⟩ := Option.map_eq_some_iff.mp later
    rw [unitsOf, List.flatMap_cons, ← unitsOf, ih second, piece.units_of_char first,
      List.flatMap_cons]

theorem stringChars_textOf (pieces : List Piece) (rest val : List Char) :
    stringChars (textOf pieces ++ '"' :: rest) false val =
      (charsOf pieces).map fun chars => (val ++ chars, rest) := by
  induction pieces generalizing val with
  | nil =>
    rw [textOf, List.flatMap_nil, List.nil_append, stringChars, if_neg (by decide), if_pos rfl]
    simp [charsOf]
  | cons piece pieces ih =>
    rw [textOf, List.flatMap_cons, ← textOf, List.append_assoc, piece.stringChars_text, charsOf_cons]
    cases piece.char with
    | none => rfl
    | some c =>
      rw [Option.bind_some, ih, Option.bind_some, Option.map_map]
      simp [Function.comp_def]

theorem surrogateEscape_textOf (pieces : List Piece) (rest : List Char) :
    surrogateEscape (textOf pieces ++ rest) = ((charsOf pieces).isNone || surrogateEscape rest) := by
  induction pieces with
  | nil => rfl
  | cons piece pieces ih =>
    rw [textOf, List.flatMap_cons, ← textOf, List.append_assoc, piece.surrogateEscape_text, ih,
      charsOf_cons]
    cases piece.char with
    | none => rfl
    | some c => rw [Option.bind_some, Option.isNone_map]; rfl

/-! ### Lists -/

def isBlank (c : Char) : Bool := c == ' ' || c == '\t' || c == '\n' || c == '\r'

/-- White space of JSON. -/
structure Gap where
  text : List Char
  blank : ∀ c ∈ text, isBlank c = true

theorem isWhitespace_of_isBlank {c : Char} (blank : isBlank c = true) : isWhitespace c = true := by
  simp only [isBlank, Bool.or_eq_true, beq_iff_eq] at blank
  rcases blank with ((rfl | rfl) | rfl) | rfl <;> decide

theorem Gap.white (gap : Gap) : ∀ c ∈ gap.text, isWhitespace c = true := fun c listed =>
  isWhitespace_of_isBlank (gap.blank c listed)

theorem Gap.surrogateEscape (gap : Gap) (rest : List Char) :
    surrogateEscape (gap.text ++ rest) = JsonStringArray.surrogateEscape rest := by
  obtain ⟨text, blank⟩ := gap
  induction text with
  | nil => rfl
  | cons c text ih =>
    have other : c ≠ '\\' := by
      rintro rfl
      exact absurd (blank '\\' List.mem_cons_self) (by decide)
    rw [List.cons_append, JsonStringArray.surrogateEscape.eq_def]
    simp only [if_neg other]
    exact ih fun d listed => blank d (List.mem_cons_of_mem c listed)

structure Item where
  before : Gap
  pieces : List Piece
  after : Gap

def Item.text (item : Item) : List Char :=
  item.before.text ++ '"' :: (textOf item.pieces ++ '"' :: item.after.text)

def Item.string (item : Item) : Option String := (charsOf item.pieces).map String.ofList

def itemsText : Item → List Item → List Char
  | item, [] => item.text
  | item, next :: items => item.text ++ ',' :: itemsText next items

inductive Body where
  | empty (gap : Gap)
  | items (first : Item) (rest : List Item)

namespace Body

def text : Body → List Char
  | empty gap => gap.text
  | items first rest => itemsText first rest

def units : Body → List JsString
  | empty _ => []
  | items first rest => (first :: rest).map fun item => unitsOf item.pieces

def strings : Body → Option (List String)
  | empty _ => some []
  | items first rest => (first :: rest).mapM Item.string

end Body

def listText (before : Gap) (body : Body) (after : Gap) : List Char :=
  before.text ++ '[' :: (body.text ++ ']' :: after.text)

private theorem stringsLoop_item (first : Item) (tail : List Char) (fuel : Nat) (out : List String) :
    stringsLoop (fuel + 1) (first.text ++ tail) out =
      match first.string with
      | none => some none
      | some s =>
        if (trimStart (first.after.text ++ tail)).isEmpty then some (some (out ++ [s]))
        else
          match stripPrefix [','] (trimStart (first.after.text ++ tail)) with
          | none => some none
          | some rest => stringsLoop fuel rest (out ++ [s]) := by
  have shape : first.text ++ tail = first.before.text ++
      '"' :: (textOf first.pieces ++ '"' :: (first.after.text ++ tail)) := by
    simp [Item.text]
  have quote : ∀ rest, stripPrefix ['"'] ('"' :: rest) = some rest := fun _ => stripPrefix_append
  rw [stringsLoop, shape, trimStart_append first.before.white (by decide), quote, Item.string]
  simp only [stringChars_textOf]
  cases charsOf first.pieces with
  | none => rfl
  | some chars =>
    simp only [Option.map_some, List.nil_append]

private theorem stringsLoop_items (first : Item) (items : List Item) {fuel : Nat}
    (enough : items.length < fuel) (out : List String) :
    stringsLoop fuel (itemsText first items) out =
      some (((first :: items).mapM Item.string).map (out ++ ·)) := by
  induction items generalizing first fuel out with
  | nil =>
    obtain ⟨fuel, rfl⟩ := Nat.exists_eq_add_of_lt enough
    have step := stringsLoop_item first [] (0 + fuel) out
    rw [List.append_nil, List.append_nil, trimStart_blank first.after.white] at step
    rw [itemsText, List.length_nil, step, List.mapM_cons, List.mapM_nil]
    cases first.string with
    | none => rfl
    | some s => rfl
  | cons next items ih =>
    obtain ⟨fuel, rfl⟩ := Nat.exists_eq_add_of_lt (Nat.zero_lt_of_lt enough)
    have step := stringsLoop_item first (',' :: itemsText next items) (0 + fuel) out
    have comma : ∀ rest, stripPrefix [','] (',' :: rest) = some rest := fun _ => stripPrefix_append
    rw [trimStart_append first.after.white (by decide), comma] at step
    rw [itemsText, step, List.mapM_cons]
    cases first.string with
    | none => rfl
    | some s =>
      rw [List.length_cons] at enough
      have later := @ih next (0 + fuel) (by omega) (out ++ [s])
      dsimp only
      rw [List.isEmpty_cons, if_neg Bool.false_ne_true, later]
      cases (next :: items).mapM Item.string with
      | none => rfl
      | some strings => simp

private theorem length_items (first : Item) (items : List Item) :
    items.length < (itemsText first items).length := by
  induction items generalizing first with
  | nil =>
    simp only [itemsText, Item.text, List.length_append, List.length_cons, List.length_nil]
    omega
  | cons next items ih =>
    have later := ih next
    rw [itemsText, List.length_append, List.length_cons, List.length_cons]
    omega

/-- A list in JSON is read as its strings, and refused if a piece is no character. -/
theorem parseJsonStringArray_text (before : Gap) (body : Body) (after : Gap) :
    parseJsonStringArray (String.ofList (listText before body after)) = some body.strings := by
  have trimmed : RustText.trim (listText before body after) = '[' :: body.text ++ [']'] := by
    have shape : '[' :: (body.text ++ ']' :: after.text) =
        '[' :: body.text ++ [']'] ++ after.text := by simp
    rw [RustText.trim, listText, trimStart_append before.white (by decide), shape,
      trimEnd_append after.white (by decide)]
  have inner : (stripPrefix ['['] ('[' :: body.text ++ [']'])).bind (stripSuffix [']']) =
      some body.text := by
    have opened : stripPrefix ['['] ('[' :: body.text ++ [']']) = some (body.text ++ [']']) :=
      stripPrefix_append
    rw [opened, Option.bind_some, stripSuffix_append]
  rw [parseJsonStringArray, String.toList_ofList, trimmed, inner]
  dsimp only
  cases body with
  | empty gap =>
    rw [Body.text, RustText.trim, trimStart_blank gap.white]
    rfl
  | items first rest =>
    have quote : '"' ∈ itemsText first rest := by cases rest <;> simp [itemsText, Item.text]
    have solid : (RustText.trim (itemsText first rest)).isEmpty = false := by
      rw [List.isEmpty_eq_false_iff]
      exact trim_ne_nil quote (by decide)
    rw [Body.text, solid, if_neg Bool.false_ne_true,
      stringsLoop_items first rest (Nat.lt_succ_of_lt (length_items first rest)), Body.strings]
    cases (first :: rest).mapM Item.string <;> rfl

end CodeGraph.Resolution.JsonStringArray
