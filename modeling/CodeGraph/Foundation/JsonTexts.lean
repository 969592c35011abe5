import CodeGraph.Foundation.Json

/-!
# Texts of JSON values

A JSON value as it is written: its tokens, and what stands between them. What stands between the
tokens and what stands before a closing bracket are parameters, so that the same trees are texts of
JSON and of its dialects. `JSON.parse` reads the value of every tree with whitespace in these places.
-/
namespace CodeGraph.JsonTexts

open Text Json

/-! ### Tokens -/

def numberUnit (u : UInt16) : Bool := isDigit u || (utf16 "+-.eE").contains u

structure NumberToken where
  text : JsString
  mantissa : Int
  exponent : Int
  plain : ∀ u ∈ text, numberUnit u = true
  reads : number text = some (num mantissa exponent, [])

def escapes : List (UInt16 × UInt16) :=
  [(unit '"', unit '"'), (unit '\\', unit '\\'), (unit '/', unit '/'), (unit 'b', 8), (unit 'f', 12),
    (unit 'n', 10), (unit 'r', 13), (unit 't', 9)]

inductive StringPart where
  | plain (u : UInt16) (printed : ¬u < 0x20) (quote : u ≠ unit '"') (backslash : u ≠ unit '\\')
  | escape (e v : UInt16) (listed : (e, v) ∈ escapes)
  | unicode (a b c d va vb vc vd : UInt16) (first : hexValue a = some va)
      (second : hexValue b = some vb) (third : hexValue c = some vc) (fourth : hexValue d = some vd)

namespace StringPart

def text : StringPart → JsString
  | plain u _ _ _ => [u]
  | escape e _ _ => [unit '\\', e]
  | unicode a b c d _ _ _ _ _ _ _ _ => [unit '\\', unit 'u', a, b, c, d]

def value : StringPart → UInt16
  | plain u _ _ _ => u
  | escape _ v _ => v
  | unicode _ _ _ _ va vb vc vd _ _ _ _ => va * 0x1000 + vb * 0x100 + vc * 0x10 + vd

end StringPart

abbrev StringToken := List StringPart

namespace StringToken

def text (token : StringToken) : JsString := token.flatMap StringPart.text

def value (token : StringToken) : JsString := token.map StringPart.value

end StringToken

/-! ### Trees -/

/-- The parts of a text: a value, the items or members of a list, and what follows one of them. -/
inductive Part where
  | value | items | moreItems | members | moreMembers

/-- A text with gaps `G` between its tokens, and with tails `T` before its closing brackets. -/
inductive Written (G T : Type) : Part → Type where
  | null : Written G T .value
  | bool (b : Bool) : Written G T .value
  | number (token : NumberToken) : Written G T .value
  | string (token : StringToken) : Written G T .value
  | noItems (gap : G) (tail : T) : Written G T .value
  | array (items : Written G T .items) : Written G T .value
  | noMembers (gap : G) (tail : T) : Written G T .value
  | object (members : Written G T .members) : Written G T .value
  | item (before : G) (value : Written G T .value) (after : G) (more : Written G T .moreItems) :
      Written G T .items
  | endItems (tail : T) : Written G T .moreItems
  | nextItem (items : Written G T .items) : Written G T .moreItems
  | member (before : G) (key : StringToken) (behind inside : G) (value : Written G T .value)
      (after : G) (more : Written G T .moreMembers) : Written G T .members
  | endMembers (tail : T) : Written G T .moreMembers
  | nextMember (members : Written G T .members) : Written G T .moreMembers

abbrev Meaning : Part → Type
  | .value => Json
  | .items | .moreItems => List Json
  | .members | .moreMembers => List (JsString × Json)

namespace Written

variable {G T : Type}

def value {p : Part} : Written G T p → Meaning p
  | null => Json.null
  | bool b => Json.bool b
  | number token => Json.num token.mantissa token.exponent
  | string token => Json.str token.value
  | noItems _ _ => Json.arr []
  | array items => Json.arr items.value
  | noMembers _ _ => Json.obj []
  | object members => Json.obj members.value
  | item _ v _ more => List.cons (α := Json) v.value more.value
  | endItems _ => ([] : List Json)
  | nextItem items => items.value
  | member _ key _ _ v _ more => List.cons (α := JsString × Json) (key.value, v.value) more.value
  | endMembers _ => ([] : List (JsString × Json))
  | nextMember members => members.value

def strings {p : Part} : Written G T p → List StringToken
  | null | bool _ | number _ | noItems _ _ | noMembers _ _ | endItems _ | endMembers _ => []
  | string token => [token]
  | array items => items.strings
  | object members => members.strings
  | item _ v _ more => v.strings ++ more.strings
  | nextItem items => items.strings
  | member _ key _ _ v _ more => key :: (v.strings ++ more.strings)
  | nextMember members => members.strings

def map {H U : Type} (f : G → H) (g : T → U) {p : Part} : Written G T p → Written H U p
  | null => null
  | bool b => bool b
  | number token => number token
  | string token => string token
  | noItems gap tail => noItems (f gap) (g tail)
  | array items => array (items.map f g)
  | noMembers gap tail => noMembers (f gap) (g tail)
  | object members => object (members.map f g)
  | item before v after more => item (f before) (v.map f g) (f after) (more.map f g)
  | endItems tail => endItems (g tail)
  | nextItem items => nextItem (items.map f g)
  | member before key behind inside v after more =>
    member (f before) key (f behind) (f inside) (v.map f g) (f after) (more.map f g)
  | endMembers tail => endMembers (g tail)
  | nextMember members => nextMember (members.map f g)

@[simp]
theorem value_map {H U : Type} (f : G → H) (g : T → U) {p : Part} (w : Written G T p) :
    (w.map f g).value = w.value := by
  induction w <;> simp only [map, value, *]

@[simp]
theorem strings_map {H U : Type} (f : G → H) (g : T → U) {p : Part} (w : Written G T p) :
    (w.map f g).strings = w.strings := by
  induction w <;> simp only [map, strings, *]

variable (gap : G → JsString) (last : T → JsString)

def text {p : Part} : Written G T p → JsString
  | null => utf16 "null"
  | bool b => if b then utf16 "true" else utf16 "false"
  | number token => token.text
  | string token => unit '"' :: (token.text ++ [unit '"'])
  | noItems g tail => unit '[' :: (gap g ++ last tail ++ [unit ']'])
  | array items => unit '[' :: items.text
  | noMembers g tail => unit '\x7b' :: (gap g ++ last tail ++ [unit '\x7d'])
  | object members => unit '\x7b' :: members.text
  | item before v after more => gap before ++ (v.text ++ (gap after ++ more.text))
  | endItems tail => last tail ++ [unit ']']
  | nextItem items => unit ',' :: items.text
  | member before key behind inside v after more =>
    gap before ++ unit '"' :: (key.text ++ unit '"' :: (gap behind ++ unit ':' ::
      (gap inside ++ (v.text ++ (gap after ++ more.text)))))
  | endMembers tail => last tail ++ [unit '\x7d']
  | nextMember members => unit ',' :: members.text

end Written

/-! ### Reading tokens -/

def Ends (rest : JsString) : Prop := ∀ u s, rest = u :: s → numberUnit u = false

theorem Ends.not_digit {u : UInt16} {s : JsString} (ends : Ends (u :: s)) : isDigit u = false := by
  have other := ends u s rfl
  simp only [numberUnit, Bool.or_eq_false_iff] at other
  exact other.1

theorem Ends.not_unit {u : UInt16} {s : JsString} (ends : Ends (u :: s)) {c : Char}
    (listed : (utf16 "+-.eE").contains (unit c) = true) : (u == unit c) = false := by
  have other := ends u s rfl
  simp only [numberUnit, Bool.or_eq_false_iff] at other
  rw [beq_eq_false_iff_ne]
  rintro rfl
  exact Bool.false_ne_true (other.2.symm.trans listed)

theorem digits_cons (u : UInt16) (s : JsString) :
    digits (u :: s) = if isDigit u then (u :: (digits s).1, (digits s).2) else ([], u :: s) := by
  simp only [digits, List.span_eq_takeWhile_dropWhile, List.takeWhile_cons, List.dropWhile_cons]
  split <;> rfl

theorem digits_append (s : JsString) {rest : JsString} (ends : Ends rest) :
    digits (s ++ rest) = ((digits s).1, (digits s).2 ++ rest) := by
  induction s with
  | nil =>
    cases rest with
    | nil => rfl
    | cons u rest =>
      rw [List.nil_append, digits_cons, if_neg (by simp [ends.not_digit])]
      rfl
  | cons u s ih =>
    rw [List.cons_append, digits_cons, digits_cons, ih]
    split <;> rfl

theorem fraction_append {s t rest : JsString} {ds : List UInt16} (read : fraction s = some (ds, t))
    (ends : Ends rest) : fraction (s ++ rest) = some (ds, t ++ rest) := by
  cases s with
  | nil =>
    cases read
    cases rest with
    | nil => rfl
    | cons u rest =>
      have other := ends.not_unit (c := '.') (by decide)
      simp [fraction, other]
  | cons u s =>
    rw [fraction] at read
    rw [List.cons_append, fraction]
    split
    next point =>
      rw [if_pos point] at read
      cases found : digits s with
      | mk front behind =>
        rw [found] at read
        rw [digits_append s ends, found]
        cases front with
        | nil => cases read
        | cons d front =>
          cases read
          rfl
    next other =>
      rw [if_neg other] at read
      cases read
      rfl

private def exponentSign : JsString → Int × JsString
  | v :: t => if v == unit '-' then (-1, t) else if v == unit '+' then (1, t) else (1, v :: t)
  | [] => (1, [])

private def exponentOf (sign : Int) : JsString × JsString → Option (Int × JsString)
  | ([], _) => none
  | (ds, rest) => some (sign * natOf ds, rest)

private theorem exponentPart_cons (u : UInt16) (s : JsString) :
    exponentPart (u :: s) =
      if u == unit 'e' || u == unit 'E' then
        if (digits (exponentSign s).2).1 = [] then none
        else some ((exponentSign s).1 * natOf (digits (exponentSign s).2).1,
          (digits (exponentSign s).2).2)
      else some (0, u :: s) := by
  have signs : exponentPart (u :: s) =
      if u == unit 'e' || u == unit 'E' then
        exponentOf (exponentSign s).1 (digits (exponentSign s).2)
      else some (0, u :: s) := by
    cases s <;> rfl
  rw [signs]
  cases digits (exponentSign s).2 with
  | mk ds rest => cases ds <;> rfl

private theorem exponentSign_append {s : JsString} (rest : JsString)
    (some_ : (digits (exponentSign s).2).1 ≠ []) :
    exponentSign (s ++ rest) = ((exponentSign s).1, (exponentSign s).2 ++ rest) := by
  cases s with
  | nil => exact absurd rfl some_
  | cons v t =>
    simp only [exponentSign, List.cons_append]
    split
    · rfl
    · split <;> rfl

theorem exponentPart_append {s t rest : JsString} {e : Int} (read : exponentPart s = some (e, t))
    (ends : Ends rest) : exponentPart (s ++ rest) = some (e, t ++ rest) := by
  cases s with
  | nil =>
    cases read
    cases rest with
    | nil => rfl
    | cons u rest =>
      have lower := ends.not_unit (c := 'e') (by decide)
      have upper := ends.not_unit (c := 'E') (by decide)
      simp [exponentPart_cons, lower, upper]
  | cons u s =>
    rw [exponentPart_cons] at read
    rw [List.cons_append, exponentPart_cons]
    split
    next letter =>
      rw [if_pos letter] at read
      obtain ⟨some_, parts⟩ := Option.ite_none_left_eq_some.mp read
      cases parts
      rw [exponentSign_append rest some_, digits_append _ ends, if_neg some_]
    next other =>
      rw [if_neg other] at read
      cases read
      rfl

private def numberSign : JsString → Int × JsString
  | u :: t => if u == unit '-' then (-1, t) else (1, u :: t)
  | [] => (1, [])

private def numberOf (sign : Int × JsString) : Option (Json × JsString) := do
  let (whole, s) := digits sign.2
  if whole.isEmpty || (whole.head? == some (unit '0') && 1 < whole.length) then none
  let (frac, s) ← fraction s
  let (e, s) ← exponentPart s
  return (num (sign.1 * natOf (whole ++ frac)) (e - frac.length), s)

private theorem number_eq (s : JsString) :
    number s =
      if (digits (numberSign s).2).1.isEmpty ||
          ((digits (numberSign s).2).1.head? == some (unit '0') &&
            1 < (digits (numberSign s).2).1.length) then none
      else (fraction (digits (numberSign s).2).2).bind fun f => (exponentPart f.2).bind fun e =>
        some (num ((numberSign s).1 * natOf ((digits (numberSign s).2).1 ++ f.1)) (e.1 - f.1.length),
          e.2) := by
  have signs : number s = numberOf (numberSign s) := by
    cases s <;> rfl
  rw [signs, numberOf]
  dsimp only
  split <;> rfl

theorem number_value {s : JsString} {r : Json × JsString} (read : number s = some r) :
    ∃ m e, r.1 = num m e := by
  rw [number_eq] at read
  obtain ⟨_, parts⟩ := Option.ite_none_left_eq_some.mp read
  obtain ⟨f, _, rest⟩ := Option.bind_eq_some_iff.mp parts
  obtain ⟨e, _, same⟩ := Option.bind_eq_some_iff.mp rest
  cases same
  exact ⟨_, _, rfl⟩

private theorem numberSign_append {s : JsString} (rest : JsString)
    (some_ : (digits (numberSign s).2).1 ≠ []) :
    numberSign (s ++ rest) = ((numberSign s).1, (numberSign s).2 ++ rest) := by
  cases s with
  | nil => exact absurd rfl some_
  | cons v t =>
    simp only [numberSign, List.cons_append]
    split <;> rfl

theorem number_append {s rest : JsString} {v : Json} (read : number s = some (v, []))
    (ends : Ends rest) : number (s ++ rest) = some (v, rest) := by
  rw [number_eq] at read
  obtain ⟨good, parts⟩ := Option.ite_none_left_eq_some.mp read
  obtain ⟨⟨frac, behind⟩, point, parts⟩ := Option.bind_eq_some_iff.mp parts
  obtain ⟨⟨e, last⟩, exponent, parts⟩ := Option.bind_eq_some_iff.mp parts
  cases parts
  have some_ : (digits (numberSign s).2).1 ≠ [] := by
    intro none_
    simp [none_] at good
  rw [number_eq, numberSign_append rest some_]
  simp only [digits_append _ ends, if_neg good, fraction_append point ends, Option.bind_some,
    exponentPart_append exponent ends, List.nil_append]

private theorem stringRest_escape (fuel : Nat) {e v : UInt16} (s : JsString)
    (listed : (e, v) ∈ escapes) :
    stringRest (fuel + 1) (unit '\\' :: e :: s) =
      (stringRest fuel s).map fun (rest, s) => (v :: rest, s) := by
  have both (v : UInt16) : (do
      let (rest, s) ← stringRest fuel s
      return (v :: rest, s)) = (stringRest fuel s).map fun (rest, s) => (v :: rest, s) := by
    cases stringRest fuel s <;> rfl
  simp only [escapes, List.mem_cons, List.not_mem_nil, or_false, Prod.mk.injEq] at listed
  rcases listed with ⟨rfl, rfl⟩ | ⟨rfl, rfl⟩ | ⟨rfl, rfl⟩ | ⟨rfl, rfl⟩ | ⟨rfl, rfl⟩ | ⟨rfl, rfl⟩ |
    ⟨rfl, rfl⟩ | ⟨rfl, rfl⟩
  all_goals exact both _

private theorem stringRest_unicode (fuel : Nat) {a b c d va vb vc vd : UInt16} (s : JsString)
    (first : hexValue a = some va) (second : hexValue b = some vb) (third : hexValue c = some vc)
    (fourth : hexValue d = some vd) :
    stringRest (fuel + 1) (unit '\\' :: unit 'u' :: a :: b :: c :: d :: s) =
      (stringRest fuel s).map fun (rest, s) =>
        ((va * 0x1000 + vb * 0x100 + vc * 0x10 + vd) :: rest, s) := by
  have start : stringRest (fuel + 1) (unit '\\' :: unit 'u' :: a :: b :: c :: d :: s) = (do
      let a ← hexValue a
      let b ← hexValue b
      let c ← hexValue c
      let d ← hexValue d
      let (rest, s) ← stringRest fuel s
      return ((a * 0x1000 + b * 0x100 + c * 0x10 + d) :: rest, s)) := rfl
  rw [start, first, second, third, fourth]
  simp only [Option.bind_eq_bind, Option.bind_some]
  cases stringRest fuel s <;> rfl

theorem stringRest_part (part : StringPart) (fuel : Nat) (s : JsString) :
    stringRest (fuel + 1) (part.text ++ s) =
      (stringRest fuel s).map fun (rest, s) => (part.value :: rest, s) := by
  cases part with
  | plain u printed quote backslash =>
    exact stringRest_plain fuel (beq_false_of_ne quote) printed (beq_false_of_ne backslash)
  | escape e v listed => exact stringRest_escape fuel s listed
  | unicode a b c d va vb vc vd first second third fourth =>
    exact stringRest_unicode fuel s first second third fourth

theorem stringRest_text (token : StringToken) {fuel : Nat} (rest : JsString)
    (enough : token.text.length < fuel) :
    stringRest fuel (token.text ++ unit '"' :: rest) = some (token.value, rest) := by
  obtain ⟨fuel, rfl⟩ : ∃ n, fuel = n + 1 := ⟨fuel - 1, by omega⟩
  induction token generalizing fuel with
  | nil => rfl
  | cons part token ih =>
    have some_ : 0 < part.text.length := by cases part <;> simp [StringPart.text]
    have split : StringToken.text (part :: token) = part.text ++ StringToken.text token :=
      List.flatMap_cons
    rw [split, List.length_append] at enough
    obtain ⟨fuel, rfl⟩ : ∃ n, fuel = n + 1 := ⟨fuel - 1, by omega⟩
    rw [split, List.append_assoc, stringRest_part, ih fuel (by omega)]
    rfl

/-! ### Reading texts -/

structure Spaces where
  text : JsString
  blank : ∀ u ∈ text, isSpace u = true

/-- A text of JSON: whitespace between the tokens. -/
abbrev JsonText := Written Spaces Spaces

def JsonText.text {p : Part} (w : JsonText p) : JsString := Written.text Spaces.text Spaces.text w

theorem skipSpace_append {s : JsString} (gap : Spaces) : skipSpace (gap.text ++ s) = skipSpace s :=
  List.dropWhile_append_of_pos gap.blank

theorem elements_skipSpace (fuel : Nat) (s : JsString) :
    elements fuel (skipSpace s) = elements fuel s := by
  have idempotent : skipSpace (skipSpace s) = skipSpace s := List.dropWhile_idempotent isSpace s
  cases fuel with
  | zero => rfl
  | succ fuel => rw [elements, elements, idempotent]

theorem members_skipSpace (fuel : Nat) (s : JsString) :
    members fuel (skipSpace s) = members fuel s := by
  have idempotent : skipSpace (skipSpace s) = skipSpace s := List.dropWhile_idempotent isSpace s
  cases fuel with
  | zero => rfl
  | succ fuel => rw [members, members, idempotent]

private def afterItem (fuel : Nat) (v : Json) (s : JsString) : Option (List Json × JsString) :=
  match skipSpace s with
  | u :: s =>
    if u == unit ']' then some ([v], s)
    else if u == unit ',' then (elements fuel s).map fun (vs, s) => (v :: vs, s)
    else none
  | [] => none

private theorem elements_succ (fuel : Nat) (s : JsString) :
    elements (fuel + 1) s =
      (Json.value fuel (skipSpace s)).bind fun (v, s) => afterItem fuel v s := by
  rw [elements]
  cases Json.value fuel (skipSpace s) with
  | none => rfl
  | some read =>
    obtain ⟨v, s⟩ := read
    simp only [Option.bind_eq_bind, Option.bind_some, afterItem]
    cases skipSpace s with
    | nil => rfl
    | cons u s =>
      dsimp only
      split
      · rfl
      · split
        · cases elements fuel s <;> rfl
        · rfl

private def afterMember (fuel : Nat) (m : JsString × Json) (s : JsString) :
    Option (List (JsString × Json) × JsString) :=
  match skipSpace s with
  | u :: s =>
    if u == unit '\x7d' then some ([m], s)
    else if u == unit ',' then (members fuel s).map fun (ms, s) => (m :: ms, s)
    else none
  | [] => none

private theorem members_succ {fuel : Nat} {s t rest : JsString} {key : JsString}
    (opened : skipSpace s = unit '"' :: t)
    (quoted : stringRest t.length.succ t = some (key, rest)) {behind : JsString}
    (colon : skipSpace rest = unit ':' :: behind) :
    members (fuel + 1) s =
      (Json.value fuel (skipSpace behind)).bind fun (v, s) => afterMember fuel (key, v) s := by
  rw [members, opened]
  simp only [bne_self_eq_false, Bool.false_eq_true, if_false, quoted, Option.bind_eq_bind,
    Option.bind_some, colon]
  cases Json.value fuel (skipSpace behind) with
  | none => rfl
  | some read =>
    obtain ⟨v, s⟩ := read
    simp only [Option.bind_some, afterMember]
    cases skipSpace s with
    | nil => rfl
    | cons u s =>
      dsimp only
      split
      · rfl
      · split
        · cases members fuel s <;> rfl
        · rfl

/-- A part of a text is read whole, with fuel for twice its units. -/
private def Reads : (p : Part) → JsonText p → Prop
  | .value, w => ∀ fuel rest, 2 * w.text.length ≤ fuel → Ends rest →
    Json.value fuel (w.text ++ rest) = some (w.value, rest)
  | .items, w => ∀ fuel rest, 2 * w.text.length < fuel →
    elements fuel (w.text ++ rest) = some (w.value, rest)
  | .moreItems, w => ∀ fuel v rest, 2 * w.text.length < fuel →
    afterItem fuel v (w.text ++ rest) = some (v :: (w.value : List Json), rest)
  | .members, w => ∀ fuel rest, 2 * w.text.length < fuel →
    members fuel (w.text ++ rest) = some (w.value, rest)
  | .moreMembers, w => ∀ fuel m rest, 2 * w.text.length < fuel →
    afterMember fuel m (w.text ++ rest) = some (m :: (w.value : List (JsString × Json)), rest)

def opens (u : UInt16) : Bool :=
  !isWhiteSpace u && !(u == unit ']') && !(u == unit '\x7d')

theorem isWhiteSpace_of_isSpace {u : UInt16} (blank : isSpace u = true) : isWhiteSpace u = true := by
  simp only [isSpace, Bool.or_eq_true, beq_iff_eq] at blank
  rcases blank with ((rfl | rfl) | rfl) | rfl <;> decide

theorem opens_solid {u : UInt16} (opened : opens u = true) :
    isSpace u = false ∧ (u == unit ']') = false ∧ (u == unit '\x7d') = false := by
  simp only [opens, Bool.and_eq_true, Bool.not_eq_true'] at opened
  refine ⟨?_, opened.1.2, opened.2⟩
  rw [Bool.eq_false_iff]
  exact fun blank => Bool.false_ne_true (opened.1.1.symm.trans (isWhiteSpace_of_isSpace blank))

private theorem number_head {s : JsString} {v : Json} (read : number s = some (v, [])) :
    ∃ u t, s = u :: t ∧ (u = unit '-' ∨ isDigit u = true) := by
  rw [number_eq] at read
  obtain ⟨good, _⟩ := Option.ite_none_left_eq_some.mp read
  cases s with
  | nil => exact absurd rfl good
  | cons u t =>
    refine ⟨u, t, rfl, ?_⟩
    by_cases minus : u = unit '-'
    · exact .inl minus
    · by_cases digit : isDigit u = true
      · exact .inr digit
      · have whole : numberSign (u :: t) = (1, u :: t) := by
          simp only [numberSign, beq_iff_eq, minus, if_false]
        rw [whole, digits_cons, if_neg digit] at good
        exact absurd rfl good

private theorem opens_digit {u : UInt16} (digit : unit '0' ≤ u ∧ u ≤ unit '9') : opens u = true := by
  have all : ∀ k : Fin 10, opens (UInt16.ofNat (48 + k)) = true := by decide
  have low : 48 ≤ u.toNat := UInt16.le_iff_toNat_le.mp digit.1
  have high : u.toNat ≤ 57 := UInt16.le_iff_toNat_le.mp digit.2
  have here := all ⟨u.toNat - 48, by omega⟩
  rwa [Nat.add_sub_cancel' low, UInt16.ofNat_toNat] at here

theorem text_head {G T : Type} (gap : G → JsString) (last : T → JsString)
    (w : Written G T .value) : ∃ u s, w.text gap last = u :: s ∧ opens u = true := by
  cases w with
  | null => exact ⟨_, _, null_text, by decide⟩
  | bool b =>
    cases b with
    | true => exact ⟨_, _, true_text, by decide⟩
    | false => exact ⟨_, _, false_text, by decide⟩
  | number token =>
    obtain ⟨u, s, text, starts⟩ := number_head token.reads
    refine ⟨u, s, text, ?_⟩
    rcases starts with rfl | digit
    · decide
    · simp only [isDigit, Bool.and_eq_true, decide_eq_true_eq] at digit
      exact opens_digit digit
  | string token => exact ⟨_, _, rfl, by decide⟩
  | noItems gap tail => exact ⟨_, _, rfl, by decide⟩
  | array items => exact ⟨_, _, rfl, by decide⟩
  | noMembers gap tail => exact ⟨_, _, rfl, by decide⟩
  | object members => exact ⟨_, _, rfl, by decide⟩

private theorem skipSpace_value (gap : Spaces) (w : JsonText .value) (rest : JsString) :
    skipSpace (gap.text ++ (w.text ++ rest)) = w.text ++ rest := by
  obtain ⟨u, s, text, opened⟩ := text_head Spaces.text Spaces.text w
  rw [skipSpace_append, JsonText.text, text, List.cons_append, skipSpace_cons (opens_solid opened).1]

private theorem numberUnit_space {u : UInt16} (blank : isSpace u = true) : numberUnit u = false := by
  simp only [isSpace, Bool.or_eq_true, beq_iff_eq] at blank
  rcases blank with ((rfl | rfl) | rfl) | rfl <;> decide

private theorem ends_after (gap : Spaces) {rest : JsString} (ends : Ends rest) :
    Ends (gap.text ++ rest) := by
  intro u s same
  cases text : gap.text with
  | nil =>
    rw [text] at same
    exact ends u s same
  | cons v t =>
    rw [text, List.cons_append] at same
    cases same
    exact numberUnit_space (gap.blank u (text ▸ List.mem_cons_self))

private theorem ends_cons {u : UInt16} {s : JsString} (solid : numberUnit u = false) :
    Ends (u :: s) := by
  intro v t same
  cases same
  exact solid

private theorem ends_moreItems (w : JsonText .moreItems) (rest : JsString) :
    Ends (w.text ++ rest) := by
  cases w with
  | endItems tail =>
    rw [JsonText.text, Written.text, List.append_assoc]
    exact ends_after tail (ends_cons (by decide))
  | nextItem items => exact ends_cons (by decide)

private theorem ends_moreMembers (w : JsonText .moreMembers) (rest : JsString) :
    Ends (w.text ++ rest) := by
  cases w with
  | endMembers tail =>
    rw [JsonText.text, Written.text, List.append_assoc]
    exact ends_after tail (ends_cons (by decide))
  | nextMember members => exact ends_cons (by decide)

private theorem afterItem_gap (fuel : Nat) (v : Json) (gap : Spaces) (s : JsString) :
    afterItem fuel v (gap.text ++ s) = afterItem fuel v s := by
  rw [afterItem, afterItem, skipSpace_append]

private theorem afterMember_gap (fuel : Nat) (m : JsString × Json) (gap : Spaces) (s : JsString) :
    afterMember fuel m (gap.text ++ s) = afterMember fuel m s := by
  rw [afterMember, afterMember, skipSpace_append]

private theorem skipSpace_items (w : JsonText .items) (rest : JsString) :
    ∃ u s, skipSpace (w.text ++ rest) = u :: s ∧ (u == unit ']') = false := by
  cases w with
  | item before v after more =>
    obtain ⟨u, s, head, opened⟩ := text_head Spaces.text Spaces.text v
    have text : JsonText.text (.item before v after more) =
        before.text ++ (JsonText.text v ++ (after.text ++ JsonText.text more)) := rfl
    rw [text, List.append_assoc, List.append_assoc, skipSpace_value, JsonText.text, head]
    exact ⟨u, _, rfl, (opens_solid opened).2.1⟩

private theorem skipSpace_members (w : JsonText .members) (rest : JsString) :
    ∃ s, skipSpace (w.text ++ rest) = unit '"' :: s := by
  cases w with
  | member before key behind inside v after more =>
    refine ⟨?_, ?_⟩
    rotate_left
    · rw [JsonText.text, Written.text, List.append_assoc, skipSpace_append, List.cons_append,
        skipSpace_cons rfl]

private theorem reads_part {p : Part} (w : JsonText p) : Reads p w := by
  induction w with
  | null =>
    intro fuel rest enough _
    obtain ⟨fuel, rfl⟩ : ∃ n, fuel = n + 1 := ⟨fuel - 1, by
      have size : (JsonText.text .null).length = 4 := by decide
      omega⟩
    rw [JsonText.text, Written.text, null_text]
    rfl
  | bool b =>
    intro fuel rest enough _
    obtain ⟨fuel, rfl⟩ : ∃ n, fuel = n + 1 := ⟨fuel - 1, by
      have size : 4 ≤ (JsonText.text (.bool b)).length := by cases b <;> decide
      omega⟩
    cases b with
    | true =>
      rw [JsonText.text, Written.text, if_pos rfl, true_text]
      rfl
    | false =>
      rw [JsonText.text, Written.text, if_neg (by decide), false_text]
      rfl
  | number token =>
    intro fuel rest enough ends
    obtain ⟨u, s, text, starts⟩ := number_head token.reads
    have whole : JsonText.text (.number token) = u :: s := text
    rw [whole, List.length_cons] at enough
    obtain ⟨fuel, rfl⟩ : ∃ n, fuel = n + 1 := ⟨fuel - 1, by omega⟩
    have read := number_append token.reads ends
    rw [text] at read
    rw [whole, List.cons_append, value_number fuel _ starts]
    exact read
  | string token =>
    intro fuel rest enough _
    have whole : JsonText.text (.string token) = unit '"' :: (token.text ++ [unit '"']) := rfl
    rw [whole, List.length_cons] at enough
    obtain ⟨fuel, rfl⟩ : ∃ n, fuel = n + 1 := ⟨fuel - 1, by omega⟩
    have quoted : stringRest (token.text ++ unit '"' :: rest).length.succ
        (token.text ++ unit '"' :: rest) = some (token.value, rest) :=
      stringRest_text token rest (by
        rw [List.length_append]
        omega)
    rw [whole, List.cons_append, List.append_assoc, List.singleton_append]
    simp only [Json.value, beq_self_eq_true, if_true, quoted, Option.map_some]
    rfl
  | noItems gap tail =>
    intro fuel rest enough _
    have whole : JsonText.text (.noItems gap tail) =
        unit '[' :: (gap.text ++ tail.text ++ [unit ']']) := rfl
    rw [whole, List.length_cons] at enough
    obtain ⟨fuel, rfl⟩ : ∃ n, fuel = n + 1 := ⟨fuel - 1, by omega⟩
    have closed : skipSpace (gap.text ++ (tail.text ++ unit ']' :: rest)) = unit ']' :: rest := by
      rw [skipSpace_append, skipSpace_append, skipSpace_cons rfl]
    rw [whole, List.cons_append, List.append_assoc, List.append_assoc, List.singleton_append]
    simp only [Json.value, show (unit '[' == unit '"') = false from rfl, Bool.false_eq_true,
      if_false, beq_self_eq_true, if_true, closed]
    rfl
  | array items ih =>
    intro fuel rest enough _
    have whole : JsonText.text (.array items) = unit '[' :: JsonText.text items := rfl
    rw [whole, List.length_cons] at enough
    obtain ⟨fuel, rfl⟩ : ∃ n, fuel = n + 1 := ⟨fuel - 1, by omega⟩
    obtain ⟨u, s, first, open_⟩ := skipSpace_items items rest
    have read := ih fuel rest (by omega)
    rw [← elements_skipSpace, first] at read
    rw [whole, List.cons_append]
    simp only [Json.value, show (unit '[' == unit '"') = false from rfl, Bool.false_eq_true,
      if_false, beq_self_eq_true, if_true, first, open_, read, Option.map_some]
    rfl
  | noMembers gap tail =>
    intro fuel rest enough _
    have whole : JsonText.text (.noMembers gap tail) =
        unit '\x7b' :: (gap.text ++ tail.text ++ [unit '\x7d']) := rfl
    rw [whole, List.length_cons] at enough
    obtain ⟨fuel, rfl⟩ : ∃ n, fuel = n + 1 := ⟨fuel - 1, by omega⟩
    have closed : skipSpace (gap.text ++ (tail.text ++ unit '\x7d' :: rest)) = unit '\x7d' :: rest := by
      rw [skipSpace_append, skipSpace_append, skipSpace_cons rfl]
    rw [whole, List.cons_append, List.append_assoc, List.append_assoc, List.singleton_append]
    simp only [Json.value, show (unit '\x7b' == unit '"') = false from rfl,
      show (unit '\x7b' == unit '[') = false from rfl, Bool.false_eq_true, if_false,
      beq_self_eq_true, if_true, closed]
    rfl
  | object members ih =>
    intro fuel rest enough _
    have whole : JsonText.text (.object members) = unit '\x7b' :: JsonText.text members := rfl
    rw [whole, List.length_cons] at enough
    obtain ⟨fuel, rfl⟩ : ∃ n, fuel = n + 1 := ⟨fuel - 1, by omega⟩
    obtain ⟨s, first⟩ := skipSpace_members members rest
    have read := ih fuel rest (by omega)
    rw [← members_skipSpace, first] at read
    rw [whole, List.cons_append]
    simp only [Json.value, show (unit '\x7b' == unit '"') = false from rfl,
      show (unit '\x7b' == unit '[') = false from rfl, Bool.false_eq_true, if_false,
      beq_self_eq_true, if_true, first, show (unit '"' == unit '\x7d') = false from rfl, read,
      Option.map_some]
    rfl
  | item before v after more ihv ihm =>
    intro fuel rest enough
    obtain ⟨fuel, rfl⟩ : ∃ n, fuel = n + 1 := ⟨fuel - 1, by omega⟩
    have text : JsonText.text (.item before v after more) =
        before.text ++ (JsonText.text v ++ (after.text ++ JsonText.text more)) := rfl
    obtain ⟨u, s, head, _⟩ := text_head Spaces.text Spaces.text v
    have some_ : 0 < (JsonText.text v).length := by
      rw [JsonText.text, head]
      exact Nat.succ_pos _
    rw [text] at enough ⊢
    simp only [List.length_append] at enough
    simp only [List.append_assoc]
    rw [elements_succ, skipSpace_value,
      ihv fuel _ (by omega) (ends_after after (ends_moreItems more rest)), Option.bind_some]
    dsimp only
    rw [afterItem_gap, ihm fuel _ rest (by omega)]
    rfl
  | endItems tail =>
    intro fuel v rest _
    have text : JsonText.text (.endItems tail) = tail.text ++ [unit ']'] := rfl
    rw [text, List.append_assoc, afterItem_gap]
    rfl
  | nextItem items ih =>
    intro fuel v rest enough
    have text : JsonText.text (.nextItem items) = unit ',' :: JsonText.text items := rfl
    rw [text, List.length_cons] at enough
    rw [text, List.cons_append, afterItem, skipSpace_cons rfl]
    simp only [show (unit ',' == unit ']') = false from rfl, Bool.false_eq_true, if_false,
      beq_self_eq_true, if_true]
    rw [ih fuel rest (by omega)]
    rfl
  | member before key behind inside v after more ihv ihm =>
    intro fuel rest enough
    obtain ⟨fuel, rfl⟩ : ∃ n, fuel = n + 1 := ⟨fuel - 1, by omega⟩
    have text : JsonText.text (.member before key behind inside v after more) =
        before.text ++ unit '"' :: (key.text ++ unit '"' :: (behind.text ++ unit ':' ::
          (inside.text ++ (JsonText.text v ++ (after.text ++ JsonText.text more))))) := rfl
    rw [text] at enough ⊢
    simp only [List.length_append, List.length_cons] at enough
    simp only [List.append_assoc, List.cons_append]
    have opened := skipSpace_append (s := unit '"' :: (key.text ++ unit '"' :: (behind.text ++
      unit ':' :: (inside.text ++ (JsonText.text v ++ (after.text ++ (JsonText.text more ++ rest)))))))
      before
    have colon := skipSpace_append (s := unit ':' :: (inside.text ++ (JsonText.text v ++
      (after.text ++ (JsonText.text more ++ rest))))) behind
    rw [skipSpace_cons rfl] at opened colon
    rw [members_succ opened (stringRest_text key _ (by
        rw [List.length_append]
        omega)) colon, skipSpace_value,
      ihv fuel _ (by omega) (ends_after after (ends_moreMembers more rest)), Option.bind_some]
    dsimp only
    rw [afterMember_gap, ihm fuel _ rest (by omega)]
    rfl
  | endMembers tail =>
    intro fuel m rest _
    have text : JsonText.text (.endMembers tail) = tail.text ++ [unit '\x7d'] := rfl
    rw [text, List.append_assoc, afterMember_gap]
    rfl
  | nextMember members ih =>
    intro fuel m rest enough
    have text : JsonText.text (.nextMember members) = unit ',' :: JsonText.text members := rfl
    rw [text, List.length_cons] at enough
    rw [text, List.cons_append, afterMember, skipSpace_cons rfl]
    simp only [show (unit ',' == unit '\x7d') = false from rfl, Bool.false_eq_true, if_false,
      beq_self_eq_true, if_true]
    rw [ih fuel rest (by omega)]
    rfl

/-- `JSON.parse` reads every text of a value. -/
theorem parse_text (before after : Spaces) (w : JsonText .value) :
    parse (before.text ++ (w.text ++ after.text)) = some w.value := by
  have read := reads_part w (2 * (before.text ++ (w.text ++ after.text)).length + 2) after.text
    (by
      simp only [List.length_append]
      omega)
    (by
      have nothing : Ends [] := fun _ _ same => nomatch same
      have ends := ends_after after nothing
      rwa [List.append_nil] at ends)
  have finished : skipSpace after.text = [] := by
    have all := skipSpace_append (s := []) after
    rwa [List.append_nil] at all
  rw [parse, skipSpace_value, read]
  simp only [finished]
  rfl

/-! ### What `JSON.stringify` writes -/

private theorem digit_plain {n : Nat} (small : n < 10) :
    numberUnit (unit '0' + n.toUInt16) = true := by
  have all : ∀ k : Fin 10, numberUnit (unit '0' + (k : Nat).toUInt16) = true := by decide
  exact all ⟨n, small⟩

private theorem decimal_plain (fuel n : Nat) : ∀ u ∈ decimal fuel n, numberUnit u = true := by
  induction fuel generalizing n with
  | zero => nofun
  | succ fuel ih =>
    rw [decimal]
    split
    · next small => exact List.forall_mem_singleton.mpr (digit_plain small)
    · refine List.forall_mem_append.mpr ⟨ih _, List.forall_mem_singleton.mpr (digit_plain ?_)⟩
      exact Nat.mod_lt n (by decide)

private theorem numberText_plain (m e : Int) : ∀ u ∈ numberText m e, numberUnit u = true := by
  have other : ∀ u ∈ utf16 "0.e+-", numberUnit u = true := by decide
  have zeros (n : Nat) : ∀ u ∈ List.replicate n (unit '0'), numberUnit u = true := fun u listed =>
    List.eq_of_mem_replicate listed ▸ other _ (by decide)
  unfold numberText
  extract_lets all ds k n body
  have digits_ : ∀ u ∈ ds, numberUnit u = true := fun u listed => decimal_plain _ _ u
    (List.mem_reverse.mp ((List.dropWhile_sublist _).mem (List.mem_reverse.mp listed)))
  have point : ∀ {s t : JsString}, (∀ u ∈ s, numberUnit u = true) → (∀ u ∈ t, numberUnit u = true) →
      ∀ u ∈ s ++ unit '.' :: t, numberUnit u = true := fun front behind =>
    List.forall_mem_append.mpr ⟨front, List.forall_mem_cons.mpr ⟨other _ (by decide), behind⟩⟩
  have body_ : ∀ u ∈ body, numberUnit u = true := by
    unfold body
    split
    · exact List.forall_mem_append.mpr ⟨digits_, zeros _⟩
    · split
      · exact point (fun u listed => digits_ u (List.mem_of_mem_take listed))
          fun u listed => digits_ u (List.mem_of_mem_drop listed)
      · split
        · exact List.forall_mem_append.mpr ⟨List.forall_mem_append.mpr ⟨by decide, zeros _⟩, digits_⟩
        · refine List.forall_mem_append.mpr ⟨List.forall_mem_append.mpr ⟨?_, ?_⟩, decimal_plain _ _⟩
          · match ds, digits_ with
            | [], _ => exact nofun
            | [_], only => exact only
            | d :: _ :: _, some_ =>
              obtain ⟨first, rest⟩ := List.forall_mem_cons.mp some_
              exact point (List.forall_mem_singleton.mpr first) rest
          · split <;> decide
  split
  · decide
  · split
    · exact List.forall_mem_cons.mpr ⟨other _ (by decide), body_⟩
    · exact body_

private theorem unicodeEscape_part (u : UInt16) :
    ∃ part : StringPart, part.text = unicodeEscape u ∧ part.value = u := by
  have bound (n : UInt16) : n % 0x10 < 16 := by
    have lt : n.toNat % 16 < 16 := Nat.mod_lt _ (by decide)
    simpa [UInt16.lt_iff_toNat_lt, UInt16.toNat_mod] using lt
  have top : u / 0x1000 < 16 := by
    have lt := u.toNat_lt
    have small : u.toNat / 4096 < 16 := by omega
    simpa [UInt16.lt_iff_toNat_lt, UInt16.toNat_div] using small
  exact ⟨.unicode _ _ _ _ _ _ _ _ (hexValue_hexDigit top) (hexValue_hexDigit (bound _))
    (hexValue_hexDigit (bound _)) (hexValue_hexDigit (bound _)), rfl, nibbles u⟩

private theorem escape_part (u : UInt16) :
    ∃ part : StringPart, part.text = escape u ∧ part.value = u := by
  have short {e v : UInt16} (listed : (e, v) ∈ escapes) (is : (u == v) = true) :
      ∃ part : StringPart, part.text = [unit '\\', e] ∧ part.value = u :=
    ⟨.escape e v listed, rfl, (eq_of_beq is).symm⟩
  unfold escape
  split
  · next is => exact short (by decide) is
  · next quote =>
    split
    · next is => exact short (by decide) is
    · next backslash =>
      split
      · next is => exact short (by decide) is
      · split
        · next is => exact short (by decide) is
        · split
          · next is => exact short (by decide) is
          · split
            · next is => exact short (by decide) is
            · split
              · next is => exact short (by decide) is
              · split
                · exact unicodeEscape_part u
                · next printed =>
                  exact ⟨.plain u printed (fun same => quote (beq_iff_eq.mpr same))
                    (fun same => backslash (beq_iff_eq.mpr same)), rfl, rfl⟩

private theorem quoteRest_token (s : JsString) :
    ∃ token : StringToken, token.text ++ [unit '"'] = quoteRest s ∧ token.value = s := by
  -- One part stands for one unit.
  have next {u : UInt16} {head more t : JsString}
      (first : ∃ part : StringPart, part.text = head ∧ part.value = u)
      (later : ∃ token : StringToken, token.text ++ [unit '"'] = more ∧ token.value = t) :
      ∃ token : StringToken, token.text ++ [unit '"'] = head ++ more ∧ token.value = u :: t := by
    obtain ⟨part, rfl, rfl⟩ := first
    obtain ⟨token, rfl, rfl⟩ := later
    exact ⟨part :: token, List.append_assoc .., rfl⟩
  have surrogate {u : UInt16} (half : isHighSurrogate u = true ∨ isLowSurrogate u = true) :
      ∃ part : StringPart, part.text = [u] ∧ part.value = u := by
    obtain ⟨quote, printed, backslash⟩ := surrogate_plain half
    exact ⟨.plain u printed (ne_of_beq_false quote) (ne_of_beq_false backslash), rfl, rfl⟩
  induction s using quoteRest.induct with
  | case1 => exact ⟨[], rfl, rfl⟩
  | case2 u high v t low ih =>
    simp only [quoteRest, high, low, if_true]
    exact next (surrogate (.inl high)) (next (surrogate (.inr low)) ih)
  | case3 u high v t low ih =>
    simp only [quoteRest, high, low, if_true, if_false, Bool.false_eq_true]
    exact next (unicodeEscape_part u) ih
  | case4 u high ih =>
    simp only [quoteRest, high, if_true]
    exact next (unicodeEscape_part u) ih
  | case5 u s high low ih =>
    rw [quoteRest.eq_def]
    simp only [high, low, if_true, if_false, Bool.false_eq_true]
    exact next (unicodeEscape_part u) ih
  | case6 u s high low ih =>
    rw [quoteRest.eq_def]
    simp only [high, low, if_false, Bool.false_eq_true]
    exact next (escape_part u) ih

private def noSpaces : Spaces := ⟨[], nofun⟩

private def Writes (v : Json) : Prop := ∃ w : JsonText .value, w.text = stringify v ∧ w.value = v

private theorem written_items {v : Json} {vs : List Json} (first : Writes v) (later : ∀ x ∈ vs, Writes x) :
    ∃ w : JsonText .items, w.text = itemsText (v :: vs) ∧ w.value = v :: vs := by
  induction vs generalizing v with
  | nil =>
    obtain ⟨w, text, rfl⟩ := first
    refine ⟨.item noSpaces w noSpaces (.endItems noSpaces), ?_, rfl⟩
    exact congrArg (· ++ [unit ']']) text
  | cons x vs ih =>
    obtain ⟨w, text, rfl⟩ := first
    obtain ⟨items, more, value⟩ := ih (later x List.mem_cons_self) fun y listed =>
      later y (List.mem_cons_of_mem _ listed)
    refine ⟨.item noSpaces w noSpaces (.nextItem items), ?_, congrArg (List.cons (α := Json) _) value⟩
    exact congrArg₂ (fun s t : JsString => s ++ unit ',' :: t) text more

private theorem written_member (key : JsString) {v : Json} (first : Writes v) :
    ∃ (token : StringToken) (w : JsonText .value), (token.value, w.value) = (key, v) ∧
      ∀ more : JsonText .moreMembers, JsonText.text (.member noSpaces token noSpaces noSpaces w noSpaces more) =
        memberText (key, v) ++ more.text := by
  obtain ⟨token, quoted, rfl⟩ := quoteRest_token key
  obtain ⟨w, text, rfl⟩ := first
  refine ⟨token, w, rfl, fun more => ?_⟩
  rw [memberText, quote, ← quoted, ← text]
  simp only [List.append_assoc, List.cons_append, List.nil_append]
  rfl

private theorem written_members {key : JsString} {v : Json} {ms : List (JsString × Json)} (first : Writes v)
    (later : ∀ m ∈ ms, Writes m.2) :
    ∃ w : JsonText .members, w.text = membersText ((key, v) :: ms) ∧ w.value = (key, v) :: ms := by
  induction ms generalizing key v with
  | nil =>
    obtain ⟨token, w, same, text⟩ := written_member key first
    exact ⟨_, text (.endMembers noSpaces), congrArg (List.cons · []) same⟩
  | cons m ms ih =>
    obtain ⟨token, w, same, text⟩ := written_member key first
    obtain ⟨members, more, value⟩ := ih (later m List.mem_cons_self) fun x listed =>
      later x (List.mem_cons_of_mem _ listed)
    refine ⟨_, (text (.nextMember members)).trans ?_, congrArg₂ List.cons same value⟩
    exact congrArg (memberText (key, v) ++ unit ',' :: ·) more

mutual

private theorem writes : ∀ v : Json, v.Decimal → Writes v
  | .null, _ => ⟨.null, rfl, rfl⟩
  | .bool b, _ => ⟨.bool b, rfl, rfl⟩
  | .num m e, decimal => by
    have read := decimal [] nofun
    rw [List.append_nil] at read
    exact ⟨.number ⟨numberText m e, m, e, numberText_plain m e, read⟩, rfl, rfl⟩
  | .str s, _ => by
    obtain ⟨token, text, rfl⟩ := quoteRest_token s
    exact ⟨.string token, congrArg (unit '"' :: ·) text, rfl⟩
  | .arr [], _ => ⟨.noItems noSpaces noSpaces, rfl, rfl⟩
  | .arr (v :: vs), decimal => by
    obtain ⟨w, text, value⟩ := written_items (writes v decimal.1) (writes_items vs decimal.2)
    exact ⟨.array w, congrArg (unit '[' :: ·) text, congrArg Json.arr value⟩
  | .obj [], _ => ⟨.noMembers noSpaces noSpaces, rfl, rfl⟩
  | .obj ((key, v) :: ms), decimal => by
    obtain ⟨w, text, value⟩ := written_members (writes v decimal.1) (writes_members ms decimal.2)
    exact ⟨.object w, congrArg (unit '\x7b' :: ·) text, congrArg Json.obj value⟩

private theorem writes_items : ∀ vs : List Json, DecimalItems vs → ∀ v ∈ vs, Writes v
  | [], _ => nofun
  | v :: vs, decimal => List.forall_mem_cons.mpr ⟨writes v decimal.1, writes_items vs decimal.2⟩

private theorem writes_members : ∀ ms : List (JsString × Json), DecimalMembers ms → ∀ m ∈ ms, Writes m.2
  | [], _ => nofun
  | (_, v) :: ms, decimal => List.forall_mem_cons.mpr ⟨writes v decimal.1, writes_members ms decimal.2⟩

end

end CodeGraph.JsonTexts

namespace CodeGraph.Json

open JsonTexts

/-- `JSON.parse` undoes `JSON.stringify`. -/
theorem parse_stringify {v : Json} (decimal : v.Decimal) : parse (stringify v) = some v := by
  obtain ⟨w, text, value⟩ := writes v decimal
  have read := parse_text noSpaces noSpaces w
  rw [text, value] at read
  exact (congrArg parse (List.append_nil _).symm).trans read

theorem stringify_injective {v w : Json} (left : v.Decimal) (right : w.Decimal)
    (same : stringify v = stringify w) : v = w := by
  have read := parse_stringify left
  rw [same, parse_stringify right] at read
  exact (Option.some.inj read).symm

end CodeGraph.Json
