import CodeGraph.Foundation.Text

/-!
JSON values, the parser of `JSON.parse` and the writer of `JSON.stringify`, over UTF-16 units.
-/
namespace CodeGraph

open Text

/-- A JSON value. A number `m * 10 ^ e` keeps its decimal digits; an object keeps its
members in the order and multiplicity of the text. -/
inductive Json where
  | null
  | bool (b : Bool)
  | num (mantissa : Int) (exponent : Int)
  | str (s : JsString)
  | arr (items : List Json)
  | obj (members : List (JsString × Json))
  deriving Inhabited

namespace Json

abbrev unit (c : Char) : UInt16 := c.val.toUInt16

def isSpace (u : UInt16) : Bool :=
  u == unit ' ' || u == unit '\t' || u == unit '\n' || u == unit '\r'

def skipSpace (s : JsString) : JsString := s.dropWhile isSpace

def isDigit (u : UInt16) : Bool := unit '0' ≤ u && u ≤ unit '9'

def digits (s : JsString) : List UInt16 × JsString := s.span isDigit

def natOf (ds : List UInt16) : Nat :=
  ds.foldl (fun n d => 10 * n + (d - unit '0').toNat) 0

def hexValue (u : UInt16) : Option UInt16 :=
  if isDigit u then some (u - unit '0')
  else if unit 'a' ≤ u && u ≤ unit 'f' then some (u - unit 'a' + 10)
  else if unit 'A' ≤ u && u ≤ unit 'F' then some (u - unit 'A' + 10)
  else none

/-- The digits of a fraction, `none` for a point without digits. -/
def fraction : JsString → Option (List UInt16 × JsString)
  | u :: s =>
    if u == unit '.' then
      match digits s with
      | ([], _) => none
      | parts => some parts
    else some ([], u :: s)
  | [] => some ([], [])

/-- The exponent part, `none` for an `e` without digits. -/
def exponentPart : JsString → Option (Int × JsString)
  | u :: s =>
    if u == unit 'e' || u == unit 'E' then
      let (sign, s) : Int × JsString := match s with
        | v :: t => if v == unit '-' then (-1, t) else if v == unit '+' then (1, t) else (1, v :: t)
        | [] => (1, [])
      match digits s with
      | ([], _) => none
      | (ds, rest) => some (sign * natOf ds, rest)
    else some (0, u :: s)
  | [] => some (0, [])

def number (s : JsString) : Option (Json × JsString) := do
  let (sign, s) : Int × JsString := match s with
    | u :: t => if u == unit '-' then (-1, t) else (1, u :: t)
    | [] => (1, [])
  let (whole, s) := digits s
  if whole.isEmpty || (whole.head? == some (unit '0') && 1 < whole.length) then none
  let (frac, s) ← fraction s
  let (e, s) ← exponentPart s
  return (num (sign * natOf (whole ++ frac)) (e - frac.length), s)

def stringRest : Nat → JsString → Option (JsString × JsString)
  | 0, _ => none
  | _ + 1, [] => none
  | fuel + 1, u :: s =>
    if u == unit '"' then some ([], s)
    else if u < 0x20 then none
    else if u == unit '\\' then
      match s with
      | [] => none
      | e :: s =>
        if e == unit 'u' then
          match s with
          | a :: b :: c :: d :: s => do
            let a ← hexValue a
            let b ← hexValue b
            let c ← hexValue c
            let d ← hexValue d
            let (rest, s) ← stringRest fuel s
            return ((a * 0x1000 + b * 0x100 + c * 0x10 + d) :: rest, s)
          | _ => none
        else do
          let v ← if e == unit '"' || e == unit '\\' || e == unit '/' then some e
            else if e == unit 'b' then some 8
            else if e == unit 'f' then some 12
            else if e == unit 'n' then some 10
            else if e == unit 'r' then some 13
            else if e == unit 't' then some 9
            else none
          let (rest, s) ← stringRest fuel s
          return (v :: rest, s)
    else do
      let (rest, s) ← stringRest fuel s
      return (u :: rest, s)

def literal (word : String) (value : Json) (s : JsString) : Option (Json × JsString) :=
  if (utf16 word).isPrefixOf s then some (value, s.drop (utf16 word).length) else none

mutual

def value : Nat → JsString → Option (Json × JsString)
  | 0, _ => none
  | _ + 1, [] => none
  | fuel + 1, u :: s =>
    if u == unit '"' then (stringRest s.length.succ s).map fun (t, rest) => (str t, rest)
    else if u == unit '[' then
      match skipSpace s with
      | v :: rest => if v == unit ']' then some (arr [], rest) else
          (elements fuel (v :: rest)).map fun (items, rest) => (arr items, rest)
      | [] => none
    else if u == unit '\x7b' then
      match skipSpace s with
      | v :: rest => if v == unit '\x7d' then some (obj [], rest) else
          (members fuel (v :: rest)).map fun (ms, rest) => (obj ms, rest)
      | [] => none
    else if u == unit 't' then literal "true" (bool true) (u :: s)
    else if u == unit 'f' then literal "false" (bool false) (u :: s)
    else if u == unit 'n' then literal "null" null (u :: s)
    else number (u :: s)

def elements : Nat → JsString → Option (List Json × JsString)
  | 0, _ => none
  | fuel + 1, s => do
    let (v, s) ← value fuel (skipSpace s)
    match skipSpace s with
    | u :: s =>
      if u == unit ']' then return ([v], s)
      else if u == unit ',' then
        let (vs, s) ← elements fuel s
        return (v :: vs, s)
      else none
    | [] => none

def members : Nat → JsString → Option (List (JsString × Json) × JsString)
  | 0, _ => none
  | fuel + 1, s =>
    match skipSpace s with
    | [] => none
    | q :: s => do
      if q != unit '"' then none
      let (key, s) ← stringRest s.length.succ s
      match skipSpace s with
      | [] => none
      | c :: s =>
        if c != unit ':' then none
        let (v, s) ← value fuel (skipSpace s)
        match skipSpace s with
        | u :: s =>
          if u == unit '\x7d' then return ([(key, v)], s)
          else if u == unit ',' then
            let (ms, s) ← members fuel s
            return ((key, v) :: ms, s)
          else none
        | [] => none

end

/-- `JSON.parse`: `none` where it throws. -/
def parse (text : JsString) : Option Json :=
  match value (2 * text.length + 2) (skipSpace text) with
  | some (v, rest) => if (skipSpace rest).isEmpty then some v else none
  | none => none

example : parse [] = none := rfl

/-- The value of the last member named `key`. -/
def member (key : String) : Json → Option Json
  | obj ms => (ms.reverse.find? fun m => m.1 == utf16 key).map Prod.snd
  | _ => none

/-! ### `JSON.stringify` -/

def hexDigit (n : UInt16) : UInt16 := if n < 10 then unit '0' + n else unit 'a' + (n - 10)

def unicodeEscape (u : UInt16) : JsString :=
  [unit '\\', unit 'u', hexDigit (u / 0x1000), hexDigit (u / 0x100 % 0x10), hexDigit (u / 0x10 % 0x10),
    hexDigit (u % 0x10)]

def isHighSurrogate (u : UInt16) : Bool := 0xD800 ≤ u && u ≤ 0xDBFF

def isLowSurrogate (u : UInt16) : Bool := 0xDC00 ≤ u && u ≤ 0xDFFF

def escape (u : UInt16) : JsString :=
  if u == unit '"' then [unit '\\', unit '"']
  else if u == unit '\\' then [unit '\\', unit '\\']
  else if u == 8 then [unit '\\', unit 'b']
  else if u == 12 then [unit '\\', unit 'f']
  else if u == 10 then [unit '\\', unit 'n']
  else if u == 13 then [unit '\\', unit 'r']
  else if u == 9 then [unit '\\', unit 't']
  else if u < 0x20 then unicodeEscape u
  else [u]

/-- The contents of a string and its closing quote; a surrogate without its other half is escaped. -/
def quoteRest : JsString → JsString
  | [] => [unit '"']
  | u :: s =>
    if isHighSurrogate u then
      match s with
      | v :: t =>
        if isLowSurrogate v then u :: v :: quoteRest t else unicodeEscape u ++ quoteRest (v :: t)
      | [] => unicodeEscape u ++ quoteRest []
    else if isLowSurrogate u then unicodeEscape u ++ quoteRest s
    else escape u ++ quoteRest s

def quote (s : JsString) : JsString := unit '"' :: quoteRest s

/-- The decimal digits of a number, with fuel for one more than it has. -/
def decimal : Nat → Nat → List UInt16
  | 0, _ => []
  | fuel + 1, n =>
    if n < 10 then [unit '0' + n.toUInt16]
    else decimal fuel (n / 10) ++ [unit '0' + (n % 10).toUInt16]

/-- `Number.prototype.toString` of `m * 10 ^ e`. -/
def numberText (m e : Int) : JsString :=
  let all := decimal (m.natAbs + 1) m.natAbs
  -- The digits without the zeros at their end, and the place of the point among them.
  let ds := (all.reverse.dropWhile (· == unit '0')).reverse
  let k : Int := ds.length
  let n : Int := all.length + e
  let body :=
    if k ≤ n ∧ n ≤ 21 then ds ++ List.replicate (n - k).toNat (unit '0')
    else if 0 < n ∧ n ≤ 21 then ds.take n.toNat ++ unit '.' :: ds.drop n.toNat
    else if -6 < n ∧ n ≤ 0 then
      [unit '0', unit '.'] ++ List.replicate (-n).toNat (unit '0') ++ ds
    else
      (match ds with
        | [] => []
        | [d] => [d]
        | d :: rest => d :: unit '.' :: rest) ++
        [unit 'e', if 0 < n then unit '+' else unit '-'] ++
        decimal ((n - 1).natAbs + 1) (n - 1).natAbs
  if m = 0 then [unit '0'] else if m < 0 then unit '-' :: body else body

mutual

def stringify : Json → JsString
  | null => utf16 "null"
  | bool b => if b then utf16 "true" else utf16 "false"
  | num m e => numberText m e
  | str s => quote s
  | arr items => unit '[' :: itemsText items
  | obj ms => unit '\x7b' :: membersText ms

def itemsText : List Json → JsString
  | [] => [unit ']']
  | v :: vs => stringify v ++ itemsRest vs

def itemsRest : List Json → JsString
  | [] => [unit ']']
  | v :: vs => unit ',' :: (stringify v ++ itemsRest vs)

def membersText : List (JsString × Json) → JsString
  | [] => [unit '\x7d']
  | m :: ms => memberText m ++ membersRest ms

def membersRest : List (JsString × Json) → JsString
  | [] => [unit '\x7d']
  | m :: ms => unit ',' :: (memberText m ++ membersRest ms)

def memberText : JsString × Json → JsString
  | (key, v) => quote key ++ unit ':' :: stringify v

end

example : stringify (obj [(utf16 "a", arr [num (-15) (-1), str (utf16 "\"\n"), null])]) =
    utf16 "\x7b\"a\":[-1.5,\"\\\"\\n\",null]\x7d" := by decide +kernel

/-! ### Reading back -/

theorem hexValue_hexDigit {n : UInt16} (small : n < 16) : hexValue (hexDigit n) = some n := by
  have all : ∀ k : Fin 16, hexValue (hexDigit (UInt16.ofNat k)) = some (UInt16.ofNat k) := by
    decide
  have bound : n.toNat < 16 := small
  have here := all ⟨n.toNat, bound⟩
  rwa [UInt16.ofNat_toNat] at here

theorem nibbles (u : UInt16) : u / 0x1000 * 0x1000 + u / 0x100 % 0x10 * 0x100 +
    u / 0x10 % 0x10 * 0x10 + u % 0x10 = u := by
  have bound := u.toNat_lt
  apply UInt16.toNat_inj.mp
  have third : (0x1000 : UInt16).toNat = 0x1000 := rfl
  have second : (0x100 : UInt16).toNat = 0x100 := rfl
  have first : (0x10 : UInt16).toNat = 0x10 := rfl
  simp only [UInt16.toNat_add, UInt16.toNat_mul, UInt16.toNat_div, UInt16.toNat_mod, third, second,
    first]
  omega

theorem stringRest_plain (fuel : Nat) {u : UInt16} {s : JsString} (quote : (u == unit '"') = false)
    (printed : ¬ u < 0x20) (backslash : (u == unit '\\') = false) :
    stringRest (fuel + 1) (u :: s) =
      (stringRest fuel s).map fun (rest, s) => (u :: rest, s) := by
  simp only [stringRest, quote, printed, backslash, if_false, Bool.false_eq_true]
  cases stringRest fuel s <;> rfl

theorem surrogate_plain {u : UInt16} (surrogate : isHighSurrogate u = true ∨ isLowSurrogate u = true) :
    (u == unit '"') = false ∧ ¬ u < 0x20 ∧ (u == unit '\\') = false := by
  have large : 0xD800 ≤ u := by
    rcases surrogate with high | low
    · simp only [isHighSurrogate, Bool.and_eq_true, decide_eq_true_eq] at high
      exact high.1
    · simp only [isLowSurrogate, Bool.and_eq_true, decide_eq_true_eq] at low
      exact Nat.le_trans (by decide) (UInt16.le_iff_toNat_le.mp low.1)
  have bound : 0xD800 ≤ u.toNat := UInt16.le_iff_toNat_le.mp large
  refine ⟨beq_false_of_ne ?_, ?_, beq_false_of_ne ?_⟩
  · rintro rfl
    exact absurd bound (by decide)
  · rw [UInt16.lt_iff_toNat_lt]
    exact Nat.not_lt.mpr (Nat.le_trans (by decide) bound)
  · rintro rfl
    exact absurd bound (by decide)

def Ends (rest : JsString) : Prop :=
  ∀ u s, rest = u :: s → u = unit ',' ∨ u = unit ']' ∨ u = unit '\x7d'

def ReadsBack (m e : Int) : Prop :=
  ∀ rest, Ends rest → number (numberText m e ++ rest) = some (num m e, rest)

mutual

/-- The numbers of a value are kept as `JSON.stringify` writes them. -/
def Decimal : Json → Prop
  | num m e => ReadsBack m e
  | arr items => DecimalItems items
  | obj ms => DecimalMembers ms
  | _ => True

def DecimalItems : List Json → Prop
  | [] => True
  | v :: vs => Decimal v ∧ DecimalItems vs

def DecimalMembers : List (JsString × Json) → Prop
  | [] => True
  | m :: ms => DecimalMember m ∧ DecimalMembers ms

def DecimalMember : JsString × Json → Prop
  | (_, v) => Decimal v

end

theorem digit_ne {u v : UInt16} (digit : isDigit u = true) (other : isDigit v = false) :
    (u == v) = false := by
  refine beq_false_of_ne ?_
  rintro rfl
  rw [digit] at other
  cases other

theorem null_text : utf16 "null" = [unit 'n', unit 'u', unit 'l', unit 'l'] := by decide

theorem true_text : utf16 "true" = [unit 't', unit 'r', unit 'u', unit 'e'] := by decide

theorem false_text : utf16 "false" = [unit 'f', unit 'a', unit 'l', unit 's', unit 'e'] := by
  decide

theorem skipSpace_cons {u : UInt16} {s : JsString} (solid : isSpace u = false) :
    skipSpace (u :: s) = u :: s := by
  simp [skipSpace, solid]

theorem value_number {u : UInt16} (fuel : Nat) (s : JsString)
    (starts : u = unit '-' ∨ isDigit u = true) : value (fuel + 1) (u :: s) = number (u :: s) := by
  have other (c : Char) (minus : (unit '-' == unit c) = false) (not_ : isDigit (unit c) = false) :
      (u == unit c) = false := by
    rcases starts with rfl | digit
    · exact minus
    · exact digit_ne digit not_
  simp only [value, other '"' (by decide) (by decide), other '[' (by decide) (by decide),
    other '\x7b' (by decide) (by decide), other 't' (by decide) (by decide),
    other 'f' (by decide) (by decide), other 'n' (by decide) (by decide), Bool.false_eq_true, if_false]

end Json

end CodeGraph
