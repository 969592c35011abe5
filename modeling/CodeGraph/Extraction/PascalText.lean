import CodeGraph.Foundation.Scanning
import CodeGraph.Foundation.Text

/-!
# Pascal source, by places

The words, comments and strings that the pre-parse of Pascal reads
(`extraction/languages/pascal-preparse.ts`).
-/
namespace CodeGraph.Extraction.PascalPreparse

open Scanning Text

def CH_TAB : UInt16 := 9
def CH_LF : UInt16 := 10
def CH_CR : UInt16 := 13
def CH_SPACE : UInt16 := 32
def CH_DOLLAR : UInt16 := 36
def CH_AMP : UInt16 := 38
def CH_QUOTE : UInt16 := 39
def CH_LPAREN : UInt16 := 40
def CH_RPAREN : UInt16 := 41
def CH_STAR : UInt16 := 42
def CH_COMMA : UInt16 := 44
def CH_DOT : UInt16 := 46
def CH_SLASH : UInt16 := 47
def CH_COLON : UInt16 := 58
def CH_SEMI : UInt16 := 59
def CH_LT : UInt16 := 60
def CH_EQ : UInt16 := 61
def CH_GT : UInt16 := 62
def CH_AT : UInt16 := 64
def CH_LBRACKET : UInt16 := 91
def CH_RBRACKET : UInt16 := 93
def CH_CARET : UInt16 := 94
def CH_LBRACE : UInt16 := 123
def CH_RBRACE : UInt16 := 125

def MAX_ATTRIBUTE_LENGTH : Nat := 2000

variable {s : JsString} {i k : Nat}

/-! ### Units -/

/-- Identifier characters, `&` and any non-ASCII letter. -/
def isIdentStart (c : UInt16) : Bool :=
  (65 ≤ c && c ≤ 90) || (97 ≤ c && c ≤ 122) || c == 95 || c == CH_AMP || 128 ≤ c

def isIdentPart (c : UInt16) : Bool :=
  (65 ≤ c && c ≤ 90) || (97 ≤ c && c ≤ 122) || c == 95 || (48 ≤ c && c ≤ 57) || 128 ≤ c

def isSpace (c : UInt16) : Bool := c == CH_SPACE || c == CH_TAB || c == CH_LF || c == CH_CR

def identStartAt (s : JsString) (i : Nat) : Bool := s[i]?.any isIdentStart

def identPartAt (s : JsString) (i : Nat) : Bool := s[i]?.any isIdentPart

def spaceAt (s : JsString) (i : Nat) : Bool := s[i]?.any isSpace

def digitAt (s : JsString) (i : Nat) : Bool := s[i]?.any fun c => 48 ≤ c && c ≤ 57

/-- The lower case of a unit, as far as a comparison with a word of ASCII can tell: of the others
only the Kelvin sign is written as an ASCII letter. -/
def lowerUnit (c : UInt16) : UInt16 :=
  if 65 ≤ c && c ≤ 90 then c + 32 else if c == 0x212A then 107 else c

def toLowerCase (s : JsString) : JsString := s.map lowerUnit

def wordEnd (s : JsString) (i : Nat) : From i :=
  ⟨i + ((s.drop i).takeWhile isIdentPart).length, Nat.le_add_right _ _⟩

def lowerWordAt (s : JsString) (i : Nat) : JsString :=
  if identStartAt s i then toLowerCase (slice s i (wordEnd s (i + 1))) else []

def identBack (s : JsString) : Nat → Nat
  | 0 => 0
  | k + 1 => if identPartAt s k then identBack s k else k + 1

def wordStartBefore (s : JsString) (i : Nat) : Option Nat :=
  let k := identBack s i
  if k = i then none
  else
    let k := if 0 < k ∧ s[k - 1]? = some CH_AMP then k - 1 else k
    if identStartAt s k then some k else none

/-! ### Comments and strings -/

def quoteLength : JsString → Nat
  | [] => 0
  | [c] => if c = CH_LF then 0 else 1
  | c :: d :: rest =>
    if c = CH_QUOTE then
      if d = CH_QUOTE then 2 + quoteLength rest else 1
    else if c = CH_LF then 0
    else 1 + quoteLength (d :: rest)

theorem lt_length {c : UInt16} (here : s[i]? = some c) : i < s.length :=
  (List.getElem?_eq_some_iff.mp here).1

theorem lt_length_of_two {c d : UInt16} (here : s[i]? = some c ∧ s[i + 1]? = some d) : i < s.length :=
  lt_length here.1

theorem quote_on (s : JsString) (i : Nat) : i + 1 ≤ i + 1 + quoteLength (s.drop (i + 1)) :=
  Nat.le_add_right _ _

def commentOrStringEnd (s : JsString) (i : Nat) : Option (After i) :=
  if brace : s[i]? = some CH_LBRACE then
    match indexOf s [CH_RBRACE] (i + 1) with
    | none => some ⟨s.length, lt_length brace⟩
    | some ⟨e, later⟩ => some ⟨e + 1, succ_on later⟩
  else if star : s[i]? = some CH_LPAREN ∧ s[i + 1]? = some CH_STAR then
    match indexOf s [CH_STAR, CH_RPAREN] (i + 2) with
    | none => some ⟨s.length, lt_length_of_two star⟩
    | some ⟨e, later⟩ => some ⟨e + 2, after_two_on later⟩
  else if slash : s[i]? = some CH_SLASH ∧ s[i + 1]? = some CH_SLASH then
    match indexOf s [CH_LF] (i + 2) with
    | none => some ⟨s.length, lt_length_of_two slash⟩
    | some ⟨e, later⟩ => some ⟨e, after_two later⟩
  else if s[i]? = some CH_QUOTE then some ⟨i + 1 + quoteLength (s.drop (i + 1)), quote_on s i⟩
  else none

def isCommentStart (s : JsString) (i : Nat) : Bool :=
  s[i]? = some CH_LBRACE ∨ (s[i]? = some CH_LPAREN ∧ s[i + 1]? = some CH_STAR) ∨
    (s[i]? = some CH_SLASH ∧ s[i + 1]? = some CH_SLASH)

/-- The first place from `i` on that is neither white space nor in a comment. -/
def skipTrivia (s : JsString) (i : Nat) : From i :=
  scan i s.length (fun () j =>
    if spaceAt s j then .go () (next j)
    else if isCommentStart s j then
      match commentOrStringEnd s j with
      | some k => .go () k
      | none => .stop j
    else .stop j) (fun () j => j) ()

def spacesBack (s : JsString) : Nat → Nat
  | 0 => 0
  | i + 1 => if spaceAt s i then spacesBack s i else i + 1

theorem spacesBack_le (s : JsString) (i : Nat) : spacesBack s i ≤ i := by
  induction i with
  | zero => exact Nat.le_refl 0
  | succ i ih =>
    rw [spacesBack]
    split
    · exact Nat.le_succ_of_le ih
    · exact Nat.le_refl _

/-- The place after the last unit before `i` that is neither white space nor in a comment of `{…}`
or `(*…*)`. -/
def tokenEndBefore (s : JsString) (i : Nat) : Nat :=
  let j := spacesBack s i
  if 0 < j ∧ s[j - 1]? = some CH_RBRACE then
    match lastIndexOf s [CH_LBRACE] (j - 2) with
    | none => j
    | some ⟨start, _⟩ => tokenEndBefore s start
  else if 1 < j ∧ s[j - 1]? = some CH_RPAREN ∧ s[j - 2]? = some CH_STAR then
    match lastIndexOf s [CH_LPAREN, CH_STAR] (j - 3) with
    | none => j
    | some ⟨start, _⟩ => tokenEndBefore s start
  else j
termination_by i
decreasing_by
  all_goals
    have le := spacesBack_le s i
    omega

/-- Where the `class` before a place starts, past white space. -/
def classBefore (s : JsString) (i : Nat) : Option Nat :=
  let j := spacesBack s i
  if 5 ≤ j ∧ toLowerCase (slice s (j - 5) j) = utf16 "class" ∧
      (j = 5 ∨ identPartAt s (j - 6) = false) then some (j - 5)
  else none

/-- The place after the first `;` outside parentheses and brackets, within `max_` units. -/
def semicolonEnd (s : JsString) (i max_ : Nat) : Option (After i) :=
  scan i (min s.length (i + max_)) (fun (depth : Int) ⟨j, from_⟩ =>
    match commentOrStringEnd s j with
    | some k => .go depth k
    | none =>
      if s[j]? = some CH_LPAREN ∨ s[j]? = some CH_LBRACKET then .go (depth + 1) (next j)
      else if s[j]? = some CH_RPAREN ∨ s[j]? = some CH_RBRACKET then .go (depth - 1) (next j)
      else if s[j]? = some CH_SEMI ∧ depth ≤ 0 then .stop (some ⟨j + 1, Nat.succ_le_succ from_⟩)
      else .go depth (next j)) (fun _ _ => none) 0

/-- The place after the `]` of the attribute group at a place, when it closes the way one does. -/
def attributeEnd (s : JsString) (i : Nat) : Option (After i) :=
  scan i (min s.length (i + MAX_ATTRIBUTE_LENGTH)) (fun (depth : Int) ⟨j, from_⟩ =>
    match commentOrStringEnd s j with
    | some k => .go depth k
    | none =>
      if s[j]? = some CH_LBRACKET ∨ s[j]? = some CH_LPAREN then .go (depth + 1) (next j)
      else if s[j]? = some CH_RBRACKET ∨ s[j]? = some CH_RPAREN then
        if depth - 1 = 0 then
          .stop (if s[j]? = some CH_RBRACKET then some ⟨j + 1, Nat.succ_le_succ from_⟩ else none)
        else .go (depth - 1) (next j)
      else if s[j]? = some CH_SEMI then .stop none
      else .go depth (next j)) (fun _ _ => none) 0

/-- The place after a list of type parameters, if it is one. -/
def genericEnd (s : JsString) (i : Nat) : Option (From i) :=
  scan i s.length (fun (depth : Int) ⟨j, from_⟩ =>
    if s[j]? = some CH_LT then .go (depth + 1) (next j)
    else if s[j]? = some CH_GT then
      if depth - 1 = 0 then .stop (some ⟨j + 1, Nat.le_succ_of_le from_⟩)
      else .go (depth - 1) (next j)
    else if s[j]? = some CH_SEMI ∨ s[j]? = some CH_LPAREN ∨ s[j]? = some CH_RPAREN ∨
        s[j]? = some CH_LF then .stop none
    else .go depth (next j)) (fun _ j => some j) 0

theorem identStartAt_lt (starts : identStartAt s i = true) : i < s.length := by
  rw [identStartAt] at starts
  cases here : s[i]? with
  | none =>
    rw [here] at starts
    cases starts
  | some c => exact lt_length here

theorem wordEnd_le (within : i ≤ s.length) : (wordEnd s i : Nat) ≤ s.length := by
  have short := (List.takeWhile_sublist (p := isIdentPart) (l := s.drop i)).length_le
  rw [List.length_drop] at short
  change i + ((s.drop i).takeWhile isIdentPart).length ≤ s.length
  omega

theorem quoteLength_le (rest : JsString) : quoteLength rest ≤ rest.length := by
  fun_induction quoteLength rest <;> simp_all <;> omega

theorem commentOrStringEnd_le {k : After i} (ends : commentOrStringEnd s i = some k) : k ≤ s.length := by
  rw [commentOrStringEnd] at ends
  split at ends
  · split at ends
    next => cases ends; exact Nat.le_refl _
    next e later found =>
      cases ends
      exact startsAt_length (indexOf_starts found) (List.cons_ne_nil _ _)
  · split at ends
    · split at ends
      next => cases ends; exact Nat.le_refl _
      next e later found =>
        cases ends
        exact startsAt_length (indexOf_starts found) (List.cons_ne_nil _ _)
    · split at ends
      · split at ends
        next => cases ends; exact Nat.le_refl _
        next e later found =>
          cases ends
          have below := startsAt_length (indexOf_starts found) (List.cons_ne_nil _ _)
          exact Nat.le_of_succ_le below
      · split at ends
        next quote =>
          cases ends
          have inside := lt_length quote
          have short := quoteLength_le (s.drop (i + 1))
          rw [List.length_drop] at short
          change i + 1 + quoteLength (s.drop (i + 1)) ≤ s.length
          omega
        next => cases ends

end CodeGraph.Extraction.PascalPreparse
