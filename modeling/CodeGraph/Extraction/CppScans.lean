import CodeGraph.Foundation.Scanning
import CodeGraph.Foundation.Text

/-!
# Two scanners of C++

What `scanCppBraceScopes` (`extraction/languages/cpp-brace-scopes.ts`) and `cppCodeScan`
(`extraction/languages/cpp-macro-methods.ts`) read at each place of a source.
-/
namespace CodeGraph.Extraction.CppScans

open Scanning Text

def NEWLINE : UInt16 := 10
def CR : UInt16 := 13
def DOUBLE : UInt16 := 34
def HASH : UInt16 := 35
def SINGLE : UInt16 := 39
def OPEN : UInt16 := 40
def CLOSE : UInt16 := 41
def STAR : UInt16 := 42
def DOT : UInt16 := 46
def SLASH : UInt16 := 47
def BACKSLASH : UInt16 := 92

def MARK : UInt16 := 0xFEFF

def isBlank (c : UInt16) : Bool := c == 32 || c == 9 || c == 13 || c == 12 || c == 11

def isDigit (c : UInt16) : Bool := 48 ≤ c && c ≤ 57

variable {s : JsString} {i : Nat}

theorem lt_length {c : UInt16} (here : s[i]? = some c) : i < s.length :=
  (List.getElem?_eq_some_iff.mp here).1

/-- Whether the line that ends at a place goes on: a `\` is before its end. -/
def continued (s : JsString) (nl : Nat) : Bool :=
  let k := if s[nl - 1]? = some CR then nl - 1 - 1 else nl - 1
  s[k]? = some BACKSLASH

/-- The end of a `//` comment: its newline, if no `\` before it continues the comment. -/
def lineCommentEnd (s : JsString) (i : Nat) : From i :=
  scan i s.length (fun () at_ =>
    have from_ := at_.2
    match indexOf s [NEWLINE] at_ with
    | none => .stop ⟨max i s.length, Nat.le_max_left _ _⟩
    | some ⟨nl, later⟩ =>
      if continued s nl then .go () ⟨nl + 1, Nat.succ_le_succ later⟩ else .stop ⟨nl, from_.trans later⟩)
    (fun () at_ => at_) ()

/-- The end of a comment that begins with `/*`. -/
def blockCommentEnd (s : JsString) (i : Nat) (here : i < s.length) : After i :=
  match indexOf s [STAR, SLASH] (i + 2) with
  | none => ⟨s.length, here⟩
  | some ⟨e, later⟩ => ⟨e + 2, by omega⟩

/-- `/^(?:u8|[uUL])?R$/` -/
def RAW_STRING_PREFIX (t : JsString) : Bool := t ∈ ["R", "u8R", "uR", "UR", "LR"].map utf16

/-- The end of a raw string whose quote is at `i`, if its delimiter passes the test. -/
def rawStringEnd (s : JsString) (delimited : JsString → Bool) (i : Nat) (here : i < s.length) :
    Option (After i) :=
  match indexOf s [OPEN] (i + 1) with
  | none => none
  | some ⟨paren, later⟩ =>
    let delimiter := slice s (i + 1) paren
    if delimited delimiter then
      match indexOf s (CLOSE :: (delimiter ++ [DOUBLE])) (paren + 1) with
      | none => some ⟨s.length, here⟩
      | some ⟨e, behind⟩ => some ⟨e + delimiter.length + 2, by omega⟩
    else none

def prefixAt (word : Option (Nat × Nat)) (i : Nat) : Option Nat :=
  match word with
  | some (start, stop) => if stop = i then some start else none
  | none => none

/-! ### The scanner of braces -/

namespace BraceScopes

def isWordStart (c : UInt16) : Bool :=
  (97 ≤ c && c ≤ 122) || (65 ≤ c && c ≤ 90) || c == 95 || c == 36 || 128 ≤ c

def isWordChar (c : UInt16) : Bool := isWordStart c || isDigit c

/-- `/^[!#-'*-[\]-~]{0,16}$/` -/
def RAW_STRING_DELIMITER (t : JsString) : Bool :=
  t.length ≤ 16 && t.all fun c =>
    c == 33 || (35 ≤ c && c ≤ 39) || (42 ≤ c && c ≤ 91) || (93 ≤ c && c ≤ 126)

def wordEnd (s : JsString) (i : Nat) : After i :=
  ⟨i + 1 + ((s.drop (i + 1)).takeWhile isWordChar).length, Nat.le_add_right _ _⟩

/-- Past the string or character literal whose quote is at `i` (it stops at a newline). -/
def quotedEnd (s : JsString) (i : Nat) (here : i < s.length) : After i :=
  scan (i + 1) s.length (fun () j =>
    have from_ := j.2
    if s[j.1]? = some BACKSLASH then
      if s[j.1 + 1]? = some CR ∧ s[j.1 + 2]? = some NEWLINE then .go () ⟨j + 3, by omega⟩
      else .go () ⟨j + 2, by omega⟩
    else if s[j.1]? = s[i]? then .stop ⟨j + 1, by omega⟩
    else if s[j.1]? = some NEWLINE then .stop j
    else .go () (next j)) (fun () _ => ⟨s.length, here⟩) ()

/-- The end of a directive: of its line, through `\` continuations, comments and `"` strings. -/
def directiveEnd (s : JsString) (i : Nat) : After i :=
  let start := i + 1 + ((s.drop (i + 1)).takeWhile isBlank).length
  let ⟨e, behind⟩ := scan start s.length (fun () j =>
    have from_ := j.2
    if s[j.1]? = some NEWLINE then if continued s j then .go () (next j) else .stop j
    else if s[j.1]? = some SLASH ∧ s[j.1 + 1]? = some SLASH then
      let ⟨e, later⟩ := lineCommentEnd s (j + 2)
      .go () ⟨e, by omega⟩
    else if here : s[j.1]? = some SLASH ∧ s[j.1 + 1]? = some STAR then
      .go () (blockCommentEnd s j (lt_length here.1))
    else if here : s[j.1]? = some DOUBLE then .go () (quotedEnd s j (lt_length here))
    else .go () (next j)) (fun () j => j) ()
  ⟨e, by omega⟩

/-- Past a string, raw if the word right before its quote says so. -/
def literalEnd (s : JsString) (start : Option Nat) (i : Nat) (here : i < s.length) : After i :=
  match start with
  | some start =>
    if i - start ≤ 3 ∧ RAW_STRING_PREFIX (slice s start i) then
      (rawStringEnd s RAW_STRING_DELIMITER i here).getD (quotedEnd s i here)
    else quotedEnd s i here
  | none => quotedEnd s i here

def numberEnd (s : JsString) (i : Nat) : After i :=
  scan (i + 1) s.length (fun () j =>
    have from_ := j.2
    match s[j.1]? with
    | none => .stop j
    | some d =>
      if isWordChar d || d == DOT then .go () (next j)
      else if d = SINGLE ∧ s[j.1 + 1]?.any isWordChar then .go () ⟨j + 2, by omega⟩
      else if (d = 43 ∨ d = 45) ∧ s[j.1 - 1]?.any (· ∈ [101, 69, 112, 80]) then .go () (next j)
      else .stop j) (fun () j => j) ()

end BraceScopes

inductive Kind
  | newline
  | blank
  | comment
  | directive
  | literal
  | number
  | word
  | other
  deriving DecidableEq, Repr

structure Read where
  kind : Kind
  start : Nat
  stop : Nat
  deriving DecidableEq, Repr

namespace BraceScopes

/-- What is read at a place; `word` is the last identifier or number. -/
def readAt (s : JsString) (lineStart : Bool) (word : Option (Nat × Nat)) (i : Nat) (c : UInt16)
    (here : s[i]? = some c) : Kind × After i :=
  if c = NEWLINE then (.newline, next i)
  else if isBlank c then (.blank, next i)
  else if c = SLASH ∧ s[i + 1]? = some SLASH then
    let ⟨e, later⟩ := lineCommentEnd s (i + 2)
    (.comment, ⟨e, by omega⟩)
  else if c = SLASH ∧ s[i + 1]? = some STAR then (.comment, blockCommentEnd s i (lt_length here))
  else if c = HASH ∧ lineStart then (.directive, directiveEnd s i)
  else if c = DOUBLE then (.literal, literalEnd s (prefixAt word i) i (lt_length here))
  else if c = SINGLE then (.literal, quotedEnd s i (lt_length here))
  else if isDigit c ∨ (c = DOT ∧ s[i + 1]?.any isDigit) then (.number, numberEnd s i)
  else if isWordStart c then (.word, wordEnd s i)
  else (.other, next i)

structure State where
  lineStart : Bool
  word : Option (Nat × Nat)
  reads : List Read

def State.after (state : State) (kind : Kind) (i j : Nat) : State where
  lineStart :=
    match kind with
    | .newline => true
    | .blank | .comment | .directive => state.lineStart
    | .literal | .number | .word | .other => false
  word :=
    match kind with
    | .number | .word => some (i, j)
    | _ => state.word
  reads := state.reads ++ [⟨kind, i, j⟩]

def reads (s : JsString) : List Read :=
  scan (if s[0]? = some MARK then 1 else 0) s.length (fun (state : State) i =>
    match here : s[i.1]? with
    | none => .stop state.reads
    | some c =>
      let (kind, j) := readAt s state.lineStart state.word i c here
      .go (state.after kind i j) j) (fun state _ => state.reads) ⟨true, none, []⟩

end BraceScopes

/-! ### The scanner of directives and words -/

namespace MacroMethods

def isWordStart (c : UInt16) : Bool := (97 ≤ c && c ≤ 122) || (65 ≤ c && c ≤ 90) || c == 95

def isWordChar (c : UInt16) : Bool := isWordStart c || (48 ≤ c && c ≤ 57)

/-- `/^[^\s()\\"]{0,16}$/` -/
def RAW_STRING_DELIMITER (t : JsString) : Bool :=
  t.length ≤ 16 && t.all fun c => !(isWhiteSpace c || c == OPEN || c == CLOSE || c == BACKSLASH || c == DOUBLE)

theorem le_min_length {s : JsString} {i e : Nat} (here : i < s.length) (later : i + 1 ≤ e) :
    i + 1 ≤ min s.length (e + 1) := le_min here (succ_on later)

def quotedEnd (s : JsString) (i : Nat) (here : i < s.length) : After i :=
  let ⟨e, later⟩ : From (i + 1) := scan (i + 1) s.length (fun () j =>
    if s[j.1]? = s[i]? ∨ s[j.1]? = some NEWLINE then .stop j
    else if s[j.1]? = some BACKSLASH then .go () ⟨j + 2, From.two_on j⟩
    else .go () (next j)) (fun () j => j) ()
  ⟨min s.length (e + 1), le_min_length here later⟩

/-- The end of a directive: of its line, through `\` continuations and `/*` comments. -/
def directiveEnd (s : JsString) (i : Nat) : After i :=
  scan (i + 1) s.length (fun () j =>
    have _from := j.2
    if here : s[j.1]? = some SLASH ∧ s[j.1 + 1]? = some STAR then
      .go () (blockCommentEnd s j (lt_length here.1))
    else if s[j.1]? = some NEWLINE ∧ !continued s j then .stop j
    else .go () (next j)) (fun () j => j) ()

def literalEnd (s : JsString) (start : Option Nat) (i : Nat) (here : i < s.length) : After i :=
  match start with
  | some start =>
    if RAW_STRING_PREFIX (slice s start i) then
      (rawStringEnd s RAW_STRING_DELIMITER i here).getD (quotedEnd s i here)
    else quotedEnd s i here
  | none => quotedEnd s i here

def wordEnd (s : JsString) (i : Nat) : After i :=
  ⟨i + 1 + ((s.drop (i + 1)).takeWhile isWordChar).length, Nat.le_add_right _ _⟩

/-- Whether a `'` stands in a number: after a word character that is not of the last word. -/
def separates (s : JsString) (word : Option (Nat × Nat)) (i : Nat) : Bool :=
  0 < i && s[i - 1]?.any isWordChar && (prefixAt word i).isNone

def readAt (s : JsString) (lineStart : Bool) (word : Option (Nat × Nat)) (i : Nat) (c : UInt16)
    (here : s[i]? = some c) : Kind × After i :=
  if c = NEWLINE then (.newline, next i)
  else if isBlank c then (.blank, next i)
  else if c = SLASH ∧ s[i + 1]? = some SLASH then
    (.comment, ⟨max (i + 1) (lineCommentEnd s i), Nat.le_max_left _ _⟩)
  else if c = SLASH ∧ s[i + 1]? = some STAR then (.comment, blockCommentEnd s i (lt_length here))
  else if c = HASH ∧ lineStart then (.directive, directiveEnd s i)
  else if c = DOUBLE then (.literal, literalEnd s (prefixAt word i) i (lt_length here))
  else if c = SINGLE then
    if separates s word i then (.other, next i) else (.literal, quotedEnd s i (lt_length here))
  else if isWordChar c then
    if isWordStart c then (.word, wordEnd s i) else (.number, wordEnd s i)
  else (.other, next i)

structure Directive where
  start : Nat
  text : JsString
  deriving DecidableEq, Repr

structure Word where
  name : JsString
  start : Nat
  stop : Nat
  deriving DecidableEq, Repr

structure State where
  lineStart : Bool
  word : Option (Nat × Nat)
  directives : List Directive
  words : List Word

def State.after (s : JsString) (names : Option (JsString → Bool)) (state : State) (kind : Kind) (i j : Nat) :
    State where
  lineStart :=
    match kind with
    | .newline => true
    | .blank | .comment | .directive => state.lineStart
    | .literal | .number | .word | .other => false
  word := if kind = .word then some (i, j) else state.word
  directives := if kind = .directive then state.directives ++ [⟨i, slice s i j⟩] else state.directives
  words :=
    if kind = .word ∧ names.any (· (slice s i j)) then state.words ++ [⟨slice s i j, i, j⟩] else state.words

def cppCodeScan (s : JsString) (names : Option (JsString → Bool)) : List Directive × List Word :=
  scan 0 s.length (fun (state : State) i =>
    match here : s[i.1]? with
    | none => .stop (state.directives, state.words)
    | some c =>
      let (kind, j) := readAt s state.lineStart state.word i c here
      .go (state.after s names kind i j) j) (fun state _ => (state.directives, state.words)) ⟨true, none, [], []⟩

end MacroMethods

end CodeGraph.Extraction.CppScans
