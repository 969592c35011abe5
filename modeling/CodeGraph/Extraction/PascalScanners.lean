import CodeGraph.Extraction.PascalText

/-!
# What is blanked in Pascal declarations

Attributes of parameters, variables of for-in loops, overrides of properties and anonymous records.
-/
namespace CodeGraph.Extraction.PascalPreparse

open Scanning Text

def MODIFIERS : List JsString := ["const", "var", "out", "constref"].map utf16

def MAX_LOOP_TYPE_LENGTH : Nat := 500

def MAX_OVERRIDE_LENGTH : Nat := 500

def MAX_RECORD_LENGTH : Nat := 20000

/-- Words that end a for-in variable's type without an `in`. -/
def NOT_A_FOR_IN : List JsString := ["do", "to", "downto", "begin", "end"].map utf16

def NOT_IN_RECORD_FIELDS : List JsString :=
  ["begin", "class", "object", "interface", "implementation", "procedure", "function", "constructor",
    "destructor", "property", "type", "var", "const", "private", "protected", "public", "published",
    "strict"].map utf16

abbrev Range := Nat × Nat

structure Word where
  start : Nat
  stop : Nat
  text : JsString
  deriving DecidableEq, Repr

variable {s : JsString} {i j k : Nat}

/-- `s.charCodeAt(i - 1)` -/
def unitBefore (s : JsString) (i : Nat) : Option UInt16 := if i = 0 then none else s[i - 1]?

/-! ### Routines -/

section Names

variable {i start e j g dot : Nat} {at_ : From i}

theorem dotted_on (past : at_.1 ≤ start) (later : start + 1 ≤ e) (ahead : e ≤ j) :
    at_.1 + 1 ≤ j + 1 := Nat.le_succ_of_le (after_trans (From.beyond past later) ahead)

theorem generic_on (past : at_.1 ≤ start) (later : start + 1 ≤ e) (ahead : e ≤ j)
    (closes : j ≤ g) : i ≤ g := by
  have name := From.upto_beyond past later
  omega

theorem dotted_generic_on (past : at_.1 ≤ start) (later : start + 1 ≤ e) (ahead : e ≤ j)
    (closes : j ≤ g) (follows : g ≤ dot) : at_.1 + 1 ≤ dot + 1 := by
  omega

end Names

def routineNameEnd (s : JsString) (i : Nat) : From i :=
  scan i s.length (fun () at_ =>
    let ⟨start, past⟩ := skipTrivia s at_
    if identStartAt s start then
      let ⟨e, later⟩ := wordEnd s (start + 1)
      let ⟨j, ahead⟩ := skipTrivia s e
      if s[j]? = some CH_LT then
        match genericEnd s j with
        | none => .stop ⟨e, From.upto_beyond past later⟩
        | some ⟨g, closes⟩ =>
          let ⟨dot, follows⟩ := skipTrivia s g
          if s[dot]? = some CH_DOT then
            .go () ⟨dot + 1, dotted_generic_on past later ahead closes follows⟩
          else .stop ⟨g, generic_on past later ahead closes⟩
      else if s[j]? = some CH_DOT then .go () ⟨j + 1, dotted_on past later ahead⟩
      else .stop ⟨e, From.upto_beyond past later⟩
    else .stop ⟨start, From.upto past⟩) (fun () i => i) ()

def parameterStart (s : JsString) (i : Nat) (ranges : List Range) : From i × List Range :=
  scan i s.length (fun (ranges : List Range) at_ =>
    let ⟨j, past⟩ := skipTrivia s at_
    if s[j]? = some CH_LBRACKET then
      match attributeEnd s j with
      | none => .stop (⟨j, From.upto past⟩, ranges)
      | some ⟨e, later⟩ => .go (ranges ++ [(j, e)]) ⟨e, From.beyond past later⟩
    else if identStartAt s j then
      let ⟨e, later⟩ := wordEnd s (j + 1)
      if toLowerCase (slice s j e) ∈ MODIFIERS then .go ranges ⟨e, From.beyond past later⟩
      else .stop (⟨j, From.upto past⟩, ranges)
    else .stop (⟨j, From.upto past⟩, ranges)) (fun ranges j => (j, ranges)) ranges

structure ParameterList where
  depth : Int
  atParameterStart : Bool
  ranges : List Range

/-- A parameter list and the attributes in it, with the place after its `)`. -/
def scanParameterList (s : JsString) (open_ : Nat) (ranges : List Range) : From open_ × List Range :=
  scan open_ s.length (fun (p : ParameterList) at_ =>
    let (⟨i, past⟩, ranges) :=
      if p.atParameterStart then parameterStart s at_ p.ranges else (⟨at_, From.refl at_⟩, p.ranges)
    -- the parameters can end with the text
    if s.length ≤ i then .stop (⟨i, From.upto past⟩, ranges)
    else
      match commentOrStringEnd s i with
      | some ⟨k, later⟩ => .go ⟨p.depth, false, ranges⟩ ⟨k, From.beyond past later⟩
      | none =>
        if s[i]? = some CH_LPAREN ∨ s[i]? = some CH_LBRACKET then
          .go ⟨p.depth + 1, p.depth + 1 = 1, ranges⟩ ⟨i + 1, From.succ past⟩
        else if s[i]? = some CH_RPAREN ∨ s[i]? = some CH_RBRACKET then
          if p.depth - 1 ≤ 0 then .stop (⟨i + 1, From.upto_succ past⟩, ranges)
          else .go ⟨p.depth - 1, false, ranges⟩ ⟨i + 1, From.succ past⟩
        else if s[i]? = some CH_SEMI ∧ p.depth = 1 then
          .go ⟨p.depth, true, ranges⟩ ⟨i + 1, From.succ past⟩
        else .go ⟨p.depth, false, ranges⟩ ⟨i + 1, From.succ past⟩) (fun p i => (i, p.ranges))
    ⟨0, false, ranges⟩

/-- The `in` after the type of a for-in variable, whose `:` is at a place. -/
def loopTypeEnd (s : JsString) (i : Nat) : Option (After i) :=
  scan (i + 1) (min s.length (i + MAX_LOOP_TYPE_LENGTH)) (fun (depth : Int) ⟨j, from_⟩ =>
    match commentOrStringEnd s j with
    | some k => .go depth k
    | none =>
      if s[j]? = some CH_LT ∨ s[j]? = some CH_LPAREN ∨ s[j]? = some CH_LBRACKET then
        .go (depth + 1) (next j)
      else if s[j]? = some CH_GT ∨ s[j]? = some CH_RPAREN ∨ s[j]? = some CH_RBRACKET then
        if depth - 1 < 0 then .stop none else .go (depth - 1) (next j)
      else if s[j]? = some CH_SEMI ∨ s[j]? = some CH_EQ then .stop none
      else if identStartAt s j then
        let word := lowerWordAt s j
        if depth = 0 ∧ word = utf16 "in" then .stop (some ⟨j, from_⟩)
        else if word ∈ NOT_A_FOR_IN then .stop none
        else .go depth (wordEnd s (j + 1))
      else .go depth (next j)) (fun _ _ => none) 0

/-- The variable of a for-in loop and its type, after a `for`. -/
def scanForInVariable (s : JsString) (forEnd : Nat) (ranges : List Range) : From forEnd × List Range :=
  let ⟨varStart, past⟩ := skipTrivia s forEnd
  if lowerWordAt s varStart ≠ utf16 "var" then (⟨forEnd, Nat.le_refl _⟩, ranges)
  else
    let varEnd := varStart + 3
    let ⟨nameStart, past'⟩ := skipTrivia s varEnd
    if !identStartAt s nameStart then (⟨forEnd, Nat.le_refl _⟩, ranges)
    else
      let ⟨nameEnd, later⟩ := wordEnd s (nameStart + 1)
      let ⟨i, past''⟩ := skipTrivia s nameEnd
      if s[i]? = some CH_COLON ∧ s[i + 1]? ≠ some CH_EQ then
        match loopTypeEnd s i with
        | none => (⟨forEnd, Nat.le_refl _⟩, ranges)
        | some ⟨typeEnd, after_⟩ =>
          if lowerWordAt s typeEnd ≠ utf16 "in" then (⟨forEnd, Nat.le_refl _⟩, ranges)
          else (⟨typeEnd, by omega⟩, ranges ++ [(varStart, varEnd)] ++ [(i, typeEnd)])
      else if lowerWordAt s i ≠ utf16 "in" then (⟨forEnd, Nat.le_refl _⟩, ranges)
      else (⟨i, by omega⟩, ranges ++ [(varStart, varEnd)])

/-- An override of a property, after a `property`. -/
def scanPropertyOverride (s : JsString) (start propertyEnd : Nat) (ranges : List Range) :
    From propertyEnd × List Range :=
  let ⟨nameStart, past⟩ := skipTrivia s propertyEnd
  if !identStartAt s nameStart then (⟨propertyEnd, Nat.le_refl _⟩, ranges)
  else
    let ⟨nameEnd, later⟩ := wordEnd s (nameStart + 1)
    let ⟨i, past'⟩ := skipTrivia s nameEnd
    if s[i]? = some CH_COLON ∨ s[i]? = some CH_LBRACKET then (⟨propertyEnd, Nat.le_refl _⟩, ranges)
    else
      match semicolonEnd s i MAX_OVERRIDE_LENGTH with
      | none => (⟨propertyEnd, Nat.le_refl _⟩, ranges)
      | some ⟨e, after_⟩ => (⟨e, by omega⟩, ranges ++ [((classBefore s start).getD start, e)])

/-! ### Anonymous records -/

theorem tokenEndBefore_le (s : JsString) (i : Nat) : tokenEndBefore s i ≤ i := by
  fun_induction tokenEndBefore s i with
  | case1 i j => exact spacesBack_le s i
  | case2 i j brace start below _ ih =>
    have le : j ≤ i := spacesBack_le s i
    omega
  | case3 i j => exact spacesBack_le s i
  | case4 i j brace star start below _ ih =>
    have le : j ≤ i := spacesBack_le s i
    omega
  | case5 i j => exact spacesBack_le s i

theorem identBack_le (s : JsString) (i : Nat) : identBack s i ≤ i := by
  induction i with
  | zero => exact Nat.le_refl 0
  | succ i ih =>
    rw [identBack]
    split
    · exact Nat.le_succ_of_le ih
    · exact Nat.le_refl _

theorem wordStartBefore_le (starts : wordStartBefore s i = some k) : k ≤ i := by
  have le := identBack_le s i
  simp only [wordStartBefore] at starts
  split at starts
  · cases starts
  · split_ifs at starts <;> cases starts <;> omega

def wordBefore (s : JsString) (i : Nat) (word : String) : Option Nat :=
  (wordStartBefore s i).filter fun w => lowerWordAt s w = utf16 word

def namesStart (s : JsString) (start : Nat) : Option Nat :=
  if unitBefore s (tokenEndBefore s start) = some CH_COMMA then
    match found : wordStartBefore s (tokenEndBefore s (tokenEndBefore s start - 1)) with
    | none => none
    | some name => namesStart s name
  else some start
termination_by start
decreasing_by
  have comma : tokenEndBefore s start ≠ 0 := by
    intro none_
    simp_all [unitBefore]
  have before := tokenEndBefore_le s start
  have before' := tokenEndBefore_le s (tokenEndBefore s start - 1)
  have name := wordStartBefore_le found
  omega

def declarationStart (s : JsString) (j : Nat) (array : Bool) : Option Nat :=
  let c := unitBefore s j
  if c ≠ some CH_COLON ∧ ¬(c = some CH_EQ ∧ array) then none
  else
    match wordStartBefore s (tokenEndBefore s (j - 1)) with
    | none => none
    | some start => if c = some CH_EQ then some start else namesStart s start

/-- The start of the declaration that the `record` at a place gives an anonymous type to. -/
def anonymousRecordDeclStart (s : JsString) (i : Nat) : Option Nat :=
  let unpacked (j : Nat) := ((wordBefore s j "packed").map (tokenEndBefore s)).getD j
  let j := unpacked (tokenEndBefore s i)
  match wordBefore s j "of" with
  | none => declarationStart s j false
  | some w => do
    let j := tokenEndBefore s w
    let j ←
      if unitBefore s j = some CH_RBRACKET then
        (lastIndexOf s [CH_LBRACKET] (j - 1)).map fun open_ => tokenEndBefore s open_
      else some j
    let w ← wordBefore s j "array"
    declarationStart s (unpacked (tokenEndBefore s w)) true

structure RecordFields where
  depth : Int
  brackets : Int
  /-- The token before: a word in lower case, or its unit. -/
  prev : JsString

/-- The place after the `end` of a record whose fields start at a place. -/
def recordEnd (s : JsString) (i : Nat) : Option (After i) :=
  scan i (min s.length (i + MAX_RECORD_LENGTH)) (fun (r : RecordFields) ⟨j, from_⟩ =>
    match commentOrStringEnd s j with
    | some k => .go (if s[j]? = some CH_QUOTE then { r with prev := [CH_QUOTE] } else r) k
    | none =>
      if identStartAt s j then
        let ⟨e, later⟩ := wordEnd s (j + 1)
        let word := toLowerCase (slice s j e)
        if r.brackets = 0 then
          if word = utf16 "end" then
            if r.depth - 1 = 0 then .stop (some ⟨e, Nat.lt_of_le_of_lt from_ later⟩)
            else .go { r with depth := r.depth - 1, prev := word } ⟨e, later⟩
          else if word = utf16 "record" then
            .go { r with depth := r.depth + 1, prev := word } ⟨e, later⟩
          else if word ∈ NOT_IN_RECORD_FIELDS ∧ r.prev ≠ [CH_COLON] ∧ r.prev ≠ utf16 "of" ∧
              r.prev ≠ utf16 "to" then .stop none
          else .go { r with prev := word } ⟨e, later⟩
        else .go { r with prev := word } ⟨e, later⟩
      else
        let brackets :=
          if s[j]? = some CH_LPAREN ∨ s[j]? = some CH_LBRACKET then r.brackets + 1
          else if s[j]? = some CH_RPAREN ∨ s[j]? = some CH_RBRACKET then r.brackets - 1
          else r.brackets
        if s[j]? = some CH_EQ ∧ brackets = 0 then .stop none
        else
          .go { r with
            brackets := brackets
            prev := if spaceAt s j then r.prev else s[j]?.toList } (next j)) (fun _ _ => none)
    ⟨1, 0, []⟩

/-- An anonymous record, at its keyword: the word written over it, and the fields that are blanked. -/
def scanAnonymousRecord (s : JsString) (start stop : Nat) (ranges : List Range) (words : List Word) :
    From stop × List Range × List Word :=
  if anonymousRecordDeclStart s start = none then (⟨stop, Nat.le_refl _⟩, ranges, words)
  else
    let first := lowerWordAt s (skipTrivia s stop)
    if first = [] ∨ first ∈ NOT_IN_RECORD_FIELDS then (⟨stop, Nat.le_refl _⟩, ranges, words)
    else
      match recordEnd s stop with
      | none => (⟨stop, Nat.le_refl _⟩, ranges, words)
      | some ⟨close, later⟩ =>
        let ⟨following, _⟩ := skipTrivia s close
        let c := s[following]?
        let last := lowerWordAt s following = utf16 "end"
        if c ≠ some CH_SEMI ∧ c ≠ some CH_EQ ∧ c ≠ some CH_RPAREN ∧ ¬last then
          (⟨stop, Nat.le_refl _⟩, ranges, words)
        else
          let at_ := (wordBefore s (tokenEndBefore s start) "packed").getD start
          if last then
            (⟨close, Nat.le_of_succ_le later⟩, ranges ++ [(at_ + 6, close - 3)],
              words ++ [⟨at_, at_ + 6, utf16 "string"⟩] ++ [⟨close - 3, close, [CH_SEMI]⟩])
          else
            (⟨close, Nat.le_of_succ_le later⟩, ranges ++ [(at_ + 6, close)],
              words ++ [⟨at_, at_ + 6, utf16 "string"⟩])

end CodeGraph.Extraction.PascalPreparse
