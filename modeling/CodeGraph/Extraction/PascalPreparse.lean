import CodeGraph.Extraction.PascalStatements

/-!
# The pre-parse of Pascal

The scan of a whole source, and what it writes over it (`preParsePascal` in
`extraction/languages/pascal-preparse.ts`).
-/
namespace CodeGraph.Extraction.PascalPreparse

open Scanning Text InsertionMap

def LABEL_ENDS : List JsString := ["end", "until", "except", "finally"].map utf16

variable {s : JsString}

/-! ### The scan -/

structure Found where
  ranges : List Range
  words : List Word
  /-- The groups that come where one statement goes: whether a case label is before each. -/
  label : List (Nat × Bool)
  last : Option Range

def scanRoutine (s : JsString) (groups : {gs : List (ConditionalGroup s) // Ordered gs}) (e : Nat)
    (ranges : List Range) : From e × List Range :=
  let ⟨nameEnd, past⟩ := routineNameEnd s e
  let ⟨open_, past'⟩ := skipTrivia s nameEnd
  let (⟨following, past''⟩, ranges) : From e × List Range :=
    if s[open_]? = some CH_LPAREN then
      let (⟨close, later⟩, ranges) := scanParameterList s open_ ranges
      (⟨close, by omega⟩, ranges)
    else (⟨e, Nat.le_refl e⟩, ranges)
  if groups.1 = [] then (⟨following, past''⟩, ranges)
  else
    match semicolonEnd s following MAX_HEADER_PART_LENGTH with
    | none => (⟨following, past''⟩, ranges)
    | some ⟨headerEnd, _⟩ =>
      (⟨following, past''⟩, blankConditionalsAfterHeader s headerEnd groups ranges)

/-- A `raise` with no exception. -/
def scanRaise (s : JsString) (i e : Nat) (f : Found) : Found :=
  let ⟨following, _⟩ := skipTrivia s e
  let after_ := lowerWordAt s following
  if s[following]? = some CH_SEMI ∨ after_ = utf16 "else" then { f with ranges := f.ranges ++ [(i, e)] }
  else if after_ ∈ LABEL_ENDS then { f with words := f.words ++ [⟨i, e, [CH_SEMI]⟩] }
  else f

/-- The first place from `i` on that is no blank of its line. -/
def pastBlanks (s : JsString) (i : Nat) : Nat :=
  i + ((s.drop i).takeWhile fun c => c == CH_SPACE || c == CH_TAB).length

def scanLabel (s : JsString) (i e : Nat) (f : Found) : Found :=
  let colon := pastBlanks s e
  if s[colon]? = some CH_COLON ∧ s[colon + 1]? ≠ some CH_EQ ∧ unitBefore s i ≠ some CH_AT ∧
      lowerWordAt s (skipTrivia s (colon + 1)) ∈ LABEL_ENDS then
    { f with ranges := f.ranges ++ [(i, colon + 1)] }
  else f

/-- A word from `i` to `e`, with the place where the scan goes on. -/
def scanWord (s : JsString) (groups : {gs : List (ConditionalGroup s) // Ordered gs}) (i e : Nat)
    (f : Found) : Found × From e :=
  let lower := toLowerCase (slice s i e)
  let word := if 6 ≤ e - i ∧ e - i ≤ 11 then lower else []
  if word ∈ ROUTINE_KEYWORDS ∧ (word ≠ utf16 "operator" ∨ classBefore s i ≠ none) then
    let (following, ranges) := scanRoutine s groups e f.ranges
    ({ f with ranges := ranges, last := none }, following)
  else if word = utf16 "property" then
    let (following, ranges) := scanPropertyOverride s i e f.ranges
    ({ f with ranges := ranges, last := none }, following)
  else if word = utf16 "record" then
    let (following, ranges, words) := scanAnonymousRecord s i e f.ranges f.words
    ({ f with ranges := ranges, words := words, last := none }, following)
  else if e - i = 3 ∧ lower = utf16 "for" then
    let (following, ranges) := scanForInVariable s e f.ranges
    ({ f with ranges := ranges, last := none }, following)
  else
    let f := if e - i = 5 ∧ lower = utf16 "raise" then scanRaise s i e f else scanLabel s i e f
    ({ f with last := some (i, e) }, ⟨e, Nat.le_refl e⟩)

/-- A comment or string from `i` to `k`. -/
def scanCommentOrString (s : JsString) (groups : List (ConditionalGroup s)) (i k : Nat) (f : Found) :
    Found :=
  if s[i]? = some CH_QUOTE then { f with last := some (i, k) }
  else
    match f.last with
    | none => f
    | some last =>
      if s[i + 1]? = some CH_DOLLAR ∧ groupAt groups i ≠ none then
        match statementPosition s last.1 last.2 with
        | none => f
        | some caseLabel => { f with label := assign f.label i caseLabel }
      else f

def scanSource (s : JsString) (groups : {gs : List (ConditionalGroup s) // Ordered gs}) : Found :=
  scan 0 s.length (fun (f : Found) ⟨i, _⟩ =>
    match commentOrStringEnd s i with
    | some k => .go (scanCommentOrString s groups i k f) k
    | none =>
      if identStartAt s i then
        let ⟨e, later⟩ := wordEnd s (i + 1)
        let (f, ⟨following, ahead⟩) := scanWord s groups i e f
        .go f ⟨following, after_trans later ahead⟩
      else if digitAt s i then
        let ⟨e, later⟩ := wordEnd s (i + 1)
        .go { f with last := some (i, e) } ⟨e, later⟩
      else if spaceAt s i then .go f (next i)
      else if s[i]? = some CH_COLON ∧ s[i + 1]? = some CH_EQ then
        .go { f with last := some (i, i + 2) } ⟨i + 2, two_on i⟩
      else .go { f with last := some (i, i + 1) } (next i)) (fun f _ => f) ⟨[], [], [], none⟩

def groupsOf (s : JsString) : {gs : List (ConditionalGroup s) // Ordered gs} :=
  if indexOf s [CH_LBRACE, CH_DOLLAR] 0 = none then ⟨[], fun _ none_ => nomatch none_⟩
  else ⟨conditionalGroups s, conditionalGroups_ordered s⟩

def editsOf (s : JsString) : List Range × List Word :=
  let groups := groupsOf s
  let f := scanSource s groups
  if groups.1 = [] then (f.ranges, f.words)
  else
    let ranges := blankDuplicateBegins s groups f.ranges
    (ranges,
      if f.label = [] then f.words else wrapAlternativeStatements s groups f.label ranges f.words)

def blankUnit (c : UInt16) : UInt16 := if isBreak c then c else CH_SPACE

def applyEdit (s : JsString) (written : JsString × Nat) (edit : Word) : JsString × Nat :=
  let (out, last) := written
  let from_ := max edit.start last
  if edit.stop ≤ from_ then (out, last)
  else
    let text := if from_ = edit.start ∧ edit.text.length ≤ edit.stop - from_ then edit.text else []
    (out ++ slice s last from_ ++ text ++ (slice s (from_ + text.length) edit.stop).map blankUnit,
      edit.stop)

def applyEdits (s : JsString) (ranges : List Range) (words : List Word) : JsString :=
  if ranges = [] ∧ words = [] then s
  else
    let edits := words ++ ranges.map fun r => ⟨r.1, r.2, []⟩
    let (out, last) := (edits.mergeSort fun a b => a.start ≤ b.start).foldl (applyEdit s) ([], 0)
    out ++ s.drop last

def isWordUnit (c : UInt16) : Bool :=
  (65 ≤ c && c ≤ 90) || (97 ≤ c && c ≤ 122) || c == 95 || (48 ≤ c && c ≤ 57)

/-- `\b` -/
def boundaryAt (s : JsString) (i : Nat) : Bool :=
  (unitBefore s i).any isWordUnit != s[i]?.any isWordUnit

def wordAt (s : JsString) (i : Nat) (word : String) : Bool :=
  slice s i (i + word.length) |>.map (fun c => if 65 ≤ c && c ≤ 90 then c + 32 else c) |> (· == utf16 word)

/-- `\bword\b` -/
def wholeWordAt (s : JsString) (i : Nat) (word : String) : Bool :=
  boundaryAt s i && wordAt s i word && boundaryAt s (i + word.length)

/-- `\bfor\s+var\b` -/
def forVarAt (s : JsString) (i : Nat) : Bool :=
  let gap := ((s.drop (i + 3)).takeWhile isWhiteSpace).length
  boundaryAt s i && wordAt s i "for" && 0 < gap && wordAt s (i + 3 + gap) "var" &&
    boundaryAt s (i + 6 + gap)

def mayNeedFixes (s : JsString) : Bool :=
  (List.range s.length).any fun i =>
    startsAt s [CH_LBRACE, CH_DOLLAR] i || s[i]? == some CH_LBRACKET || forVarAt s i ||
      wholeWordAt s i "property" || wholeWordAt s i "record" || wholeWordAt s i "raise" ||
      wholeWordAt s i "goto"

def preParsePascal (source : JsString) : JsString :=
  if !mayNeedFixes source then source
  else
    let (ranges, words) := editsOf source
    applyEdits source ranges words

end CodeGraph.Extraction.PascalPreparse
