import CodeGraph.Extraction.PascalText

/-!
# Razor in scripts

The Razor that is blanked in the scripts of views (`extraction/razor-script.ts`). The writes to the
text are listed in their order.
-/
namespace CodeGraph.Extraction.RazorScript

open Scanning Text

def LF : UInt16 := 10
def CR : UInt16 := 13
def SPACE : UInt16 := 32
def DQUOTE : UInt16 := 34
def SQUOTE : UInt16 := 39
def LPAREN : UInt16 := 40
def RPAREN : UInt16 := 41
def STAR : UInt16 := 42
def DOT : UInt16 := 46
def SLASH : UInt16 := 47
def ZERO : UInt16 := 48
def COLON : UInt16 := 58
def LT : UInt16 := 60
def GT : UInt16 := 62
def QUESTION : UInt16 := 63
def AT : UInt16 := 64
def LBRACKET : UInt16 := 91
def BACKSLASH : UInt16 := 92
def RBRACKET : UInt16 := 93
def LBRACE : UInt16 := 123
def RBRACE : UInt16 := 125

def CONTROL : List JsString :=
  ["if", "for", "foreach", "while", "switch", "lock", "using", "try", "do"].map utf16

def CONTINUATION : List JsString := ["else", "catch", "finally"].map utf16

def CLOSER (c : UInt16) : Option UInt16 :=
  if c = LPAREN then some RPAREN
  else if c = LBRACKET then some RBRACKET
  else if c = LBRACE then some RBRACE
  else none

/-- A write to the text: a stretch is blanked, or a `0` stands for an expression. -/
inductive Write where
  | blank (start stop : Nat)
  | zero (place : Nat)
  deriving DecidableEq, Repr

/-- `\w` -/
def isWordUnit (c : UInt16) : Bool :=
  (65 ≤ c && c ≤ 90) || (97 ≤ c && c ≤ 122) || c == 95 || (48 ≤ c && c ≤ 57)

/-- `[A-Za-z_]` -/
def isNameStart (c : UInt16) : Bool := (65 ≤ c && c ≤ 90) || (97 ≤ c && c ≤ 122) || c == 95

/-- `/^[A-Za-z_]\w*/` -/
def nameIn (window : JsString) : Option JsString :=
  if window.head?.any isNameStart then some (window.takeWhile isWordUnit) else none

/-! ### Past C# -/

def stringLength (quote : UInt16) (verbatim : Bool) : JsString → Nat
  | [] => 0
  | [c] => if c = LF ∧ !verbatim then 0 else 1
  | c :: d :: rest =>
    if !verbatim ∧ c = BACKSLASH then 2 + stringLength quote verbatim rest
    else if c = quote then
      if verbatim ∧ d = quote then 2 + stringLength quote verbatim rest else 1
    else if c = LF ∧ !verbatim then 0
    else 1 + stringLength quote verbatim (d :: rest)

def skipString (s : JsString) (quote : UInt16) (at_ : Nat) : After at_ :=
  let verbatim := decide (0 < at_ ∧ s[at_ - 1]? = some AT)
  ⟨at_ + 1 + stringLength quote verbatim (s.drop (at_ + 1)), Nat.le_add_right _ _⟩

theorem comment_on (s : JsString) (i : Nat) :
    i + 1 ≤ i + ((s.drop i).takeWhile (· ≠ LF)).length + 1 :=
  Nat.succ_le_succ (Nat.le_add_right _ _)

/-- The place just past the bracket that closes the one at `open_`. -/
def pastBracket (s : JsString) (open_ : Nat) : Option (After open_) :=
  scan (open_ + 1) s.length (fun (stack : List (Option UInt16)) ⟨i, from_⟩ =>
    if s[i]? = some DQUOTE then .go stack (skipString s DQUOTE i)
    else if s[i]? = some SQUOTE then .go stack (skipString s SQUOTE i)
    else if s[i]? = some SLASH ∧ s[i + 1]? = some SLASH then
      .go stack ⟨i + ((s.drop i).takeWhile (· ≠ LF)).length + 1, comment_on s i⟩
    else if s[i]? = some SLASH ∧ s[i + 1]? = some STAR then
      match indexOf s [STAR, SLASH] (i + 2) with
      | none => .stop none
      | some ⟨e, later⟩ => .go stack ⟨e + 2, after_two_on later⟩
    else if s[i]?.bind CLOSER ≠ none then .go (s[i]?.bind CLOSER :: stack) (next i)
    else if stack.head? = some s[i]? then
      if stack.tail = [] then .stop (some ⟨i + 1, succ_on from_⟩)
      else .go stack.tail (next i)
    else .go stack (next i)) (fun _ _ => none) [s[open_]?.bind CLOSER]

/-- The type arguments of a generic call: `/^<[A-Z][\w.,\s<>?]*>\(/`. -/
def genericCall (window : JsString) : Bool :=
  let inside (c : UInt16) :=
    isWordUnit c || c == DOT || c == 44 || isWhiteSpace c || c == LT || c == GT || c == QUESTION
  match window with
  | c :: d :: rest =>
    c == LT && 65 ≤ d && d ≤ 90 && (rest.takeWhile inside).getLast? == some GT &&
      (rest.dropWhile inside).head? == some LPAREN
  | _ => false

def pastExpression (s : JsString) (at_ : Nat) : From at_ :=
  let window := slice s at_ (at_ + 16)
  let gap := ((window.drop 5).takeWhile isWhiteSpace).length
  let awaited := if startsAt window (utf16 "await") 0 ∧ 0 < gap then 5 + gap else 0
  match nameIn (slice s (at_ + awaited) (at_ + awaited + 128)) with
  | none => ⟨at_, Nat.le_refl _⟩
  | some name =>
    let ⟨stop, past⟩ : From (at_ + awaited + name.length) :=
      scan (at_ + awaited + name.length) s.length (fun () ⟨i, from_⟩ =>
        if s[i]? = some LPAREN ∨ s[i]? = some LBRACKET then
          match pastBracket s i with
          | none => .stop ⟨i, from_⟩
          | some e => .go () e
        else if s[i]? = some LT ∧ genericCall (slice s i (i + 80)) then
          -- the bracket of the call comes after its `<`
          match indexOf s [LPAREN] (i + 1) with
          | none => .stop ⟨i, from_⟩
          | some call => .go () call
        else if s[i]? = some DOT ∧ s[i + 1]?.any isNameStart then
          .go () ⟨i + 1 + ((slice s (i + 1) (i + 129)).takeWhile isWordUnit).length, by dsimp only; omega⟩
        else if s[i]? = some QUESTION ∧ s[i + 1]? = some DOT ∧ s[i + 2]?.any isNameStart then
          .go () ⟨i + 2 + ((slice s (i + 2) (i + 130)).takeWhile isWordUnit).length, by dsimp only; omega⟩
        else .stop ⟨i, from_⟩) (fun () i => i) ()
    ⟨stop, by omega⟩

theorem opening_on (i : Nat) : i + 1 ≤ i + 6 := Nat.add_le_add_left (by decide) i

theorem closing_on (i : Nat) : i + 1 ≤ i + 7 := Nat.add_le_add_left (by decide) i

/-- Where the `</text>` that closes the `<text>` at a place starts. -/
def closingText (s : JsString) (open_ to_ : Nat) : Option (From open_) :=
  scan open_ to_ (fun (depth : Int) ⟨i, from_⟩ =>
    if startsAt s (utf16 "<text>") i then
      if depth + 1 = 0 then .stop (some ⟨i, from_⟩) else .go (depth + 1) ⟨i + 6, opening_on i⟩
    else if startsAt s (utf16 "</text>") i then
      if depth - 1 = 0 then .stop (some ⟨i, from_⟩) else .go (depth - 1) ⟨i + 7, closing_on i⟩
    else .go depth (next i)) (fun _ _ => none) 0

theorem closingText_lt {s : JsString} {open_ to_ : Nat} {close : From open_}
    (closes : closingText s open_ to_ = some close) : close < to_ := by
  have inside : ∀ close, closingText s open_ to_ = some close → close < to_ := by
    rw [closingText]
    apply scan_spec (fun _ _ => True) (fun found : Option (From open_) =>
      ∀ close, found = some close → close < to_)
    · intro depth ⟨i, _⟩ below _
      dsimp only
      split_ifs
      · rintro _ ⟨⟩
        exact below
      · trivial
      · rintro _ ⟨⟩
        exact below
      · trivial
      · trivial
    · exact fun _ _ _ _ _ none_ => nomatch none_
    · trivial
  exact inside close closes

/-- The `{` of a control statement's block. -/
def blockStart (s : JsString) (at_ limit : Nat) : Option (From at_) :=
  scan at_ limit (fun () i =>
    if s[i.1]? = some LBRACE then .stop (some i)
    else if s[i.1]? = some LPAREN then
      match pastBracket s i with
      | none => .stop none
      | some e => .go () e
    else .go () (next i)) (fun _ _ => none) ()

def continues (window : JsString) : Bool :=
  let rest := window.dropWhile isWhiteSpace
  CONTINUATION.any fun word => word.isPrefixOf rest && !rest[word.length]?.any isWordUnit

/-- An emitted script of a block, from `i` to `to_`: an `@:` line, or a `<text>`. -/
inductive Emitted (s : JsString) (i to_ : Nat) where
  | line (start : Nat) (ahead : i ≤ start) (inside : start < to_)
    (mark : startsAt s (utf16 "@:") start = true)
  | text (start : Nat) (ahead : i ≤ start) (inside : start < to_)
    (tag : startsAt s (utf16 "<text>") start = true)

def nextEmitted (s : JsString) (i to_ : Nat) : Option (Emitted s i to_) :=
  let line : Option (Emitted s i to_) :=
    match found : indexOf s (utf16 "@:") i with
    | none => none
    | some ⟨start, ahead⟩ =>
      if inside : start < to_ then some (.line start ahead inside (indexOf_starts found)) else none
  match found : indexOf s (utf16 "<text>") i with
  | none => line
  | some ⟨start, ahead⟩ =>
    if inside : start < to_ then
      let text := .text start ahead inside (indexOf_starts found)
      match line with
      | some (.line first ahead' inside' mark) =>
        some (if first ≤ start then .line first ahead' inside' mark else text)
      | _ => some text
    else line

def lineStop (s : JsString) (start to_ : Nat) (inside : start < to_)
    (mark : startsAt s (utf16 "@:") start = true) : {stop : Nat // start < stop ∧ stop ≤ to_} :=
  match found : indexOf s [LF] start with
  | none => ⟨to_, inside, Nat.le_refl _⟩
  | some ⟨e, later⟩ =>
    if beyond : to_ < e then ⟨to_, inside, Nat.le_refl _⟩
    else
      have apart : e ≠ start := by
        rintro rfl
        have break_ := @startsAt_getElem? _ _ s [LF] e 0 (indexOf_starts found) (by decide)
        have at_ := @startsAt_getElem? _ _ s (utf16 "@:") e 0 mark (by decide)
        rw [break_] at at_
        cases at_
      ⟨e, by omega, by omega⟩

def commentStop (s : JsString) (at_ to_ : Nat) (inside : at_ < to_) : After at_ :=
  match indexOf s [STAR, AT] (at_ + 2) with
  | none => ⟨to_, inside⟩
  | some ⟨e, later⟩ => if e + 2 > to_ then ⟨to_, inside⟩ else ⟨e + 2, by omega⟩

section Places

variable {at_ i e stop limit : Nat}

theorem block_on (ahead : at_ ≤ i) (later : i + 1 ≤ e) : at_ < e ∨ e = limit :=
  .inl (Nat.lt_of_le_of_lt ahead later)

theorem rest_on (ahead : at_ ≤ i) (later : i + 1 ≤ e) (ends : e < stop ∨ stop = limit) :
    at_ < stop ∨ stop = limit :=
  ends.imp_left (Nat.lt_of_le_of_lt ahead later).trans

theorem comment_past (ahead : i ≤ at_) (later : at_ + 2 ≤ e) : i + 1 ≤ e + 2 :=
  (Nat.succ_le_succ ahead).trans (after_two_on later)

end Places

mutual

/-- What is blanked of a statement block from `i` to `to_`: all but the script that it emits. -/
def keepEmittedScript (s : JsString) (i to_ : Nat) : List Write :=
  if i < to_ then
    match nextEmitted s i to_ with
    | none => [.blank i to_]
    | some (.line start ahead inside mark) =>
      let ⟨stop, _⟩ := lineStop s start to_ inside mark
      [.blank i start, .blank start (start + 2)] ++ blankRazor s (start + 2) stop ++
        keepEmittedScript s stop to_
    | some (.text start ahead inside _) =>
      match closes : closingText s start to_ with
      | none => [.blank i start, .blank start to_]
      | some ⟨close, later⟩ =>
        have inside' : close < to_ := closingText_lt closes
        [.blank i start, .blank start (start + 6)] ++ blankRazor s (start + 6) close ++
          [.blank close (close + 7)] ++ keepEmittedScript s (close + 7) to_
  else []
termination_by 2 * (to_ - i)

def blankControl (s : JsString) (at_ limit : Nat) :
    List Write × {stop : Nat // at_ < stop ∨ stop = limit} :=
  match blockStart s at_ limit with
  | none => ([.blank at_ limit], ⟨limit, Or.inr rfl⟩)
  | some ⟨i, ahead⟩ =>
    match pastBracket s i with
    | none => ([.blank at_ limit], ⟨limit, Or.inr rfl⟩)
    | some ⟨e, later⟩ =>
      if limit < e then ([.blank at_ limit], ⟨limit, Or.inr rfl⟩)
      else
        let writes := [.blank at_ (i + 1)] ++ keepEmittedScript s (i + 1) (e - 1) ++ [.blank (e - 1) e]
        if continues (slice s e (e + 32)) then
          let (rest, ⟨stop, ends⟩) := blankControl s e limit
          (writes ++ rest, ⟨stop, rest_on ahead later ends⟩)
        else (writes, ⟨e, block_on ahead later⟩)
termination_by 2 * (limit - at_)

/-- What is blanked from `i` to `to_`. -/
def blankRazor (s : JsString) (i to_ : Nat) : List Write :=
  match indexOf s [AT] i with
  | none => []
  | some ⟨at_, ahead⟩ =>
    if beyond : to_ ≤ at_ then []
    -- `name@host` is text
    else if 0 < at_ ∧ s[at_ - 1]?.any isWordUnit then blankRazor s (at_ + 1) to_
    else if s[at_ + 1]? = some AT then .blank at_ (at_ + 1) :: blankRazor s (at_ + 2) to_
    else if s[at_ + 1]? = some STAR then
      let ⟨stop, later⟩ := commentStop s at_ to_ (Nat.not_le.mp beyond)
      .blank at_ stop :: blankRazor s stop to_
    else if s[at_ + 1]? = some LBRACE ∨ s[at_ + 1]? = some LPAREN then
      match pastBracket s (at_ + 1) with
      | none => []
      | some ⟨e, later⟩ =>
        if to_ < e then []
        else
          [.blank at_ e] ++ (if s[at_ + 1]? = some LPAREN then [.zero at_] else []) ++
            blankRazor s e to_
    else if s[at_ + 1]? = some COLON then .blank at_ (at_ + 2) :: blankRazor s (at_ + 2) to_
    else
      match nameIn (slice s (at_ + 1) (at_ + 33)) with
      | none => blankRazor s (at_ + 1) to_
      | some word =>
        if word ∈ CONTROL then
          let (writes, ⟨stop, ends⟩) := blankControl s at_ to_
          writes ++ blankRazor s stop to_
        else
          let ⟨past, later⟩ := pastExpression s (at_ + 1)
          [.blank at_ (min past to_), .zero at_] ++ blankRazor s (max (min past to_) (at_ + 1)) to_
termination_by 2 * (to_ - i) + 1

end

def Write.apply (out : JsString) : Write → JsString
  | .blank start stop =>
    (out.mapIdx fun i c => if start ≤ i ∧ i < stop ∧ c ≠ LF ∧ c ≠ CR then SPACE else c) ++
      List.replicate (stop - max start out.length) SPACE
  | .zero place => out.set place ZERO

/-- `source` with its Razor blanked. -/
def blankRazorInScript (source : JsString) : JsString :=
  if indexOf source [AT] 0 = none then source
  else (blankRazor source 0 source.length).foldl Write.apply source

def commentWrites (source : JsString) : List Write :=
  scan 0 source.length (fun (writes : List Write) ⟨i, _⟩ =>
    match indexOf source [AT, STAR] i with
    | none => .stop writes
    | some ⟨at_, ahead⟩ =>
      match indexOf source [STAR, AT] (at_ + 2) with
      | none => .stop writes
      | some ⟨e, later⟩ => .go (writes ++ [.blank at_ (e + 2)]) ⟨e + 2, comment_past ahead later⟩)
    (fun writes _ => writes) []

/-- `source` with its comments blanked. -/
def blankRazorComments (source : JsString) : JsString :=
  if indexOf source [AT, STAR] 0 = none then source
  else (commentWrites source).foldl Write.apply source

end CodeGraph.Extraction.RazorScript
