import CodeGraph.Extraction.PascalConditionals
import CodeGraph.Foundation.InsertionMap

/-!
# Branches of Pascal conditionals

The blocks that branches leave open, and branches that are alternative statements.
-/
namespace CodeGraph.Extraction.PascalPreparse

open Scanning Text

def STATEMENT_KEYWORDS : List JsString :=
  ["begin", "if", "while", "for", "repeat", "case", "try", "with", "raise", "inherited", "goto",
    "asm"].map utf16

def TYPE_KEYWORDS : List JsString :=
  ["procedure", "function", "reference", "class", "record", "object", "interface", "array", "set",
    "file", "packed", "string", "type", "const", "var", "out"].map utf16

def STATEMENT_CONTINUES : List JsString :=
  ["then", "do", "else", "of", "and", "or", "xor", "not", "div", "mod", "shl", "shr", "in", "is", "as",
    "to", "downto", "until", "goto", "on"].map utf16

variable {s : JsString}

inductive OpenKind where
  | begin | asm | other
  deriving DecidableEq, Repr

/-- The blocks that a stretch leaves open, in order, unless it closes one that it has not opened. -/
def openBlocks (s : JsString) (r : Range) : Option (List (Nat × OpenKind)) :=
  scan r.1 r.2 (fun (open_ : List (Nat × OpenKind)) ⟨i, _⟩ =>
    match commentOrStringEnd s i with
    | some k => .go open_ k
    | none =>
      if identStartAt s i then
        let ⟨e, later⟩ := wordEnd s (i + 1)
        if 3 ≤ e - i ∧ e - i ≤ 6 then
          let word := toLowerCase (slice s i e)
          if word = utf16 "end" then
            if open_ = [] then .stop none else .go open_.dropLast ⟨e, later⟩
          else if word ∈ BLOCK_OPENERS then
            let kind :=
              if word = utf16 "begin" then .begin else if word = utf16 "asm" then .asm else .other
            .go (open_ ++ [(i, kind)]) ⟨e, later⟩
          else .go open_ ⟨e, later⟩
        else .go open_ ⟨e, later⟩
      else .go open_ (next i)) (fun open_ _ => some open_) []

def duplicateBegins (open_ : List (Range × List (Nat × OpenKind))) : List Range :=
  let kinds (kind : OpenKind) := open_.countP fun o => o.2.all fun b => b.2 = kind
  let opener (b : Nat × OpenKind) : Range := (b.1, b.1 + 5)
  if kinds .begin = open_.length ∧
      open_.all (fun o => o.2.length = (open_.head?.map fun o => o.2.length).getD 0) then
    (open_.drop 1).flatMap fun o => o.2.map opener
  else if open_.all (fun o => o.2.length = 1) ∧ 0 < kinds .asm ∧ 0 < kinds .begin ∧
      kinds .begin + kinds .asm = open_.length then
    -- the first `begin` is kept
    (open_.foldl (fun (kept, ranges) o =>
      match o.2 with
      | [] => (kept, ranges)
      | b :: _ =>
        if b.2 = .asm then (kept, ranges ++ [o.1])
        else if kept then (kept, ranges ++ [opener b])
        else (true, ranges)) (false, ([] : List Range))).2
  else []

def blankDuplicateBegins (s : JsString) (groups : List (ConditionalGroup s)) (ranges : List Range) :
    List Range :=
  groups.foldl (fun ranges g =>
    if g.nested.length < 2 ∨ true ∈ g.nested then ranges
    else
      match g.branches.mapM fun r => ((openBlocks s r).filter (· ≠ [])).map fun blocks => (r, blocks) with
      | none => ranges
      | some open_ => ranges ++ duplicateBegins open_) ranges

inductive Shape where
  | none | statements | statementsSemi | empty
  deriving DecidableEq, Repr

inductive Start where
  | none | statement | call | name
  deriving DecidableEq, Repr

/-- How far the first dotted name has been read: after a part of it, after its `.`, or it is done. -/
inductive NameScan where
  | done | part | dot
  deriving DecidableEq, Repr

structure ShapeScan where
  /-- The open blocks, the innermost first: whether it is a `repeat`. -/
  blocks : List Bool
  depth : Int
  /-- Heads that wait for their `then` or `do`. -/
  heads : Int
  tokens : Nat
  start : Start
  name : NameScan
  last : JsString

def ShapeScan.word (p : ShapeScan) (word : JsString) : Option ShapeScan := do
  let blocks ←
    if word = utf16 "begin" ∨ word = utf16 "try" ∨ word = utf16 "case" ∨ word = utf16 "asm" then
      some (false :: p.blocks)
    else if word = utf16 "repeat" then some (true :: p.blocks)
    else if word = utf16 "end" then if p.blocks.head? = some false then some p.blocks.tail else none
    else if word = utf16 "until" then if p.blocks.head? = some true then some p.blocks.tail else none
    else some p.blocks
  let heads :=
    if word ∈ ["if", "while", "for", "with", "on"].map utf16 then p.heads + 1
    else if word = utf16 "then" ∨ word = utf16 "do" then p.heads - 1
    else p.heads
  let first := p.tokens + 1 = 1
  let start := if first ∧ word ∈ STATEMENT_KEYWORDS then .statement else p.start
  let name :=
    if first then
      if word ∉ STATEMENT_KEYWORDS ∧ word ∉ TYPE_KEYWORDS ∧ word ∉ STATEMENT_CONTINUES ∧
          word ≠ utf16 "end" then .part
      else p.name
    else if p.name = .dot then .part else .done
  some { p with
    blocks := blocks, heads := heads, tokens := p.tokens + 1, start := start, name := name, last := word }

/-- A unit of no word, unless it closes a bracket that is not there. -/
def ShapeScan.mark (p : ShapeScan) (c : Option UInt16) : Option ShapeScan :=
  let named := p.name = .part ∧ p.start = .none
  let p := { p with
    tokens := p.tokens + 1
    name := if c = some CH_DOT ∧ p.name = .part then .dot else .done
    last := c.toList }
  if c = some CH_LPAREN ∨ c = some CH_LBRACKET then
    some { p with
      start := if c = some CH_LPAREN ∧ named then .call else p.start
      depth := p.depth + 1 }
  else if c = some CH_RPAREN ∨ c = some CH_RBRACKET then
    if p.depth - 1 < 0 then none else some { p with depth := p.depth - 1 }
  else if c = some CH_SEMI ∧ named then some { p with start := .name }
  else some p

def ShapeScan.shape (p : ShapeScan) (bare : Bool) : Shape :=
  if p.tokens = 0 then .empty
  else if p.depth ≠ 0 ∨ p.blocks ≠ [] ∨ p.heads ≠ 0 then .none
  else
    let start := if p.name = .part ∧ p.start = .none then .name else p.start
    if start = .none ∨ (start = .name ∧ !bare) then .none
    else if p.last = [CH_SEMI] then .statementsSemi
    else if p.last ∈ [[CH_RPAREN], [CH_RBRACKET], [CH_CARET], [CH_QUOTE], utf16 "0"] ∨
        (p.last.head?.any isIdentStart ∧ p.last ∉ STATEMENT_CONTINUES) then .statements
    else .none

def statementsShape (s : JsString) (r : Range) (bare : Bool) : Shape :=
  scan r.1 r.2 (fun (p : ShapeScan) ⟨i, _⟩ =>
    match commentOrStringEnd s i with
    | some k =>
      .go (if s[i]? = some CH_QUOTE then
        { p with tokens := p.tokens + 1, name := .done, last := [CH_QUOTE] } else p) k
    | none =>
      if spaceAt s i then .go p (next i)
      else if identStartAt s i then
        let ⟨e, later⟩ := wordEnd s (i + 1)
        match p.word (if e - i ≤ 9 then toLowerCase (slice s i e) else utf16 "word") with
        | none => .stop .none
        | some p => .go p ⟨e, later⟩
      else if digitAt s i then
        .go { p with tokens := p.tokens + 1, name := .done, last := utf16 "0" } (wordEnd s (i + 1))
      else if s[i]? = some CH_COLON ∧ s[i + 1]? = some CH_EQ then
        .go { p with
          tokens := p.tokens + 1
          start := if p.depth = 0 ∧ p.start ≠ .call then .statement else p.start
          name := .done
          last := [CH_COLON, CH_EQ] } ⟨i + 2, Nat.le_succ (i + 1)⟩
      else
        match p.mark s[i]? with
        | none => .stop .none
        | some p => .go p (next i)) (fun p _ => p.shape bare)
    ⟨[], 0, 0, 0, .none, .done, []⟩

def overlapsRange (ranges : List Range) (r : Range) : Bool :=
  ranges.any fun blank => blank.1 < r.2 ∧ r.1 < blank.2

def isBreak (c : UInt16) : Bool := c == CH_LF || c == CH_CR

def onOneLine (s : JsString) (at_ length : Nat) : Bool :=
  (List.range length).all fun q => s[at_ + q]?.all fun c => !isBreak c

structure Branches where
  filled : Nat
  semi : Bool
  breaks : Bool
  ok : Bool

def branchStep (s : JsString) (afterLabel : Bool) (b : Branches) (r : Range) : Branches :=
  if !b.ok then b
  else
    match statementsShape s r (!afterLabel) with
    | .empty => b
    | shape => {
        filled := b.filled + 1
        semi := shape = .statementsSemi
        breaks := b.breaks || (0 < b.filled && !b.semi)
        ok := shape ≠ .none }

def alternativeWords (g : ConditionalGroup s) (semi : Bool) : List Word :=
  [⟨g.opening.start, g.opening.stop, utf16 "begin"⟩] ++
    g.alternatives.map (fun d => ⟨d.start, d.stop, [CH_SEMI]⟩) ++
    [⟨g.closing.start, g.closing.stop, if semi then utf16 "end;" else utf16 "end"⟩]

def wrapAlternativeStatements (s : JsString) (groups : List (ConditionalGroup s))
    (label : List (Nat × Bool)) (ranges : List Range) (words : List Word) : List Word :=
  groups.foldl (fun words g =>
    match InsertionMap.lookup label g.opening.start with
    | none => words
    | some afterLabel =>
      if g.nested.length < 2 ∨ true ∈ g.nested then words
      else
        let b := g.branches.foldl (branchStep s afterLabel) ⟨0, false, afterLabel, true⟩
        if !b.ok ∨ b.filled < 2 ∨ !b.breaks ∨ !onOneLine s g.opening.start 5 then words
        else if g.bounds.any fun d => overlapsRange ranges d.range then words
        else words ++ alternativeWords g b.semi) words

/-- Whether a token is a case label's `:`, or `then`, `else` or `do`. -/
def statementPosition (s : JsString) (at_ stop : Nat) : Option Bool :=
  let length := stop - at_
  if length = 1 then if s[at_]? = some CH_COLON then some true else none
  else if length < 2 ∨ 4 < length then none
  else if toLowerCase (slice s at_ stop) ∈ ["then", "else", "do"].map utf16 then some false
  else none

end CodeGraph.Extraction.PascalPreparse
