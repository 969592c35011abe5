import CodeGraph.Foundation.Blanking
import CodeGraph.Foundation.Text

/-! The per-language comment strippers of the route extractors, and their memo. -/
namespace CodeGraph.Resolution

open Blanking Text

inductive CommentLang where
  | python
  | javascript
  | typescript
  | php
  | ruby
  | java
  | csharp
  | swift
  | go
  | rust
  | c
  | cpp
  | erlang
  deriving DecidableEq, Repr

def TAB : UInt16 := 0x09
def NEWLINE : UInt16 := 0x0a
def SPACE : UInt16 := 0x20
def DQUOTE : UInt16 := 0x22
def HASH : UInt16 := 0x23
def DOLLAR : UInt16 := 0x24
def PERCENT : UInt16 := 0x25
def SQUOTE : UInt16 := 0x27
def STAR : UInt16 := 0x2a
def SLASH : UInt16 := 0x2f
def EQUALS : UInt16 := 0x3d
def BACKSLASH : UInt16 := 0x5c
def BACKTICK : UInt16 := 0x60

def slice (src : JsString) (start stop : Nat) : JsString := (src.take stop).drop start

/-- `text.indexOf(pattern)`. -/
def indexOf (pattern : JsString) : JsString → Option Nat
  | [] => if pattern = [] then some 0 else none
  | u :: rest =>
    if pattern.isPrefixOf (u :: rest) then some 0 else (indexOf pattern rest).map (· + 1)

/-! ### Blanking -/

structure BlankedText where
  src : JsString
  parts : List JsString
  copied : Nat

namespace BlankedText

/-- The loop of `blank` from `at_` on. The fuel bounds the newlines. -/
def blankLines (src : JsString) (stop : Nat) : Nat → Nat → List JsString → List JsString
  | 0, at_, parts => parts ++ [List.replicate (stop - at_) SPACE]
  | fuel + 1, at_, parts =>
    match (indexOf [NEWLINE] (src.drop at_)).map (at_ + ·) with
    | none => parts ++ [List.replicate (stop - at_) SPACE]
    | some nl =>
      if nl < stop then
        blankLines src stop fuel (nl + 1) (parts ++ [List.replicate (nl - at_) SPACE, [NEWLINE]])
      else parts ++ [List.replicate (stop - at_) SPACE]

def blank (out : BlankedText) (start stop : Nat) : BlankedText :=
  if stop ≤ start then out
  else { out with
    parts := blankLines out.src stop (stop - start) start
      (out.parts ++ [slice out.src out.copied start])
    copied := stop }

def text (out : BlankedText) : JsString := (out.parts ++ [out.src.drop out.copied]).flatten

end BlankedText

def blankSpans (src : JsString) (ss : List Span) : JsString :=
  (ss.foldl (fun out s => if s.kind = .blank then out.blank s.start s.stop else out)
    (BlankedText.mk src [] 0)).text

def blankSlice (src : JsString) (start stop : Nat) : JsString :=
  (slice src start stop).map fun u => if u = NEWLINE then u else SPACE

def quoted (quote : UInt16) (breaks : Bool) : JsString → Nat
  | [] => 0
  | [u] => if u = quote then 1 else if breaks ∧ u = NEWLINE then 0 else 1
  | u :: v :: rest =>
    if u = quote then 1
    else if u = BACKSLASH then 2 + quoted quote breaks rest
    else if breaks ∧ u = NEWLINE then 0
    else 1 + quoted quote breaks (v :: rest)

def lineLength (rest : JsString) : Nat := (rest.takeWhile (· ≠ NEWLINE)).length

def blockLength : JsString → Nat
  | [] => 0
  | u :: rest => if u = STAR ∧ rest[0]? = some SLASH then 2 else 1 + blockLength rest

def tripleQuoted (quote : UInt16) : JsString → Nat
  | [] => 0
  | [_] => 1
  | u :: v :: rest =>
    if u = BACKSLASH then 2 + tripleQuoted quote rest
    else if u = quote ∧ v = quote ∧ rest[0]? = some quote then 3
    else 1 + tripleQuoted quote (v :: rest)

def pythonRound (_ : Unit) : JsString → Token Unit
  | [] => ⟨.plain, 1, ()⟩
  | c :: rest =>
    if (c = DQUOTE ∨ c = SQUOTE) ∧ rest[0]? = some c ∧ rest[1]? = some c then
      ⟨.blank, 3 + tripleQuoted c (rest.drop 2), ()⟩
    else if c = DQUOTE ∨ c = SQUOTE then ⟨.literal, 1 + quoted c true rest, ()⟩
    else if c = HASH then ⟨.blank, lineLength (c :: rest), ()⟩
    else ⟨.plain, 1, ()⟩

def stripPython (src : JsString) : JsString :=
  blankSpans src (spans pythonRound src.length () 0 src)

/-- `=begin` -/
def BEGIN : JsString := [0x3d, 0x62, 0x65, 0x67, 0x69, 0x6e]

/-- `=end` -/
def END : JsString := [0x3d, 0x65, 0x6e, 0x64]

/-- The rest of a block comment, with the line of its `=end`. -/
def rubyBlock : JsString → Nat
  | [] => 0
  | u :: rest =>
    let indent := (rest.takeWhile fun v => v = SPACE ∨ v = TAB).length
    if u = NEWLINE ∧ END.isPrefixOf (rest.drop indent) then
      1 + indent + END.length + lineLength (rest.drop (indent + END.length))
    else 1 + rubyBlock rest

/-- The state is `atLineStart`. -/
def rubyRound (atLineStart : Bool) : JsString → Token Bool
  | [] => ⟨.plain, 1, atLineStart⟩
  | c :: rest =>
    if atLineStart ∧ c = EQUALS ∧ BEGIN.isPrefixOf (c :: rest) then
      let length := BEGIN.length + rubyBlock ((c :: rest).drop BEGIN.length)
      ⟨.blank, length, ((c :: rest).take length).getLast? = some NEWLINE⟩
    else if c = DQUOTE ∨ c = SQUOTE then ⟨.literal, 1 + quoted c true rest, false⟩
    else if c = HASH then ⟨.blank, lineLength (c :: rest), false⟩
    else if c = NEWLINE then ⟨.plain, 1, true⟩
    else if c = SPACE ∨ c = TAB then ⟨.plain, 1, atLineStart⟩
    else ⟨.plain, 1, false⟩

def stripRuby (src : JsString) : JsString :=
  blankSpans src (spans rubyRound src.length true 0 src)

def cStyleRound (allowSingleQuoteStrings : Bool) (_ : Unit) : JsString → Token Unit
  | [] => ⟨.plain, 1, ()⟩
  | c :: rest =>
    if c = SLASH ∧ rest[0]? = some STAR then
      ⟨.blank, (indexOf [STAR, SLASH] (rest.drop 1)).elim (1 + rest.length) (2 + · + 2), ()⟩
    else if c = SLASH ∧ rest[0]? = some SLASH then
      ⟨.blank, (indexOf [NEWLINE] (rest.drop 1)).elim (1 + rest.length) (2 + ·), ()⟩
    else if c = DQUOTE ∨ (allowSingleQuoteStrings ∧ c = SQUOTE) ∨ c = BACKTICK then
      ⟨.literal, 1 + quoted c (c ≠ BACKTICK) rest, ()⟩
    else ⟨.plain, 1, ()⟩

def cStyleParts (src : JsString) (ss : List Span) : List JsString × Nat :=
  ss.foldl (fun (parts, copied) s =>
    if s.kind = .blank then
      (parts ++ [slice src copied s.start, blankSlice src s.start s.stop], s.stop)
    else (parts, copied)) ([], 0)

/-- `Buffer.from(text, 'latin1').toString('latin1')` keeps the low byte of each unit. -/
def latin1 (text : JsString) : JsString := text.map fun u => u.toUInt8.toUInt16

def stripCStyle (src : JsString) (allowSingleQuoteStrings : Bool) : JsString :=
  let (parts, copied) :=
    cStyleParts src (spans (cStyleRound allowSingleQuoteStrings) src.length () 0 src)
  if copied = 0 then src
  else
    let out := (parts ++ [src.drop copied]).flatten
    if out.any (0xff < ·) then out else latin1 out

def phpRound (_ : Unit) : JsString → Token Unit
  | [] => ⟨.plain, 1, ()⟩
  | c :: rest =>
    if c = SLASH ∧ rest[0]? = some STAR then ⟨.blank, 2 + blockLength (rest.drop 1), ()⟩
    else if c = SLASH ∧ rest[0]? = some SLASH then ⟨.blank, lineLength (c :: rest), ()⟩
    else if c = HASH then ⟨.blank, lineLength (c :: rest), ()⟩
    else if c = DQUOTE ∨ c = SQUOTE ∨ c = BACKTICK then ⟨.literal, 1 + quoted c true rest, ()⟩
    else ⟨.plain, 1, ()⟩

def stripPhp (src : JsString) : JsString := blankSpans src (spans phpRound src.length () 0 src)

def rawLength : JsString → Nat
  | [] => 0
  | u :: rest => if u = BACKTICK then 1 else 1 + rawLength rest

def goRound (_ : Unit) : JsString → Token Unit
  | [] => ⟨.plain, 1, ()⟩
  | c :: rest =>
    if c = SLASH ∧ rest[0]? = some STAR then ⟨.blank, 2 + blockLength (rest.drop 1), ()⟩
    else if c = SLASH ∧ rest[0]? = some SLASH then ⟨.blank, lineLength (c :: rest), ()⟩
    else if c = BACKTICK then ⟨.literal, 1 + rawLength rest, ()⟩
    else if c = DQUOTE then ⟨.literal, 1 + quoted DQUOTE true rest, ()⟩
    else if c = SQUOTE then ⟨.literal, 1 + quoted SQUOTE true rest, ()⟩
    else ⟨.plain, 1, ()⟩

def stripGo (src : JsString) : JsString := blankSpans src (spans goRound src.length () 0 src)

/-- The rest of `depth` nested block comments. -/
def nestedLength : Nat → JsString → Nat
  | 0, _ => 0
  | _ + 1, [] => 0
  | _ + 1, [_] => 1
  | depth + 1, u :: v :: rest =>
    if u = SLASH ∧ v = STAR then 2 + nestedLength (depth + 2) rest
    else if u = STAR ∧ v = SLASH then 2 + nestedLength depth rest
    else 1 + nestedLength (depth + 1) (v :: rest)

def rustRound (_ : Unit) : JsString → Token Unit
  | [] => ⟨.plain, 1, ()⟩
  | c :: rest =>
    if c = SLASH ∧ rest[0]? = some STAR then ⟨.blank, 2 + nestedLength 1 (rest.drop 1), ()⟩
    else if c = SLASH ∧ rest[0]? = some SLASH then ⟨.blank, lineLength (c :: rest), ()⟩
    else if c = DQUOTE then ⟨.literal, 1 + quoted DQUOTE false rest, ()⟩
    else if c = SQUOTE then ⟨.literal, 1 + quoted SQUOTE true rest, ()⟩
    else ⟨.plain, 1, ()⟩

def stripRust (src : JsString) : JsString := blankSpans src (spans rustRound src.length () 0 src)

def erlangRound (_ : Unit) : JsString → Token Unit
  | [] => ⟨.plain, 1, ()⟩
  | c :: rest =>
    if c = DQUOTE ∨ c = SQUOTE then ⟨.literal, 1 + quoted c false rest, ()⟩
    else if c = DOLLAR then ⟨.literal, 1 + (if rest[0]? = some BACKSLASH then 1 else 0) + 1, ()⟩
    else if c = PERCENT then ⟨.blank, lineLength (c :: rest), ()⟩
    else ⟨.plain, 1, ()⟩

def stripErlang (src : JsString) : JsString :=
  blankSpans src (spans erlangRound src.length () 0 src)

def stripUncached (content : JsString) : CommentLang → JsString
  | .python => stripPython content
  | .ruby => stripRuby content
  | .rust => stripRust content
  | .erlang => stripErlang content
  | .php => stripPhp content
  | .go => stripGo content
  | .javascript => stripCStyle content true
  | .typescript => stripCStyle content true
  | .java => stripCStyle content false
  | .csharp => stripCStyle content false
  | .swift => stripCStyle content false
  | .c => stripCStyle content false
  | .cpp => stripCStyle content false

def scanned (content : JsString) : CommentLang → List Span
  | .python => spans pythonRound content.length () 0 content
  | .ruby => spans rubyRound content.length true 0 content
  | .rust => spans rustRound content.length () 0 content
  | .erlang => spans erlangRound content.length () 0 content
  | .php => spans phpRound content.length () 0 content
  | .go => spans goRound content.length () 0 content
  | .javascript => spans (cStyleRound true) content.length () 0 content
  | .typescript => spans (cStyleRound true) content.length () 0 content
  | .java => spans (cStyleRound false) content.length () 0 content
  | .csharp => spans (cStyleRound false) content.length () 0 content
  | .swift => spans (cStyleRound false) content.length () 0 content
  | .c => spans (cStyleRound false) content.length () 0 content
  | .cpp => spans (cStyleRound false) content.length () 0 content

def STRIP_MEMO_BYTES : Nat := 256 * 1024 * 1024

def stripperKey : CommentLang → CommentLang
  | .typescript => .javascript
  | .csharp => .java
  | .swift => .java
  | .c => .java
  | .cpp => .java
  | lang => lang

abbrev StripMemo := CommentLang → List (JsString × JsString)

/-- `stripMemo` and `stripMemoBytes`. -/
structure MemoState where
  stripMemo : Option StripMemo
  stripMemoBytes : Nat

def stripCommentsForRegex (content : JsString) (lang : CommentLang) (m : MemoState) :
    JsString × MemoState :=
  match m.stripMemo with
  | none => (stripUncached content lang, m)
  | some memo =>
    let key := stripperKey lang
    match (memo key).lookup content with
    | some hit => (hit, m)
    | none =>
      let out := stripUncached content lang
      if m.stripMemoBytes + out.length ≤ STRIP_MEMO_BYTES then
        (out, { stripMemo := some fun k => if k = key then (content, out) :: memo k else memo k
                stripMemoBytes := m.stripMemoBytes + out.length })
      else (out, m)

/-- What `withStripMemo` leaves behind when its work begins; what was there is restored after it. -/
def freshMemo : MemoState where
  stripMemo := some fun _ => []
  stripMemoBytes := 0

end CodeGraph.Resolution
