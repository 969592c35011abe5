import CodeGraph.Foundation.CharOffsets
import CodeGraph.Foundation.RustText
import CodeGraph.Foundation.Words

/-!
# Go build constraints

The two readers of build constraints: `//go:build` expressions, and the options of a legacy
`// +build` line. A reader that panics returns nothing.
-/
namespace CodeGraph.Resolution.GoBuild

open Text CharOffsets RustText

def GO_UNIX_OS : List String :=
  ["aix", "android", "darwin", "dragonfly", "freebsd", "hurd", "illumos", "ios", "linux", "netbsd",
    "openbsd", "solaris"]

structure GoTarget where
  goos : String
  goarch : String

def isAsciiDigit (b : UInt8) : Bool := 0x30 ≤ b && b ≤ 0x39

def isAsciiAlphanumeric (b : UInt8) : Bool :=
  isAsciiDigit b || (0x41 ≤ b && b ≤ 0x5A) || (0x61 ≤ b && b ≤ 0x7A)

def isAsciiWhitespace (b : UInt8) : Bool :=
  b == 0x20 || b == 0x09 || b == 0x0A || b == 0x0C || b == 0x0D

/-- A letter, a digit, `_` or `.`. -/
def isTagByte (b : UInt8) : Bool := isAsciiAlphanumeric b || b == 0x5F || b == 0x2E

/-- A release tag, `go1.` and digits. -/
def isRelease (tag : String) : Bool :=
  let version := (utf8 tag).drop 4
  (utf8 "go1.").isPrefixOf (utf8 tag) && !version.isEmpty && version.all isAsciiDigit

def goTagHolds (tag : String) (t : GoTarget) : Bool :=
  if tag = t.goos ∨ tag = t.goarch then true
  else
    match tag with
    | "unix" => GO_UNIX_OS.contains t.goos
    | "linux" => t.goos == "android"
    | "darwin" => t.goos == "ios"
    | "solaris" => t.goos == "illumos"
    | "gc" => true
    | "cgo" => t.goos != "js" && t.goos != "wasip1"
    | _ => isRelease tag

inductive BuildExpr where
  | tag (name : String)
  | not (e : BuildExpr)
  | and (a b : BuildExpr)
  | or (a b : BuildExpr)

def BuildExpr.holds (t : GoTarget) : BuildExpr → Bool
  | .tag name => goTagHolds name t
  | .not e => !e.holds t
  | .and a b => a.holds t && b.holds t
  | .or a b => a.holds t || b.holds t

/-- The loop of `buildTokens` from a byte on; it panics at a slice inside a character. The fuel
bounds the rounds. -/
def tokensFrom (text : String) : Nat → Nat → Option (List String)
  | 0, _ => none
  | fuel + 1, i =>
    match (utf8 text).drop i with
    | [] => some []
    | b :: rest =>
      if isAsciiWhitespace b then tokensFrom text fuel (i + 1)
      else
        let run := ((b :: rest).takeWhile isTagByte).length
        let stop :=
          if (utf8 "&&").isPrefixOf (b :: rest) || (utf8 "||").isPrefixOf (b :: rest) then i + 2
          else if b == 0x28 || b == 0x29 || b == 0x21 then i + 1
          else if 0 < run then i + run
          -- A stray token, of one byte.
          else i + 1
        (slice text i stop).bind fun token => (tokensFrom text fuel stop).map (token :: ·)

def buildTokens (text : String) : Option (List String) :=
  tokensFrom text ((utf8 text).length + 1) 0

/-! ### Expressions -/

/-- Why there is no expression: the text is none, or the fuel ends. -/
inductive Halt where
  | rejected
  | fuel

abbrev Parse := Except Halt (BuildExpr × List String)

def isTag (token : String) : Bool := !(utf8 token).isEmpty && (utf8 token).all isTagByte

mutual

/-- The parsers return the tokens that are left. The fuel bounds the calls. -/
def parseOr : Nat → List String → Parse
  | 0, _ => .error .fuel
  | fuel + 1, toks => do
    let (left, toks) ← parseAnd fuel toks
    orLoop fuel left toks

def orLoop : Nat → BuildExpr → List String → Parse
  | 0, _, _ => .error .fuel
  | fuel + 1, left, toks =>
    if toks.head? = some "||" then do
      let (right, toks) ← parseAnd fuel toks.tail
      orLoop fuel (.or left right) toks
    else .ok (left, toks)

def parseAnd : Nat → List String → Parse
  | 0, _ => .error .fuel
  | fuel + 1, toks => do
    let (left, toks) ← parseNot fuel toks
    andLoop fuel left toks

def andLoop : Nat → BuildExpr → List String → Parse
  | 0, _, _ => .error .fuel
  | fuel + 1, left, toks =>
    if toks.head? = some "&&" then do
      let (right, toks) ← parseNot fuel toks.tail
      andLoop fuel (.and left right) toks
    else .ok (left, toks)

def parseNot : Nat → List String → Parse
  | 0, _ => .error .fuel
  | _ + 1, [] => .error .rejected
  | fuel + 1, tok :: toks =>
    if tok = "!" then do
      let (e, toks) ← parseNot fuel toks
      .ok (.not e, toks)
    else if tok = "(" then do
      let (inner, toks) ← parseOr fuel toks
      if toks.head? = some ")" then .ok (inner, toks.tail) else .error .rejected
    else if isTag tok then .ok (.tag tok, toks)
    else .error .rejected

end

/-- `none` is a panic, or fuel that ends. -/
def goParseBuildExpr (text : String) : Option (Option BuildExpr) :=
  (buildTokens text).bind fun toks =>
    match parseOr (4 * toks.length + 3) toks with
    | .error .fuel => none
    | .error .rejected => some none
    | .ok (expr, rest) => some (if rest = [] then some expr else none)

/-- `str::split_whitespace`. -/
def splitWhitespace (text : List Char) : List (List Char) := Words.words isWhitespace text

def plusTerm (term : List Char) : Option (Bool × String) :=
  let (neg, tag) :=
    match term with
    | '!' :: tag => (true, String.ofList tag)
    | _ => (false, String.ofList term)
  if isTag tag then some (neg, tag) else none

def plusLiteral : Bool × String → BuildExpr
  | (neg, tag) => if neg then .not (.tag tag) else .tag tag

def plusOption : List (Bool × String) → Option BuildExpr
  | [] => none
  | first :: terms =>
    some (terms.foldl (fun acc term => .and acc (plusLiteral term)) (plusLiteral first))

def goParsePlusBuild (text : String) : Option (Option BuildExpr) :=
  match (splitWhitespace text.toList).mapM fun option => (option.splitOn ',').mapM plusTerm with
  | none => some none
  | some [] => some none
  | some (first :: options) =>
    (plusOption first).bind fun acc =>
      (options.foldlM (fun acc option => (plusOption option).map (.or acc ·)) acc).map some

end CodeGraph.Resolution.GoBuild
