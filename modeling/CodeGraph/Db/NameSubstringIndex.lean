import CodeGraph.Foundation.CountingSort
import CodeGraph.Foundation.InsertionMap
import CodeGraph.Foundation.Utf16

/-!
# The index of names

The names of the indexed rows are read once, into one text that is searched for every word.
-/
namespace CodeGraph.Db.NameSubstring

open Text Utf16 InsertionMap

structure Row where
  rowid : Int
  kind : String
  name : String

def NAME_SUBSTRING_KINDS : List String :=
  ["class", "component", "constant", "enum", "function", "interface", "method", "protocol",
    "struct", "trait", "type_alias", "union", "variable"]

def SEPARATOR : UInt16 := 0

def underscore : UInt16 := 0x5F

def percent : UInt16 := 0x25

structure NameSubstringIndex where
  kinds : List String
  hay : JsString
  starts : List Nat
  nameEntryStart : List Nat
  nameEntries : List Nat
  entryRowid : List Int
  entryKind : List Nat
  entryLength : List Nat

def asciiLower (text : JsString) : JsString :=
  text.map fun u => if 0x41 ≤ u && u ≤ 0x5A then u + 0x20 else u

def pairs : JsString → Nat
  | [] => 0
  | [_] => 0
  | u :: v :: s => if isHigh u && isLow v then pairs s + 1 else pairs (v :: s)

def sqliteLength (text : JsString) : Nat := text.length - pairs text

structure Building where
  nameIds : List (JsString × Nat)
  names : List JsString
  rowids : List Int
  kinds : List Nat
  lengths : List Nat
  nameOf : List Nat

def Building.idFor (b : Building) (lowered : JsString) : Nat × Building :=
  match lookup b.nameIds lowered with
  | some id => (id, b)
  | none =>
    (b.names.length,
      { b with
        nameIds := assign b.nameIds lowered b.names.length
        names := b.names ++ [lowered] })

/-- One round of the loop; `none` is the name with a separator, at which the build returns null. -/
def Building.addRow (b : Building) (row : Row) : Option Building :=
  match NAME_SUBSTRING_KINDS.idxOf? row.kind with
  | none => some b
  | some code =>
    let lowered := asciiLower (utf16 row.name)
    if lowered.contains SEPARATOR then none
    else
      let (id, b) := b.idFor lowered
      some
        { b with
          rowids := b.rowids ++ [row.rowid]
          kinds := b.kinds ++ [code]
          lengths := b.lengths ++ [sqliteLength (utf16 row.name)]
          nameOf := b.nameOf ++ [id] }

def Building.empty : Building := ⟨[], [], [], [], [], []⟩

/-- Where each name starts, from `offset`, and one past the end. -/
def startsFrom : Nat → List JsString → List Nat
  | offset, [] => [offset]
  | offset, name :: names => offset :: startsFrom (offset + (name.length + 1)) names

def Building.index (b : Building) : NameSubstringIndex where
  kinds := NAME_SUBSTRING_KINDS
  hay := List.intercalate [SEPARATOR] b.names ++ [SEPARATOR]
  starts := startsFrom 0 b.names
  nameEntryStart := CountingSort.starts b.names.length b.nameOf
  nameEntries := CountingSort.grouped b.names.length b.nameOf
  entryRowid := b.rowids
  entryKind := b.kinds
  entryLength := b.lengths

def buildNameSubstringIndex (rows : List Row) : Option NameSubstringIndex :=
  (rows.foldlM Building.addRow Building.empty).map Building.index

/-! ### Searching -/

/-- The rounds of `nameAt`. The fuel bounds them. -/
def nameAtLoop (starts : List Nat) (offset : Nat) : Nat → Nat → Nat → Nat
  | 0, lo, _ => lo
  | fuel + 1, lo, hi =>
    if lo < hi then
      let mid := (lo + hi + 1) / 2
      if starts.getD mid 0 ≤ offset then nameAtLoop starts offset fuel mid hi
      else nameAtLoop starts offset fuel lo (mid - 1)
    else lo

def nameAt (starts : List Nat) (offset : Nat) : Nat :=
  nameAtLoop starts offset starts.length 0 (starts.length - 2)

structure Matcher where
  /-- Where the next match at or after a place starts. -/
  next : JsString → Nat → Option Nat
  startsAt : JsString → Nat → Bool

/-- The pattern with wildcards, one code point after the other: `[^\u0000]` for `_`. -/
def pointsMatch : List JsString → List JsString → Bool
  | [], _ => true
  | _ :: _, [] => false
  | item :: items, point :: points =>
    (if item = [underscore] then point ≠ [SEPARATOR] else point = item) && pointsMatch items points

def scan (items : List JsString) : Nat → List JsString → Option Nat
  | start, [] => if pointsMatch items [] then some start else none
  | start, point :: points =>
    if pointsMatch items (point :: points) then some start
    else scan items (start + point.length) points

def patternMatcher (needle : JsString) : Matcher :=
  if needle.contains underscore then
    { next := fun hay start => scan (codePoints needle) start (codePoints (hay.drop start))
      startsAt := fun hay start => pointsMatch (codePoints needle) (codePoints (hay.drop start)) }
  else
    { next := fun hay start => PrefixCodes.indexFrom needle start (hay.drop start)
      startsAt := fun hay start => needle.isPrefixOf (hay.drop start) }

namespace NameSubstringIndex

variable (index : NameSubstringIndex)

/-- `wanted`, or `none` at a kind that the index does not hold. -/
def wanted (kinds : List String) : Option (List Bool) :=
  kinds.foldlM (fun table kind => (index.kinds.idxOf? kind).map fun code => table.set code true)
    (List.replicate index.kinds.length false)

def entriesOf (table : List Bool) (name : Nat) : List Nat :=
  let start := index.nameEntryStart.getD name 0
  let stop := index.nameEntryStart.getD (name + 1) 0
  ((List.range' start (stop - start)).map fun k => index.nameEntries.getD k 0).filter fun entry =>
    table.getD (index.entryKind.getD entry 0) false

/-- The loop over the matches, from a match; `none` when the fuel ends. -/
def hitsFrom (matcher : Matcher) (table : List Bool) (excludePrefix : Bool) :
    Nat → Option Nat → Option (List Nat)
  | 0, _ => none
  | _ + 1, none => some []
  | fuel + 1, some here =>
    let name := nameAt index.starts here
    let hits :=
      if excludePrefix && matcher.startsAt index.hay (index.starts.getD name 0) then []
      else index.entriesOf table name
    let next := matcher.next index.hay (index.starts.getD (name + 1) 0)
    (hitsFrom matcher table excludePrefix fuel next).map (hits ++ ·)

/-- The comparison of `hits.sort`. -/
def compare (a b : Nat) : Int :=
  let lengths : Int := index.entryLength.getD a 0 - index.entryLength.getD b 0
  let kinds : Int := index.entryKind.getD a 0 - index.entryKind.getD b 0
  if lengths ≠ 0 then lengths
  else if kinds ≠ 0 then kinds
  else index.entryRowid.getD a 0 - index.entryRowid.getD b 0

/-- What is returned for the hits: sorted, cut to a limit that is not negative, as rowids. -/
def answer (limit : Int) (hits : List Nat) : List Int :=
  let sorted := hits.insertionSort fun a b => index.compare a b ≤ 0
  let cut := if 0 ≤ limit ∧ limit < sorted.length then sorted.take limit.toNat else sorted
  cut.map fun entry => index.entryRowid.getD entry 0

end NameSubstringIndex

/-- The search: `none` when its fuel ends, and `some none` where the source returns null. -/
def searchNameSubstring (fuel : Nat) (index : NameSubstringIndex) (substring : JsString)
    (kinds : List String) (excludePrefix : Bool) (limit : Int) : Option (Option (List Int)) :=
  let needle := asciiLower substring
  if needle.isEmpty || needle.contains percent || needle.contains SEPARATOR then some none
  else
    match index.wanted kinds with
    | none => some none
    | some table =>
      let matcher := patternMatcher needle
      (index.hitsFrom matcher table excludePrefix fuel (matcher.next index.hay 0)).map fun hits =>
        some (index.answer limit hits)

end CodeGraph.Db.NameSubstring
