import CodeGraph.Foundation.PosixPaths
import CodeGraph.Foundation.OrderBy
import CodeGraph.Resolution.WorkspacePackages

/-!
# Paths

The path functions of the kernel's resolver (`codegraph-kernel/src/resolve/paths.rs`).
-/
namespace CodeGraph.Resolution.Paths

abbrev Str := List Char

def here : Str := ['.']

def up : Str := ['.', '.']

def isAbsolute (p : Str) : Bool := p.head? == some '/'

def joined (segments : List Str) : Str := ['/'].intercalate segments

/-- `trim_end_matches('/')` -/
def trimEnd (p : Str) : Str := p.rdropWhile (· == '/')

/-- `rfind('/')` and what is before it. -/
def pos_dirname (p : Str) : Str := (p.reverse.dropWhile (· ≠ '/')).drop 1 |>.reverse

def normalizeStep (absolute : Bool) (out : List Str) (seg : Str) : List Str :=
  if seg = [] ∨ seg = here then out
  else if seg = up then
    if out.getLast?.any (· ≠ up) then out.dropLast
    else if !absolute then out ++ [up]
    else out
  else out ++ [seg]

def pos_normalize (p : Str) : Str :=
  let absolute := isAbsolute p
  let out := (p.splitOn '/').foldl (normalizeStep absolute) []
  if absolute then '/' :: joined out
  else if joined out = [] then here
  else joined out

def pos_resolve (dir p : Str) : Str :=
  if isAbsolute p then pos_normalize p else pos_normalize (trimEnd dir ++ '/' :: p)

theorem pos_dirname_shorter {p : Str} (some_ : pos_dirname p ≠ []) :
    (pos_dirname p).length < p.length := by
  have le := (List.dropWhile_suffix (l := p.reverse) fun c => c ≠ '/').length_le
  rw [List.length_reverse] at le
  have ne : (p.reverse.dropWhile fun c => decide (c ≠ '/')).length ≠ 0 := by
    intro none_
    rw [List.length_eq_zero_iff] at none_
    rw [pos_dirname, none_] at some_
    exact some_ rfl
  rw [pos_dirname, List.length_reverse, List.length_drop]
  omega

def climb (abs root_dir ups : Str) : Str × Str :=
  if root_dir ++ ['/'] <+: abs ∨ abs = root_dir then (root_dir, ups)
  else if _ : pos_dirname root_dir = [] then (root_dir, ups)
  else climb abs (pos_dirname root_dir) (ups ++ up ++ ['/'])
termination_by root_dir.length
decreasing_by exact pos_dirname_shorter ‹_›

def stripPrefix (start p : Str) : Option Str :=
  if start <+: p then some (p.drop start.length) else none

def pos_relative (root abs : Str) : Str :=
  let root := trimEnd root
  if abs = root then []
  else
    match (stripPrefix root abs).bind (stripPrefix ['/']) with
    | some rest => rest
    | none =>
      let (root_dir, ups) := climb abs root []
      ups ++ ((stripPrefix root_dir abs).getD abs).dropWhile (· == '/')

def escapes_root (rel : Str) : Bool :=
  rel = up ∨ up ++ ['/'] <+: rel ∨ up ++ ['\\'] <+: rel ∨ ['/'] <+: rel

def is_within_dir (root_abs target_abs : Str) : Bool :=
  target_abs = root_abs ∨ trimEnd root_abs ++ ['/'] <+: target_abs

def lexical_path_within_root (root_abs rel : Str) : Bool :=
  is_within_dir root_abs (pos_resolve root_abs rel)

/-! ### The lexical reading -/

def enter (folder : List Str) (seg : Str) : List Str :=
  if seg = [] ∨ seg = here then folder
  else if seg = up then folder.dropLast
  else folder ++ [seg]

def location (folder : List Str) (p : Str) : List Str :=
  (p.splitOn '/').foldl enter (if isAbsolute p then [] else folder)

end CodeGraph.Resolution.Paths

/-!
# Import aliases

The alias patterns of a `tsconfig.json` and the places an import can mean under them
(`resolution/path-aliases.ts`).
-/
namespace CodeGraph.Resolution.PathAliases

open Text InsertionMap PosixPaths

abbrev star : UInt16 := codeUnit '*'

structure AliasPattern where
  /-- The literal text before `*`, or the whole pattern if there is none. -/
  literalPrefix : JsString
  literalSuffix : JsString
  hasWildcard : Bool
  replacements : List JsString
  deriving DecidableEq

structure AliasMap where
  baseUrl : JsString
  declaresBaseUrl : Bool
  patterns : List AliasPattern

/-- What a config sets, its `extends` chain included. -/
structure EffectiveOptions where
  baseUrl : Option JsString
  paths : Option (Map JsString Json)
  pathsDir : Option JsString

def isDecimal (u : UInt16) : Bool := codeUnit '0' ≤ u && u ≤ codeUnit '9'

def arrayIndex? (key : JsString) : Option Nat :=
  let value := key.foldl (fun n u => 10 * n + (u - codeUnit '0').toNat) 0
  if key ≠ [] ∧ key.all isDecimal ∧ (key.head? = some (codeUnit '0') → key.length = 1) ∧
      value < 2 ^ 32 - 1 then
    some value
  else none

/-- `Object.entries`: the numbered keys in their order, then the others in the order they have. -/
def objectEntries {ι : Type} (m : Map JsString ι) : List (JsString × ι) :=
  let numbered := m.entries.filter fun e => (arrayIndex? e.1).isSome
  numbered.insertionSort (fun a b => (arrayIndex? a.1).getD 0 ≤ (arrayIndex? b.1).getD 0) ++
    m.entries.filter fun e => (arrayIndex? e.1).isNone

structure Split where
  literalPrefix : JsString
  literalSuffix : JsString
  hasWildcard : Bool

def splitWildcard (pattern : JsString) : Split :=
  match pattern.idxOf? star with
  | none => ⟨pattern, [], false⟩
  | some i => ⟨pattern.take i, pattern.drop (i + 1), true⟩

def stringTargets : Json → List JsString
  | .arr items => items.filterMap fun
    | .str s => some s
    | _ => none
  | _ => []

def aliasPattern? (entry : JsString × Json) : Option AliasPattern :=
  let filtered := stringTargets entry.2
  if filtered = [] then none
  else
    let split := splitWildcard entry.1
    some ⟨split.literalPrefix, split.literalSuffix, split.hasWildcard, filtered⟩

def Specific (a b : AliasPattern) : Prop :=
  b.literalPrefix.length < a.literalPrefix.length ∨
    a.literalPrefix.length = b.literalPrefix.length ∧ (a.hasWildcard → b.hasWildcard)

instance (a b : AliasPattern) : Decidable (Specific a b) := by
  unfold Specific
  infer_instance

def aliasMapFromOptions (effective : EffectiveOptions) (projectRoot : JsString) : Option AliasMap :=
  let baseUrl := effective.baseUrl.getD (effective.pathsDir.getD projectRoot)
  let declaresBaseUrl := effective.baseUrl.isSome
  let patterns := match effective.paths with
    | none => []
    | some paths => (objectEntries paths).filterMap aliasPattern?
  if patterns = [] ∧ !declaresBaseUrl then none
  else some ⟨baseUrl, declaresBaseUrl, patterns.insertionSort Specific⟩

/-- What a replacement text stands for: `$$`, `$&`, and the texts before and behind the match. -/
def substitution (before behind : JsString) : JsString → JsString
  | [] => []
  | [u] => [u]
  | u :: v :: rest =>
    if u = codeUnit '$' then
      if v = codeUnit '$' then u :: substitution before behind rest
      else if v = codeUnit '&' then star :: substitution before behind rest
      else if v = 0x60 then before ++ substitution before behind rest
      else if v = 0x27 then behind ++ substitution before behind rest
      else u :: substitution before behind (v :: rest)
    else u :: substitution before behind (v :: rest)

/-- `target.replace('*', captured)`. -/
def replaceStar (target captured : JsString) : JsString :=
  match target.idxOf? star with
  | none => target
  | some i =>
    target.take i ++ substitution (target.take i) (target.drop (i + 1)) captured ++
      target.drop (i + 1)

/-- Whether the loop stops at a pattern: its literals begin and end the import without sharing
characters, or it is the import. -/
def applies (importPath : JsString) (pat : AliasPattern) : Bool :=
  pat.literalPrefix.isPrefixOf importPath &&
    (pat.literalSuffix == [] || pat.literalSuffix.isSuffixOf importPath) &&
    if pat.hasWildcard then
      pat.literalPrefix.length + pat.literalSuffix.length ≤ importPath.length
    else importPath == pat.literalPrefix

def captured (importPath : JsString) (pat : AliasPattern) : JsString :=
  (importPath.take (importPath.length - pat.literalSuffix.length)).drop pat.literalPrefix.length

def escapesRoot (rel : JsString) : Bool :=
  rel == up || (utf16 "../").isPrefixOf rel || (utf16 "..\\").isPrefixOf rel || isAbsolute rel

/-- The candidate of one target, in the folder `cwd`. -/
def candidate? (cwd projectRoot baseUrl filled : JsString) : Option JsString :=
  let absolute := resolve cwd [baseUrl, filled]
  let rel := relative cwd projectRoot absolute
  if escapesRoot rel then none else some (posix rel)

def applyAliases (cwd importPath : JsString) (aliases : AliasMap) (projectRoot : JsString) :
    List JsString :=
  match aliases.patterns.find? (applies importPath) with
  | none => []
  | some pat =>
    pat.replacements.filterMap fun target =>
      candidate? cwd projectRoot aliases.baseUrl
        (if pat.hasWildcard then replaceStar target (captured importPath pat) else target)

end CodeGraph.Resolution.PathAliases
