import CodeGraph.Foundation.InsertionMap
import CodeGraph.Foundation.Json
import CodeGraph.Foundation.Largest

/-!
The packages of a monorepo, the imports that name one, and the fingerprint of what they resolve by
(`resolution/workspace-packages.ts`).
-/
namespace CodeGraph.Resolution

open Text InsertionMap

abbrev codeUnit (c : Char) : UInt16 := c.val.toUInt16

/-- What the `package.json` of a package declares: the keys of `exports` are those of subpaths. -/
structure PackageEntries where
  exports : Option (Map JsString (List JsString))
  browser : Option (Map JsString (List JsString))
  main : Option (List JsString)
  exportsDotted : ∀ e ∈ Map.entriesOf exports, e.1.head? = some (codeUnit '.')
  browserDotted : ∀ e ∈ Map.entriesOf browser, e.1.head? = some (codeUnit '.')

structure WorkspacePackages where
  sourceEntries : Option (Map JsString JsString)
  byName : Map JsString JsString
  entryByName : Option (Map JsString JsString)
  entriesByDir : Option (Map JsString PackageEntries)
  scopedByName : Option (Map JsString (Map JsString JsString))
  nestedRoots : Option (List JsString)

structure PackageHit where
  name : JsString
  dir : JsString
  deriving DecidableEq

structure WorkspaceImportTargets where
  declared : List JsString
  browser : List JsString
  directory : JsString
  packageDir : JsString
  deriving DecidableEq

def posix (path : JsString) : JsString :=
  path.map fun u => if u = codeUnit '\\' then codeUnit '/' else u

def collapseSlashes : JsString → JsString
  | [] => []
  | u :: s =>
    if u = codeUnit '/' ∧ s.head? = some (codeUnit '/') then collapseSlashes s else u :: collapseSlashes s

def under (dir file : JsString) : Bool := (dir ++ [codeUnit '/']).isPrefixOf file

def foldersAbove : JsString → List JsString
  | [] => [[]]
  | u :: s =>
    if u = codeUnit '/' then s.reverse :: (if s = [] then [] else foldersAbove s) else foldersAbove s

/-- A value that JavaScript takes as true: a string that is there and not empty. -/
def truthy (value : Option JsString) : Option JsString := value.filter (· ≠ [])

def named (importPath name : JsString) : Option JsString :=
  if importPath = name ∨ under name importPath then some name else none

def longestName (importPath : JsString) (names : List JsString) : Option JsString :=
  firstLargest (named importPath) List.length names

/-- The deepest of the nested roots that `file` is under. -/
def workspaceRootOf (file : JsString) (roots : List JsString) : JsString :=
  roots.foldl (fun root dir => if root.length < dir.length ∧ under dir file then dir else root) []

def leavesWorkspaceRoot (file target : JsString) (ws : WorkspacePackages) : Bool :=
  match ws.nestedRoots with
  | none => false
  | some roots =>
    let root := workspaceRootOf (posix file) roots
    root ≠ [] && !under root (posix target)

def hitOf (importPath : JsString) (names : Map JsString JsString) : Option PackageHit :=
  (longestName importPath names.keys).bind fun name => (names.get name).map fun dir => ⟨name, dir⟩

/-- The path dependency that the nearest manifest above `fromFile` declares. -/
def scopedPackage (importPath : JsString) (ws : WorkspacePackages) (fromFile : Option JsString) :
    Option PackageHit :=
  match truthy fromFile, ws.scopedByName with
  | some file, some byDir =>
    (foldersAbove (posix file).reverse).findSome? fun dir => (byDir.get dir).bind (hitOf importPath)
  | _, _ => none

def matchPackage (importPath : JsString) (ws : WorkspacePackages) (fromFile : Option JsString) :
    Option PackageHit :=
  match scopedPackage importPath ws fromFile with
  | some hit => some hit
  | none =>
    (hitOf importPath ws.byName).filter fun hit =>
      !fromFile.any (leavesWorkspaceRoot · hit.dir ws)

/-- A `*` pattern that fits, and what its `*` stands for. -/
structure PatternMatch where
  start : JsString
  filling : JsString
  targets : List JsString
  deriving DecidableEq

/-- The pattern fits when it has one `*` and the key begins and ends with what is around it. -/
def patternMatch (key : JsString) (entry : JsString × List JsString) : Option PatternMatch :=
  match entry.1.span (· ≠ codeUnit '*') with
  | (_, []) => none
  | (start, _ :: suffix) =>
    if codeUnit '*' ∈ suffix then none
    else if key.length < start.length + suffix.length ∨ !start.isPrefixOf key ∨ !suffix.isSuffixOf key
    then none
    else some ⟨start, (key.take (key.length - suffix.length)).drop start.length, entry.2⟩

def PatternMatch.filled (found : PatternMatch) : List JsString :=
  found.targets.map fun target =>
    target.flatMap fun u => if u = codeUnit '*' then found.filling else [u]

def exportedTargets (exports : Map JsString (List JsString)) (key : JsString) : List JsString :=
  match exports.get key with
  | some targets => targets
  | none =>
    match firstLargest (patternMatch key) (·.start.length) exports.entries with
    | some found => found.filled
    | none => []

def exportedBy (exports : Option (Map JsString (List JsString))) (key : JsString) :
    List JsString :=
  match exports with
  | some exports => exportedTargets exports key
  | none => []

def declaredEntries (entries : Option PackageEntries) (subpath : JsString) : List JsString :=
  match entries with
  | none => []
  | some entries =>
    let exported := exportedBy entries.exports (codeUnit '.' :: subpath)
    if subpath = [] then (exported ++ entries.main.getD []).eraseDups else exported

/-! ### Resolving an import -/

def subpathOf (importPath : JsString) (hit : PackageHit) : JsString :=
  importPath.drop hit.name.length

def directoryOf (importPath : JsString) (hit : PackageHit) : JsString :=
  collapseSlashes (hit.dir ++ subpathOf importPath hit)

/-- The entry that the ohpm manifest of the package names, for an import of the package itself. -/
def ohpmEntry (importPath : JsString) (ws : WorkspacePackages) (hit : PackageHit) :
    Option JsString :=
  if subpathOf importPath hit = [] then ws.entryByName.bind (·.get hit.name) else none

def packagePath (importPath : JsString) (ws : WorkspacePackages) (hit : PackageHit) : JsString :=
  (ohpmEntry importPath ws hit).getD (directoryOf importPath hit)

/-- The source entry of an import path; an empty one is none. -/
def sourceEntry (importPath : JsString) (ws : WorkspacePackages) : Option JsString :=
  truthy (ws.sourceEntries.bind (·.get importPath))

def resolveWorkspaceImportUncached (importPath : JsString) (ws : WorkspacePackages)
    (fromFile : Option JsString) : Option JsString :=
  match sourceEntry importPath ws with
  | some source => some source
  | none => (matchPackage importPath ws fromFile).map (packagePath importPath ws)

abbrev Memo := List (JsString × Option JsString)

def resolveWorkspaceImport (importPath : JsString) (ws : WorkspacePackages)
    (fromFile : Option JsString) (memo : Memo) : Option JsString × Memo :=
  let key := match truthy fromFile with
    | some file => file ++ codeUnit ' ' :: importPath
    | none => importPath
  match lookup memo key with
  | some hit => (hit, memo)
  | none =>
    let resolved := resolveWorkspaceImportUncached importPath ws fromFile
    (resolved, assign memo key resolved)

def resolveImports (ws : WorkspacePackages) :
    Memo → List (JsString × Option JsString) → List (Option JsString)
  | _, [] => []
  | memo, (importPath, fromFile) :: rest =>
    let (answer, memo) := resolveWorkspaceImport importPath ws fromFile memo
    answer :: resolveImports ws memo rest

def workspaceImportTargets (importPath : JsString) (ws : WorkspacePackages)
    (fromFile : Option JsString) : Option WorkspaceImportTargets :=
  (matchPackage importPath ws fromFile).map fun hit =>
    let subpath := subpathOf importPath hit
    let entries := ws.entriesByDir.bind (·.get hit.dir)
    { declared := match truthy (ohpmEntry importPath ws hit) with
        | some ohpm => [ohpm]
        | none => declaredEntries entries subpath
      browser := exportedBy (entries.bind (·.browser)) (codeUnit '.' :: subpath)
      directory := directoryOf importPath hit
      packageDir := hit.dir }

/-! ### The fingerprint -/

/-- The entries of a map, sorted by their keys; `sort` is stable. -/
def sorted {ι : Type} (m : Option (Map JsString ι)) : List (JsString × ι) :=
  (Map.entriesOf m).insertionSort fun e f => e.1 ≤ f.1

def listJson {ι : Type} (item : ι → Json) (items : List ι) : Json := .arr (items.map item)

def entryJson {ι : Type} (value : ι → Json) (e : JsString × ι) : Json :=
  .arr [.str e.1, value e.2]

def targetsJson : List (JsString × List JsString) → Json :=
  listJson (entryJson (listJson .str))

structure CanonicalEntries where
  exports : List (JsString × List JsString)
  browser : List (JsString × List JsString)
  main : List JsString

def PackageEntries.canonical (entries : PackageEntries) : CanonicalEntries where
  exports := sorted entries.exports
  browser := sorted entries.browser
  main := entries.main.getD []

def packageJson (e : JsString × CanonicalEntries) : Json :=
  .arr [.str e.1, targetsJson e.2.exports, targetsJson e.2.browser, listJson .str e.2.main]

def canonical (ws : WorkspacePackages) : Json :=
  .obj
    [(utf16 "byName", listJson (entryJson .str) (sorted (some ws.byName))),
      (utf16 "entryByName", listJson (entryJson .str) (sorted ws.entryByName)),
      (utf16 "scoped", listJson (entryJson (listJson (entryJson .str)))
        ((sorted ws.scopedByName).map fun (dir, names) => (dir, sorted (some names)))),
      (utf16 "entries", listJson packageJson
        ((sorted ws.entriesByDir).map fun (dir, entries) => (dir, entries.canonical))),
      (utf16 "nested", listJson .str (ws.nestedRoots.getD []))]

/-- `sha256` is the digest of a text, in hexadecimal. -/
def workspaceFingerprint (sha256 : JsString → JsString) : Option WorkspacePackages → JsString
  | none => utf16 "none"
  | some ws => sha256 (canonical ws).stringify

end CodeGraph.Resolution
