import CodeGraph.Foundation.JsonTexts
import CodeGraph.Resolution.WorkspacePackages

/-!
What two workspaces of one fingerprint resolve alike.

The canonical form keeps the entries of every map but their order, and leaves the source entries
out. So the lookups agree, and the longest name does; the first of the longest patterns need not.
-/
namespace CodeGraph.Resolution

open Text InsertionMap

/-! ### The canonical form -/

private theorem listJson_injective {ι : Type} {item : ι → Json} (inj : Function.Injective item) :
    Function.Injective (listJson item) := by
  intro xs ys same
  exact inj.list_map (Json.arr.inj same)

private theorem entryJson_injective {ι : Type} {value : ι → Json} (inj : Function.Injective value) :
    Function.Injective (entryJson value) := by
  rintro ⟨k, x⟩ ⟨l, y⟩ same
  simp only [entryJson, Json.arr.injEq, List.cons.injEq, Json.str.injEq, and_true] at same
  obtain ⟨rfl, same⟩ := same
  rw [inj same]

private theorem str_injective : Function.Injective Json.str := fun _ _ same => Json.str.inj same

private theorem targetsJson_injective : Function.Injective targetsJson :=
  listJson_injective (entryJson_injective (listJson_injective str_injective))

private theorem packageJson_injective : Function.Injective packageJson := by
  rintro ⟨k, e⟩ ⟨l, f⟩ same
  simp only [packageJson, Json.arr.injEq, List.cons.injEq, Json.str.injEq, and_true] at same
  obtain ⟨rfl, exports, browser, main⟩ := same
  have exports := targetsJson_injective exports
  have browser := targetsJson_injective browser
  have main := listJson_injective str_injective main
  cases e
  cases f
  simp_all

private structure Agree (a b : WorkspacePackages) : Prop where
  byName : sorted (some a.byName) = sorted (some b.byName)
  entryByName : sorted a.entryByName = sorted b.entryByName
  byDir : (sorted a.scopedByName).map (fun e => (e.1, sorted (some e.2))) =
    (sorted b.scopedByName).map fun e => (e.1, sorted (some e.2))
  entries : (sorted a.entriesByDir).map (fun e => (e.1, e.2.canonical)) =
    (sorted b.entriesByDir).map fun e => (e.1, e.2.canonical)
  nested : a.nestedRoots.getD [] = b.nestedRoots.getD []

private theorem agree_of_canonical {a b : WorkspacePackages} (same : canonical a = canonical b) :
    Agree a b := by
  simp only [canonical, Json.obj.injEq, List.cons.injEq, Prod.mk.injEq, true_and, and_true] at same
  obtain ⟨byName, entryByName, byDir, entries, nested⟩ := same
  have names := listJson_injective (entryJson_injective str_injective)
  exact ⟨names byName, names entryByName, listJson_injective (entryJson_injective names) byDir,
    listJson_injective packageJson_injective entries, listJson_injective str_injective nested⟩

private theorem decimalItems_of {items : List Json} (all : ∀ v ∈ items, v.Decimal) :
    Json.DecimalItems items := by
  induction items with
  | nil => trivial
  | cons v vs ih => exact ⟨all v (by simp), ih fun w listed => all w (by simp [listed])⟩

private theorem listJson_decimal {ι : Type} {item : ι → Json} (each : ∀ x, (item x).Decimal)
    (items : List ι) : (listJson item items).Decimal := by
  refine decimalItems_of fun v listed => ?_
  obtain ⟨x, -, rfl⟩ := List.mem_map.mp listed
  exact each x

private theorem entryJson_decimal {ι : Type} {value : ι → Json} (each : ∀ x, (value x).Decimal)
    (e : JsString × ι) : (entryJson value e).Decimal :=
  ⟨trivial, each e.2, trivial⟩

private theorem str_decimal (s : JsString) : (Json.str s).Decimal := trivial

private theorem targetsJson_decimal (targets : List (JsString × List JsString)) :
    (targetsJson targets).Decimal :=
  listJson_decimal (entryJson_decimal (listJson_decimal str_decimal)) targets

private theorem packageJson_decimal (e : JsString × CanonicalEntries) : (packageJson e).Decimal :=
  ⟨trivial, targetsJson_decimal _, targetsJson_decimal _, listJson_decimal str_decimal _, trivial⟩

private theorem canonical_decimal (ws : WorkspacePackages) : (canonical ws).Decimal := by
  have names := listJson_decimal (entryJson_decimal str_decimal)
  exact ⟨names _, names _, listJson_decimal (entryJson_decimal names) _,
    listJson_decimal packageJson_decimal _, listJson_decimal str_decimal _, trivial⟩

private theorem perm_of_sorted {ι : Type} {m n : Option (Map JsString ι)} (same : sorted m = sorted n) :
    (Map.entriesOf m).Perm (Map.entriesOf n) := by
  have left : (sorted m).Perm (Map.entriesOf m) := List.perm_insertionSort _ _
  have right : (sorted n).Perm (Map.entriesOf n) := List.perm_insertionSort _ _
  exact left.symm.trans (same ▸ right)

private theorem entriesOf_distinct {ι : Type} (m : Option (Map JsString ι)) :
    ((Map.entriesOf m).map Prod.fst).Nodup := (m.getD Map.empty).distinct

private theorem get_entriesOf {ι : Type} (m : Option (Map JsString ι)) (w : JsString) :
    m.bind (·.get w) = lookup (Map.entriesOf m) w := by
  cases m <;> rfl

/-- Where the sorted entries agree up to `f`, what is looked up does. -/
private theorem get_of_sorted_map {ι κ : Type} {f : ι → κ} {m n : Option (Map JsString ι)}
    (same : (sorted m).map (fun e => (e.1, f e.2)) = (sorted n).map fun e => (e.1, f e.2))
    (w : JsString) : (m.bind (·.get w)).map f = (n.bind (·.get w)).map f := by
  have canonical_get (m : Option (Map JsString ι)) :
      (m.bind (·.get w)).map f = lookup ((sorted m).map fun e => (e.1, f e.2)) w := by
    have perm : (sorted m).Perm (Map.entriesOf m) := List.perm_insertionSort _ _
    rw [get_entriesOf, lookup_map, lookup_perm perm.symm (entriesOf_distinct m)]
  rw [canonical_get, canonical_get, same]

private theorem get_of_sorted {ι : Type} {m n : Option (Map JsString ι)} (same : sorted m = sorted n)
    (w : JsString) : m.bind (·.get w) = n.bind (·.get w) := by
  rw [get_entriesOf, get_entriesOf, lookup_perm (perm_of_sorted same) (entriesOf_distinct m)]

/-! ### The package of an import -/

private theorem named_same {importPath x y c d : JsString} (left : named importPath x = some c)
    (right : named importPath y = some d) (sizes : c.length = d.length) : c = d := by
  have prefix_of {x c : JsString} (found : named importPath x = some c) : c <+: importPath := by
    simp only [named] at found
    split at found
    · next fits =>
      cases found
      rcases fits with rfl | below
      · exact List.prefix_refl _
      · exact (List.prefix_append _ _).trans (List.isPrefixOf_iff_prefix.mp below)
    · cases found
  rw [List.prefix_iff_eq_take.mp (prefix_of left), List.prefix_iff_eq_take.mp (prefix_of right), sizes]

private theorem longestName_perm (importPath : JsString) {xs ys : List JsString} (perm : xs.Perm ys) :
    longestName importPath xs = longestName importPath ys := by
  have led : ∀ c d, Leads (named importPath) List.length xs c →
      Leads (named importPath) List.length ys d → some c = some d := by
    intro c d left right
    obtain ⟨x, -, here⟩ := left.candidate_of_member
    obtain ⟨y, -, there⟩ := right.candidate_of_member
    rw [named_same here there (left.same_size perm right)]
  have kept (best : Option JsString) : best.elim none some = best := Option.elim_none_some id best
  have same := (firstLargest_perm none some perm).mpr led
  rwa [kept, kept] at same

private theorem hitOf_sorted (importPath : JsString) {m n : Map JsString JsString}
    (same : sorted (some m) = sorted (some n)) : hitOf importPath m = hitOf importPath n := by
  have names := longestName_perm importPath ((perm_of_sorted same).map Prod.fst)
  have get (w : JsString) : m.get w = n.get w := get_of_sorted same w
  simp only [hitOf, Map.keys, get]
  rw [show longestName importPath (m.entries.map Prod.fst) = _ from names]
  rfl

private theorem scopedPackage_eq (importPath : JsString) (ws : WorkspacePackages)
    (fromFile : Option JsString) :
    scopedPackage importPath ws fromFile =
      (truthy fromFile).bind fun file =>
        (foldersAbove (posix file).reverse).findSome? fun dir =>
          (ws.scopedByName.bind (·.get dir)).bind (hitOf importPath) := by
  unfold scopedPackage
  cases truthy fromFile with
  | none => rfl
  | some file =>
    cases ws.scopedByName with
    | none => exact (List.findSome?_eq_none_iff.mpr fun _ _ => rfl).symm
    | some byDir => rfl

private theorem leavesWorkspaceRoot_eq (file target : JsString) (ws : WorkspacePackages) :
    leavesWorkspaceRoot file target ws =
      let root := workspaceRootOf (posix file) (ws.nestedRoots.getD [])
      (root ≠ [] && !under root (posix target)) := by
  unfold leavesWorkspaceRoot
  cases ws.nestedRoots <;> rfl

private theorem matchPackage_agrees {a b : WorkspacePackages} (agree : Agree a b)
    (importPath : JsString) (fromFile : Option JsString) :
    matchPackage importPath a fromFile = matchPackage importPath b fromFile := by
  have byDir (dir : JsString) : (a.scopedByName.bind (·.get dir)).bind (hitOf importPath) =
      (b.scopedByName.bind (·.get dir)).bind (hitOf importPath) := by
    have same := get_of_sorted_map (f := fun names => sorted (some names)) agree.byDir dir
    cases left : a.scopedByName.bind (·.get dir) with
    | none =>
      rw [left, Option.map_none, eq_comm, Option.map_eq_none_iff] at same
      rw [same]
    | some m =>
      rw [left, Option.map_some, eq_comm] at same
      obtain ⟨n, right, sorted_⟩ := Option.map_eq_some_iff.mp same
      rw [right]
      exact hitOf_sorted importPath sorted_.symm
  have nearest : scopedPackage importPath a fromFile = scopedPackage importPath b fromFile := by
    simp only [scopedPackage_eq, byDir]
  simp only [matchPackage, nearest, leavesWorkspaceRoot_eq, agree.nested,
    hitOf_sorted importPath agree.byName]

private theorem packagePath_agrees {a b : WorkspacePackages} (agree : Agree a b)
    (importPath : JsString) (hit : PackageHit) :
    packagePath importPath a hit = packagePath importPath b hit := by
  simp only [packagePath, ohpmEntry, get_of_sorted agree.entryByName]

/-- Where the key has no entry of its own, the two patterns that come first among those of the
longest start name the same targets. -/
def PatternsAgree (m n : Option (Map JsString (List JsString))) (key : JsString) : Prop :=
  m.bind (·.get key) = none →
    ∀ c d, Leads (patternMatch key) (·.start.length) (Map.entriesOf m) c →
      Leads (patternMatch key) (·.start.length) (Map.entriesOf n) d → c.filled = d.filled

private theorem exportedBy_eq (exports : Option (Map JsString (List JsString))) (key : JsString) :
    exportedBy exports key =
      match exports.bind (·.get key) with
      | some targets => targets
      | none => (firstLargest (patternMatch key) (·.start.length) (Map.entriesOf exports)).elim []
          PatternMatch.filled := by
  cases exports with
  | none => rfl
  | some m =>
    simp only [exportedBy, exportedTargets, Option.bind_some]
    cases m.get key with
    | some targets => rfl
    | none =>
      show _ = (firstLargest (patternMatch key) (·.start.length) m.entries).elim [] PatternMatch.filled
      cases firstLargest (patternMatch key) (·.start.length) m.entries <;> rfl

private theorem exportedBy_agree {m n : Option (Map JsString (List JsString))}
    (same : sorted m = sorted n) (key : JsString) :
    exportedBy m key = exportedBy n key ↔ PatternsAgree m n key := by
  rw [exportedBy_eq, exportedBy_eq, PatternsAgree, get_of_sorted same]
  cases n.bind (·.get key) with
  | some targets => simp
  | none =>
    simp only [forall_const]
    exact firstLargest_perm [] PatternMatch.filled (perm_of_sorted same)

private theorem patternMatch_root {e : JsString × List JsString} {c : PatternMatch}
    (dotted : e.1.head? = some (codeUnit '.'))
    (found : patternMatch [codeUnit '.'] e = some c) : e.1 = [codeUnit '.', codeUnit '*'] := by
  obtain ⟨key, targets⟩ := e
  have parts := List.takeWhile_append_dropWhile (p := fun u => decide (u ≠ codeUnit '*')) (l := key)
  simp only [patternMatch, List.span_eq_takeWhile_dropWhile] at found dotted
  generalize key.takeWhile (fun u => decide (u ≠ codeUnit '*')) = start at found parts
  have starred (u : UInt16) (rest : JsString)
      (after : key.dropWhile (fun u => decide (u ≠ codeUnit '*')) = u :: rest) : u = codeUnit '*' := by
    have failed := List.head?_dropWhile_not (fun u => decide (u ≠ codeUnit '*')) key
    rw [after] at failed
    simpa using failed
  split at found
  · cases found
  · next start' v suffix pair =>
    obtain ⟨rfl, after⟩ := Prod.mk.inj pair
    rw [after, starred v suffix after] at parts
    split at found
    · cases found
    split at found
    · cases found
    · next short =>
      simp only [not_or, Nat.not_lt, List.length_cons, List.length_nil] at short
      -- the start holds the dot, so nothing is left for the suffix
      cases start with
      | nil =>
        rw [← parts] at dotted
        cases dotted
      | cons u rest =>
        have lengths := short.1
        simp only [List.length_cons] at lengths
        have none_ : rest = [] := List.eq_nil_of_length_eq_zero (by omega)
        have none' : suffix = [] := List.eq_nil_of_length_eq_zero (by omega)
        subst none_ none'
        rw [← parts] at dotted ⊢
        cases dotted
        rfl

private theorem patternsAgree_root {m n : Option (Map JsString (List JsString))}
    (same : sorted m = sorted n) (dotted : ∀ e ∈ Map.entriesOf m, e.1.head? = some (codeUnit '.')) :
    PatternsAgree m n [codeUnit '.'] := by
  intro _ c d left right
  have perm := perm_of_sorted same
  obtain ⟨e, listed, here⟩ := left.candidate_of_member
  obtain ⟨f, listed', there⟩ := right.candidate_of_member
  have listed' := perm.mem_iff.mpr listed'
  have keys : e.1 = f.1 :=
    (patternMatch_root (dotted e listed) here).trans (patternMatch_root (dotted f listed') there).symm
  have left := lookup_of_mem (entriesOf_distinct m) listed
  have right := lookup_of_mem (entriesOf_distinct m) listed'
  have entries : e = f := by
    refine Prod.ext keys (Option.some.inj ?_)
    rw [← left, ← right, keys]
  rw [entries, there] at here
  rw [Option.some.inj here]

/-- The source entries of an import path agree, or the one that is there is the path of the package. -/
def SourcesAgree (importPath : JsString) (a b : WorkspacePackages) (fromFile : Option JsString) :
    Prop :=
  sourceEntry importPath a = sourceEntry importPath b ∨
    ∃ hit, matchPackage importPath a fromFile = some hit ∧
      ((sourceEntry importPath a = none ∧
          sourceEntry importPath b = some (packagePath importPath a hit)) ∨
        (sourceEntry importPath b = none ∧
          sourceEntry importPath a = some (packagePath importPath a hit)))

/-- Where two patterns that the package declares fit the import equally well, their order does not
matter. -/
def OrdersAgree (importPath : JsString) (a b : WorkspacePackages) (fromFile : Option JsString) :
    Prop :=
  ∀ hit e f, matchPackage importPath a fromFile = some hit →
    a.entriesByDir.bind (·.get hit.dir) = some e → b.entriesByDir.bind (·.get hit.dir) = some f →
      PatternsAgree e.exports f.exports (codeUnit '.' :: subpathOf importPath hit) ∧
        PatternsAgree e.browser f.browser (codeUnit '.' :: subpathOf importPath hit)

private theorem uncached_agree {a b : WorkspacePackages} (agree : Agree a b) (importPath : JsString)
    (fromFile : Option JsString) :
    resolveWorkspaceImportUncached importPath a fromFile =
        resolveWorkspaceImportUncached importPath b fromFile ↔
      SourcesAgree importPath a b fromFile := by
  unfold resolveWorkspaceImportUncached SourcesAgree
  rw [← matchPackage_agrees agree,
    show packagePath importPath b = packagePath importPath a from
      funext fun hit => (packagePath_agrees agree importPath hit).symm]
  cases sourceEntry importPath a with
  | none =>
    cases sourceEntry importPath b with
    | none => simp
    | some t => simp [eq_comm]
  | some s =>
    cases sourceEntry importPath b with
    | none => simp [eq_comm]
    | some t => simp

private theorem declaredEntries_agree {e f : PackageEntries} (same : e.canonical = f.canonical)
    (subpath : JsString) :
    declaredEntries (some e) subpath = declaredEntries (some f) subpath ↔
      PatternsAgree e.exports f.exports (codeUnit '.' :: subpath) := by
  have exports : sorted e.exports = sorted f.exports := congrArg CanonicalEntries.exports same
  have main : e.main.getD [] = f.main.getD [] := congrArg CanonicalEntries.main same
  simp only [declaredEntries]
  by_cases root : subpath = []
  · subst root
    have agree := patternsAgree_root exports e.exportsDotted
    simp [(exportedBy_agree exports _).mpr agree, main, agree]
  · rw [if_neg root, if_neg root]
    exact exportedBy_agree exports _

private theorem ohpmEntry_root {importPath entry : JsString} {ws : WorkspacePackages}
    {hit : PackageHit} (found : truthy (ohpmEntry importPath ws hit) = some entry) :
    subpathOf importPath hit = [] := by
  have there := (Option.filter_eq_some_iff.mp found).1
  unfold ohpmEntry at there
  split at there
  · next root => exact root
  · cases there

private theorem targets_agree {a b : WorkspacePackages} (agree : Agree a b) (importPath : JsString)
    (fromFile : Option JsString) :
    workspaceImportTargets importPath a fromFile = workspaceImportTargets importPath b fromFile ↔
      OrdersAgree importPath a b fromFile := by
  unfold workspaceImportTargets OrdersAgree
  rw [← matchPackage_agrees agree]
  cases matchPackage importPath a fromFile with
  | none => simp
  | some hit =>
    simp only [Option.map_some, Option.some.injEq, WorkspaceImportTargets.mk.injEq, and_true]
    have ohpm : ohpmEntry importPath a hit = ohpmEntry importPath b hit := by
      simp only [ohpmEntry, get_of_sorted agree.entryByName]
    have same := get_of_sorted_map agree.entries hit.dir
    rw [ohpm]
    cases left : a.entriesByDir.bind (·.get hit.dir) with
    | none =>
      rw [left, Option.map_none, eq_comm, Option.map_eq_none_iff] at same
      rw [same]
      refine ⟨fun _ hit' e f here found => ?_, fun _ => ⟨rfl, rfl⟩⟩
      rw [← here, left] at found
      cases found
    | some e =>
      rw [left, Option.map_some, eq_comm] at same
      obtain ⟨f, right, canonical_⟩ := Option.map_eq_some_iff.mp same
      rw [right]
      have declared := declaredEntries_agree canonical_.symm (subpathOf importPath hit)
      have browser := exportedBy_agree
        (congrArg CanonicalEntries.browser canonical_.symm) (codeUnit '.' :: subpathOf importPath hit)
      have exports : sorted e.exports = sorted f.exports :=
        congrArg CanonicalEntries.exports canonical_.symm
      constructor
      · rintro ⟨declared', browser'⟩ hit' e' f' rfl left' right'
        rw [left] at left'
        rw [right] at right'
        cases left'
        cases right'
        refine ⟨?_, browser.mp browser'⟩
        cases entry : truthy (ohpmEntry importPath b hit) with
        | none =>
          rw [entry] at declared'
          exact declared.mp declared'
        | some o =>
          rw [ohpmEntry_root entry]
          exact patternsAgree_root exports e.exportsDotted
      · intro orders
        obtain ⟨exports', browser'⟩ := orders hit e f rfl left right
        refine ⟨?_, browser.mpr browser'⟩
        rw [declared.mpr exports']

private theorem resolveImports_agree {a b : WorkspacePackages}
    (uncached : ∀ importPath fromFile, resolveWorkspaceImportUncached importPath a fromFile =
      resolveWorkspaceImportUncached importPath b fromFile)
    (imports : List (JsString × Option JsString)) (memo : Memo) :
    resolveImports a memo imports = resolveImports b memo imports := by
  induction imports generalizing memo with
  | nil => rfl
  | cons query rest ih =>
    have step : resolveWorkspaceImport query.1 a query.2 memo =
        resolveWorkspaceImport query.1 b query.2 memo := by
      simp only [resolveWorkspaceImport, uncached]
    simp only [resolveImports, step, ih]

/-- Two workspaces of one fingerprint give every import one answer just where their source entries
agree and no two patterns of a package compete in another order. -/
theorem workspace_fingerprint_contract (sha256 : JsString → JsString)
    (collisionFree : ∀ v w : Json, sha256 v.stringify = sha256 w.stringify → v.stringify = w.stringify)
    (a b : WorkspacePackages)
    (same : workspaceFingerprint sha256 (some a) = workspaceFingerprint sha256 (some b)) :
    ((∀ imports, resolveImports a [] imports = resolveImports b [] imports) ∧
        ∀ importPath fromFile, workspaceImportTargets importPath a fromFile =
          workspaceImportTargets importPath b fromFile) ↔
      ∀ importPath fromFile,
        SourcesAgree importPath a b fromFile ∧ OrdersAgree importPath a b fromFile := by
  have agree := agree_of_canonical
    (Json.stringify_injective (canonical_decimal a) (canonical_decimal b) (collisionFree _ _ same))
  constructor
  · rintro ⟨imports, targets⟩ importPath fromFile
    refine ⟨(uncached_agree agree _ _).mp ?_, (targets_agree agree _ _).mp (targets _ _)⟩
    -- the first import of all is answered without the memo
    have first := imports [(importPath, fromFile)]
    simpa [resolveImports, resolveWorkspaceImport, lookup] using first
  · intro conditions
    refine ⟨fun imports => resolveImports_agree (fun importPath fromFile => ?_) imports [],
      fun importPath fromFile => ?_⟩
    · exact (uncached_agree agree _ _).mpr (conditions importPath fromFile).1
    · exact (targets_agree agree _ _).mpr (conditions importPath fromFile).2

private def textMap (entries : List (String × String)) : List (JsString × JsString) :=
  entries.map fun (name, dir) => (utf16 name, utf16 dir)

private def membersOnly (byName : Map JsString JsString) : WorkspacePackages :=
  ⟨none, byName, none, none, none, none⟩

private def coreFirst : WorkspacePackages :=
  membersOnly ⟨textMap [("core", "packages/core"), ("ui", "packages/ui")], by decide⟩

private def uiFirst : WorkspacePackages :=
  membersOnly ⟨textMap [("ui", "packages/ui"), ("core", "packages/core")], by decide⟩

private def digest : JsString :=
  utf16 "26952ff97cfde8ce556b991fff4734ef8f8c2a3137eede6c0d03cde128d18d11"

private def digestOf : JsString → JsString := Equiv.swap (canonical coreFirst).stringify digest

example : (canonical coreFirst).stringify =
    utf16 "\x7b\"byName\":[[\"core\",\"packages/core\"],[\"ui\",\"packages/ui\"]],\"entryByName\":[],\"scoped\":[],\"entries\":[],\"nested\":[]\x7d" := by
  decide +kernel

private theorem canonical_members : canonical uiFirst = canonical coreFirst := by
  have names : sorted (some uiFirst.byName) = sorted (some coreFirst.byName) := by decide +kernel
  rw [canonical, names]
  rfl

theorem workspace_fingerprint_members :
    (∀ imports, resolveImports coreFirst [] imports = resolveImports uiFirst [] imports) ∧
      ∀ importPath fromFile, workspaceImportTargets importPath coreFirst fromFile =
        workspaceImportTargets importPath uiFirst fromFile := by
  refine (workspace_fingerprint_contract digestOf
    (fun v w same => (Equiv.swap (canonical coreFirst).stringify digest).injective same)
    coreFirst uiFirst ?_).mpr fun importPath fromFile => ⟨.inl rfl, fun hit e f _ found => nomatch found⟩
  rw [workspaceFingerprint, workspaceFingerprint, canonical_members]

/-! ### What the fingerprint leaves out -/

private def uiMember : Map JsString JsString := ⟨textMap [("ui", "packages/ui")], by decide⟩

private def bundled (source : String) : WorkspacePackages :=
  { membersOnly uiMember with sourceEntries := some ⟨[(utf16 "ui", utf16 source)], by simp⟩ }

private def starExport : JsString × List JsString := (utf16 "./*", [utf16 "packages/ui/src/*.ts"])

private def jsExport : JsString × List JsString := (utf16 "./*.js", [utf16 "packages/ui/lib/*.ts"])

private def patterned (exports : Map JsString (List JsString))
    (dotted : ∀ e ∈ exports.entries, e.1.head? = some (codeUnit '.')) : WorkspacePackages :=
  { membersOnly uiMember with
    entriesByDir := some ⟨[(utf16 "packages/ui", ⟨some exports, none, none, dotted, fun _ listed => nomatch listed⟩)],
      by simp⟩ }

private theorem canonical_patterned {m n : Map JsString (List JsString)}
    (same : sorted (some m) = sorted (some n))
    (dotted : ∀ e ∈ m.entries, e.1.head? = some (codeUnit '.'))
    (dotted' : ∀ e ∈ n.entries, e.1.head? = some (codeUnit '.')) :
    canonical (patterned m dotted) = canonical (patterned n dotted') := by
  have one (e : JsString × PackageEntries) (distinct : ([e].map Prod.fst).Nodup) :
      sorted (some ⟨[e], distinct⟩) = [e] := rfl
  simp only [canonical, patterned, one, List.map_cons, List.map_nil, PackageEntries.canonical, same]

private def starFirst : WorkspacePackages :=
  patterned ⟨[starExport, jsExport], by decide⟩ (by decide)

private def jsFirst : WorkspacePackages :=
  patterned ⟨[jsExport, starExport], by decide⟩ (by decide)

/-- Whatever the digest, it is the same for a bundle entry that moved and for two patterns that
changed places, and the imports are not. -/
theorem workspace_fingerprint_misses :
    ((workspaceFingerprint · (some (bundled "packages/ui/src/a.ts"))) =
        (workspaceFingerprint · (some (bundled "packages/ui/src/b.ts"))) ∧
      resolveImports (bundled "packages/ui/src/a.ts") [] [(utf16 "ui", none)] ≠
        resolveImports (bundled "packages/ui/src/b.ts") [] [(utf16 "ui", none)]) ∧
    (workspaceFingerprint · (some starFirst)) = (workspaceFingerprint · (some jsFirst)) ∧
      workspaceImportTargets (utf16 "ui/x.js") starFirst none ≠
        workspaceImportTargets (utf16 "ui/x.js") jsFirst none := by
  have digests {a b : WorkspacePackages} (same : canonical a = canonical b) :
      (workspaceFingerprint · (some a)) = (workspaceFingerprint · (some b)) :=
    funext fun sha256 => congrArg (fun text => sha256 (Json.stringify text)) same
  refine ⟨⟨digests ?_, by decide +kernel⟩, digests ?_, by decide +kernel⟩
  · simp only [canonical, bundled]
  · exact canonical_patterned (by decide +kernel) _ _

end CodeGraph.Resolution
