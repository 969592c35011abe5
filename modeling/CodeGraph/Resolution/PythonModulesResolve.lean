import CodeGraph.Resolution.PythonModules

/-!
# Resolving a module

A module is looked for under the roots that contain the importer, then under the other roots that
it sees. The roots are iterated in the order of hash tables.
-/
namespace CodeGraph.Resolution.PythonImports

structure RootOrder where
  project : List Path
  local_ : List Path

/-- `order` lists the roots of `m`. -/
structure RootOrder.Of (order : RootOrder) (m : PythonModules) : Prop where
  project : Enumerates order.project m.project
  local_nodup : order.local_.Nodup
  local_ : ∀ root, root ∈ order.local_ ↔ (m.local_ root).isSome

def relOf (spec : Path) : Path := spec.map fun c => if c = '.' then '/' else c

def headOf (spec : Path) : Path := spec.takeWhile (· ≠ '.')

def dotsOf (spec : Path) : Nat := (spec.takeWhile (· = '.')).length

namespace PythonModules

variable (m : PythonModules)

def climb (m : PythonModules) : Path → Nat → Option Path
  | base, 0 => some base
  | base, n + 1 =>
    if base = [] ∨ base ∈ m.packages ∧ parent base ∉ m.packages then none
    else climb m (parent base) n

def containing (importer head dir : Path) : List Path :=
  let here := if dir ∈ m.project ∨ (m.local_ dir).isSome ∨
    dir ∉ m.packages ∧ (dir = importer ∨ within importer (join dir head)) then [dir] else []
  if _more : dir = [] then here else here ++ containing importer head (parent dir)
termination_by dir.length
decreasing_by exact parent_length dir _more

def Concrete (spec root : Path) : Prop := (m.at_ (join root (headOf spec))).isSome

instance (spec : Path) : DecidablePred (m.Concrete spec) := fun _ =>
  inferInstanceAs (Decidable (_ = true))

def Eligible (importer spec root : Path) : Prop :=
  root ∉ m.containing importer (headOf spec) importer ∧
    (root ∈ m.project ∨ ∃ reach ∈ m.local_ root, within importer reach)

instance (importer spec : Path) : DecidablePred (m.Eligible importer spec) := fun _ =>
  inferInstanceAs (Decidable (_ ∧ _))

/-- The search of the roots that do not contain the importer. -/
def elsewhere (spec : Path) (roots : List Path) : Option Path × Bool :=
  match roots.filter fun root => m.Concrete spec root with
  | [root] => (m.under root (relOf spec), false)
  | _ :: _ :: _ => (none, false)
  | [] =>
    let hits := ((roots.filter fun root => join root (headOf spec) ∈ m.dirs).filterMap fun root =>
      m.under root (relOf spec)).dedup
    match hits with
    | [hit] => (some hit, false)
    | hits => (none, hits.isEmpty)

def resolveWith (alphanumeric : Char → Bool) (order : RootOrder) (spec source : Path) :
    Option Path × Bool :=
  if spec = [] ∨ ¬∀ c ∈ spec, c = '.' ∨ c = '_' ∨ alphanumeric c = true then (none, false)
  else
    let importer := parent source
    if 0 < dotsOf spec then
      match m.climb importer (dotsOf spec - 1) with
      | none => (none, false)
      | some base =>
        let rest := spec.drop (dotsOf spec)
        if rest = [] then
          (if join base initFile ∈ m.files then some (join base initFile) else none, false)
        else (m.under base (relOf rest), false)
    else
      let containing := m.containing importer (headOf spec) importer
      match containing.findSome? fun root => m.under root (relOf spec) with
      | some hit => (some hit, false)
      | none =>
        if ∃ root ∈ containing, m.Concrete spec root then (none, false)
        else m.elsewhere spec ((order.project ++ order.local_).filter fun root =>
          m.Eligible importer spec root)

/-- `[String]::sort` -/
def sorted (texts : List Path) : List Path := texts.mergeSort fun a b => decide (a ≤ b)

def pythonPackageRoots (order : RootOrder) : List Char :=
  if m.files = ∅ then []
  else ['\n'].intercalate (sorted order.project) ++ '\x00' ::
    ['\n'].intercalate (sorted (order.local_.map fun root => root ++ '\t' :: (m.local_ root).getD []))

variable {m}

theorem sorted_congr {texts others : List Path} (same : texts.Perm others) :
    sorted texts = sorted others := by
  have least := congrArg (fun set => Multiset.sort set (· ≤ ·)) (Multiset.coe_eq_coe.mpr same)
  rw [Multiset.coe_sort, Multiset.coe_sort] at least
  rw [sorted, sorted]
  convert least

theorem singleton_or_perm {roots others : List Path} (same : roots.Perm others) :
    (∃ root, roots = [root] ∧ others = [root]) ∨ (roots = [] ∧ others = []) ∨
      1 < roots.length ∧ 1 < others.length := by
  have count := same.length_eq
  match roots with
  | [] => exact Or.inr (Or.inl ⟨rfl, same.nil_eq.symm⟩)
  | [root] => exact Or.inl ⟨root, rfl, (List.singleton_perm.mp same).symm⟩
  | _ :: _ :: _ =>
    simp only [List.length_cons] at count ⊢
    exact Or.inr (Or.inr ⟨by omega, by omega⟩)

/-- The order of the other roots does not matter. -/
theorem elsewhere_congr {spec : Path} {roots others : List Path} (same : roots.Perm others) :
    m.elsewhere spec roots = m.elsewhere spec others := by
  have concrete := same.filter fun root => decide (m.Concrete spec root)
  have found : ∀ hit, hit ∈ ((roots.filter fun root => join root (headOf spec) ∈ m.dirs).filterMap
      fun root => m.under root (relOf spec)).dedup ↔
      hit ∈ ((others.filter fun root => join root (headOf spec) ∈ m.dirs).filterMap
        fun root => m.under root (relOf spec)).dedup := by
    intro hit
    simp only [List.mem_dedup, List.mem_filterMap, List.mem_filter, same.mem_iff]
  have hits := (List.perm_ext_iff_of_nodup (List.nodup_dedup _) (List.nodup_dedup _)).mpr found
  rw [elsewhere, elsewhere]
  rcases singleton_or_perm concrete with ⟨root, one, one'⟩ | ⟨none, none'⟩ | ⟨many, many'⟩
  · rw [one, one']
  · rw [none, none']
    simp only
    rcases singleton_or_perm hits with ⟨hit, one, one'⟩ | ⟨none, none'⟩ | ⟨many, many'⟩
    · rw [one, one']
    · rw [none, none']
    · have some_ := List.ne_nil_of_length_pos (Nat.lt_trans Nat.zero_lt_one many)
      have some' := List.ne_nil_of_length_pos (Nat.lt_trans Nat.zero_lt_one many')
      split
      next hit one => simp [one] at many
      next =>
        split
        next hit one => simp [one] at many'
        next => rw [List.isEmpty_eq_false_iff.mpr some_, List.isEmpty_eq_false_iff.mpr some']
  · split
    next root one => simp [one] at many
    next =>
      split
      next root one => simp [one] at many'
      next => rfl
      next none => simp [none] at many'
    next none => simp [none] at many

theorem order_perm {order other : RootOrder} (of : order.Of m) (of' : other.Of m) :
    order.project.Perm other.project ∧ order.local_.Perm other.local_ := by
  constructor
  · apply (List.perm_ext_iff_of_nodup of.project.1 of'.project.1).mpr
    intro root
    rw [of.project.2, of'.project.2]
  · apply (List.perm_ext_iff_of_nodup of.local_nodup of'.local_nodup).mpr
    intro root
    rw [of.local_, of'.local_]

theorem resolveWith_congr {order other : RootOrder} (of : order.Of m) (of' : other.Of m)
    (alphanumeric : Char → Bool) (spec source : Path) :
    m.resolveWith alphanumeric order spec source = m.resolveWith alphanumeric other spec source := by
  obtain ⟨project, local_⟩ := order_perm of of'
  have eligible := (project.append local_).filter fun root =>
    decide (m.Eligible (parent source) spec root)
  rw [resolveWith, resolveWith]
  simp only [elsewhere_congr eligible]

theorem pythonPackageRoots_congr {order other : RootOrder} (of : order.Of m) (of' : other.Of m) :
    m.pythonPackageRoots order = m.pythonPackageRoots other := by
  obtain ⟨project, local_⟩ := order_perm of of'
  have lines := local_.map fun root => root ++ '\t' :: (m.local_ root).getD []
  rw [pythonPackageRoots, pythonPackageRoots, sorted_congr project, sorted_congr lines]

variable (m)

/-- One of the roots elsewhere alone provides the file, at the level that decides. -/
inductive Single (importer spec hit : Path) : Prop
  /-- A single root has the head of the name. -/
  | concrete (root : Path) (eligible : m.Eligible importer spec root)
      (concrete : m.Concrete spec root)
      (only : ∀ other, m.Eligible importer spec other → m.Concrete spec other → other = root)
      (found : m.under root (relOf spec) = some hit)
  /-- No root has it, and the folders of that name hold a single file. -/
  | folder (none_ : ∀ root, m.Eligible importer spec root → ¬m.Concrete spec root)
      (root : Path) (eligible : m.Eligible importer spec root)
      (folder : join root (headOf spec) ∈ m.dirs) (found : m.under root (relOf spec) = some hit)
      (only : ∀ other file, m.Eligible importer spec other → join other (headOf spec) ∈ m.dirs →
        m.under other (relOf spec) = some file → file = hit)

inductive Answer (importer spec hit : Path) : Prop
  /-- A relative name, below a folder of the importer. -/
  | relative (dots : 0 < dotsOf spec) (base : Path) (above : within importer base)
      (found : m.under base (relOf (spec.drop (dotsOf spec))) = some hit ∨
        spec.drop (dotsOf spec) = [] ∧ hit = join base initFile ∧ hit ∈ m.files)
  /-- The nearest root that contains the importer and provides the file. -/
  | containing (nearer farther : List Path) (root : Path)
      (roots : m.containing importer (headOf spec) importer = nearer ++ root :: farther)
      (found : m.under root (relOf spec) = some hit)
      (without : ∀ near ∈ nearer, m.under near (relOf spec) = none)
  /-- No root that contains the importer provides it, or has the head of the name. -/
  | elsewhere (without : ∀ root ∈ m.containing importer (headOf spec) importer,
        m.under root (relOf spec) = none ∧ ¬m.Concrete spec root)
      (single : m.Single importer spec hit)

variable {m}

theorem climb_within {importer base end_ : Path} {n : Nat} (above : within importer base)
    (found : m.climb base n = some end_) : within importer end_ := by
  induction n generalizing base with
  | zero =>
    cases found
    exact above
  | succ n ih =>
    rw [climb] at found
    split at found
    next => cases found
    next => exact ih (within_trans above (within_parent base)) found

theorem mem_eligible {order : RootOrder} (of : order.Of m) (importer spec root : Path) :
    root ∈ (order.project ++ order.local_).filter (fun root => m.Eligible importer spec root) ↔
      m.Eligible importer spec root := by
  rw [List.mem_filter, decide_eq_true_iff]
  constructor
  · exact And.right
  · intro eligible
    refine ⟨?_, eligible⟩
    rw [List.mem_append]
    rcases eligible.2 with project | ⟨reach, seen, -⟩
    · exact Or.inl ((of.project.2 root).mpr project)
    · exact Or.inr ((of.local_ root).mpr (Option.isSome_of_mem seen))

theorem elsewhere_single {order : RootOrder} (of : order.Of m) {importer spec hit : Path}
    (found : (m.elsewhere spec ((order.project ++ order.local_).filter fun root =>
      m.Eligible importer spec root)).1 = some hit) : m.Single importer spec hit := by
  have mem := mem_eligible of importer spec
  generalize (order.project ++ order.local_).filter (fun root => m.Eligible importer spec root) =
    roots at mem found
  have concrete : ∀ root, root ∈ roots.filter (fun root => m.Concrete spec root) ↔
      m.Eligible importer spec root ∧ m.Concrete spec root := by
    intro root
    rw [List.mem_filter, mem, decide_eq_true_iff]
  rw [elsewhere] at found
  split at found
  next root one =>
    rw [one] at concrete
    obtain ⟨eligible, has⟩ := (concrete root).mp (List.mem_singleton_self root)
    exact .concrete root eligible has
      (fun other eligible has => List.mem_singleton.mp ((concrete other).mpr ⟨eligible, has⟩)) found
  next => cases found
  next none_ =>
    rw [none_] at concrete
    have without : ∀ root, m.Eligible importer spec root → ¬m.Concrete spec root :=
      fun root eligible has => List.not_mem_nil ((concrete root).mpr ⟨eligible, has⟩)
    have listed : ∀ file, file ∈ ((roots.filter fun root => join root (headOf spec) ∈ m.dirs).filterMap
        fun root => m.under root (relOf spec)).dedup ↔ ∃ root, m.Eligible importer spec root ∧
          join root (headOf spec) ∈ m.dirs ∧ m.under root (relOf spec) = some file := by
      intro file
      simp only [List.mem_dedup, List.mem_filterMap, List.mem_filter, mem, decide_eq_true_iff,
        and_assoc]
    simp only at found
    split at found
    next file one =>
      rw [one] at listed
      cases found
      obtain ⟨root, eligible, folder, there⟩ := (listed hit).mp (List.mem_singleton_self hit)
      exact .folder without root eligible folder there fun other file eligible folder there =>
        List.mem_singleton.mp ((listed file).mpr ⟨other, eligible, folder, there⟩)
    next => cases found

theorem resolveWith_answer {order : RootOrder} (of : order.Of m) {alphanumeric : Char → Bool}
    {spec source hit : Path}
    (found : (m.resolveWith alphanumeric order spec source).1 = some hit) :
    m.Answer (parent source) spec hit := by
  rw [resolveWith] at found
  split at found
  next => cases found
  next =>
    simp only at found
    split at found
    next dots =>
      split at found
      next => cases found
      next base climbed =>
        have above := climb_within (within_refl (parent source)) climbed
        split at found
        next bare =>
          split at found
          next listed =>
            cases found
            exact .relative dots base above (Or.inr ⟨bare, rfl, listed⟩)
          next => cases found
        next => exact .relative dots base above (Or.inl found)
    next =>
      split at found
      next file first =>
        cases found
        obtain ⟨nearer, root, farther, roots, there, without⟩ := List.findSome?_eq_some_iff.mp first
        exact .containing nearer farther root roots there without
      next none_ =>
        split at found
        next => cases found
        next bare =>
          refine .elsewhere ?_ (elsewhere_single of found)
          intro root listed
          exact ⟨List.findSome?_eq_none_iff.mp none_ root listed, fun has => bare ⟨root, listed, has⟩⟩

end PythonModules

/-- Every order of the sets gives the same roots, each seen from a folder that contains it, and the
same answers. What is not in a root around the importer is answered only where it is the single one. -/
theorem modules_order_free (s : Sources) (alphanumeric : Char → Bool) {order other : BuildOrder}
    (of : order.Of s) (of' : other.Of s) {roots others : RootOrder}
    (listed : roots.Of (buildPythonModules s order))
    (listed' : others.Of (buildPythonModules s other)) :
    (buildPythonModules s order).project = (buildPythonModules s other).project ∧
    (buildPythonModules s order).local_ = (buildPythonModules s other).local_ ∧
    (∀ root reach, (buildPythonModules s order).local_ root = some reach → within root reach) ∧
    (buildPythonModules s order).pythonPackageRoots roots =
      (buildPythonModules s other).pythonPackageRoots others ∧
    ∀ spec source,
      (buildPythonModules s order).resolveWith alphanumeric roots spec source =
        (buildPythonModules s other).resolveWith alphanumeric others spec source ∧
      ∀ hit, ((buildPythonModules s order).resolveWith alphanumeric roots spec source).1 = some hit →
        (buildPythonModules s order).Answer (parent source) spec hit := by
  have same := build_order_free of of'
  rw [← same] at listed' ⊢
  refine ⟨rfl, rfl, fun root reach kept => build_within s order kept,
    PythonModules.pythonPackageRoots_congr listed listed', ?_⟩
  intro spec source
  constructor
  · exact PythonModules.resolveWith_congr listed listed' alphanumeric spec source
  · intro hit found
    exact PythonModules.resolveWith_answer listed found

/-! ### Two folders with a package each -/

def firstFolder : Path := ['a']
def secondFolder : Path := ['b']
def firstPackage : Path := ['a', '/', 'p']
def secondPackage : Path := ['b', '/', 'q']
def firstFile : Path := firstPackage ++ '/' :: initFile
def secondFile : Path := secondPackage ++ '/' :: initFile

def twoPackages : Sources where
  files := {firstFile, secondFile}
  isFile _ := false
  readSource _ := none
  captured _ _ := []

def forwards : BuildOrder where
  files := [firstFile, secondFile]
  packages := [firstPackage, secondPackage]
  dirs := [[], firstFolder, firstPackage, secondFolder, secondPackage]

def backwards : BuildOrder where
  files := forwards.files.reverse
  packages := forwards.packages.reverse
  dirs := forwards.dirs.reverse

theorem enumerates_of {α : Type} [DecidableEq α] {order : List α} {set : Finset α}
    (nodup : order.Nodup) (same : order.toFinset = set) : Enumerates order set :=
  ⟨nodup, fun x => by rw [← same, List.mem_toFinset]⟩

theorem forwards_of : forwards.Of twoPackages where
  files := enumerates_of (by decide +kernel) (by decide +kernel)
  packages := enumerates_of (by decide +kernel) (by decide +kernel)
  dirs := enumerates_of (by decide +kernel) (by decide +kernel)

theorem backwards_of : backwards.Of twoPackages where
  files := enumerates_of (by decide +kernel) (by decide +kernel)
  packages := enumerates_of (by decide +kernel) (by decide +kernel)
  dirs := enumerates_of (by decide +kernel) (by decide +kernel)

def rootsForwards : RootOrder := ⟨[[]], [firstFolder, secondFolder]⟩
def rootsBackwards : RootOrder := ⟨[[]], [secondFolder, firstFolder]⟩

theorem forwards_local (root : Path) :
    ((buildPythonModules twoPackages forwards).local_ root).isSome ↔
      root = firstFolder ∨ root = secondFolder := by
  have project : projectRoots twoPackages (scan forwards.files) forwards = {[]} := by decide +kernel
  have listed : entries twoPackages (scan forwards.files) forwards =
      [(firstFolder, firstFolder), (secondFolder, secondFolder)] := by decide +kernel
  rw [build_isSome, project, listed]
  constructor
  · rintro ⟨-, reach, mem⟩
    simp only [List.mem_cons, Prod.mk.injEq, List.not_mem_nil, or_false] at mem
    tauto
  · rintro (rfl | rfl)
    · exact ⟨by decide +kernel, firstFolder, by simp⟩
    · exact ⟨by decide +kernel, secondFolder, by simp⟩

theorem rootsForwards_of : rootsForwards.Of (buildPythonModules twoPackages forwards) where
  project := enumerates_of (by decide +kernel) (by decide +kernel)
  local_nodup := by decide +kernel
  local_ root := by
    rw [forwards_local]
    simp [rootsForwards]

theorem rootsBackwards_of : rootsBackwards.Of (buildPythonModules twoPackages backwards) where
  project := enumerates_of (by decide +kernel) (by decide +kernel)
  local_nodup := by decide +kernel
  local_ root := by
    rw [← build_order_free forwards_of backwards_of, forwards_local]
    simp [rootsBackwards, or_comm]

theorem modules_order_free_two :
    (buildPythonModules twoPackages forwards).pythonPackageRoots rootsForwards =
      (buildPythonModules twoPackages backwards).pythonPackageRoots rootsBackwards :=
  (modules_order_free twoPackages Char.isAlphanum forwards_of backwards_of rootsForwards_of
    rootsBackwards_of).2.2.2.1

end CodeGraph.Resolution.PythonImports
