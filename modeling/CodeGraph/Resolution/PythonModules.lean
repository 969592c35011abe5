import CodeGraph.Foundation.RustText
import CodeGraph.Foundation.Widest
import CodeGraph.Resolution.PythonTypes

/-!
# The Python modules of a project

Modules are found under import roots. The hash sets are finite sets; where the code iterates one,
the order is an argument.
-/
namespace CodeGraph.Resolution.PythonImports

open RustText

abbrev Path := List Char

/-! ### Paths -/

def parent (path : Path) : Path := ((path.reverse.dropWhile (· ≠ '/')).drop 1).reverse

def join (dir leaf : Path) : Path := if dir = [] then leaf else dir ++ '/' :: leaf

/-- The folder `dir` is `scope` or below it. -/
def within (dir scope : Path) : Prop := scope = [] ∨ dir = scope ∨ scope ++ ['/'] <+: dir

instance : DecidableRel within := fun _ _ => inferInstanceAs (Decidable (_ ∨ _ ∨ _))

theorem parent_length (path : Path) (ne : path ≠ []) : (parent path).length < path.length := by
  have shorter := (List.dropWhile_sublist (l := path.reverse) (· ≠ '/')).length_le
  have some_ : 0 < path.length := List.length_pos_iff.mpr ne
  simp only [parent, List.length_reverse, List.length_drop] at shorter ⊢
  cases rest : path.reverse.dropWhile (· ≠ '/') with
  | nil => simpa using some_
  | cons c cs =>
    rw [rest] at shorter
    simp at shorter ⊢
    omega

def nonProjectNames : List Path := ["tests", "test", "testing", "fixtures", "testdata", "examples",
  "example", "samples", "vendor", "third_party"].map String.toList

def nonProject (dir : Path) : Prop :=
  (dir.reverse.takeWhile (· ≠ '/')).reverse ∈ nonProjectNames

instance : DecidablePred nonProject := fun _ => inferInstanceAs (Decidable (_ ∈ _))

def initFile : Path := "__init__.py".toList
def python : Path := ".py".toList
def setupPy : Path := "setup.py".toList
def pyprojectToml : Path := "pyproject.toml".toList
def setupCfg : Path := "setup.cfg".toList
def sourceFolder : Path := "src".toList

@[ext] structure PythonModules where
  files : Finset Path
  packages : Finset Path
  dirs : Finset Path
  project : Finset Path
  /-- Each root that is not one of the project, and the folder that sees it. -/
  local_ : Path → Option Path

namespace PythonModules

variable (m : PythonModules)

def at_ (base : Path) : Option Path :=
  if join base initFile ∈ m.files then some (join base initFile)
  else if base ++ python ∈ m.files then some (base ++ python)
  else none

/-- The folders on the way to a module, from `base`, are packages or folders that no file shadows. -/
def passes (base : Path) : List Path → Prop
  | [] => True
  | part :: parts =>
    (join base part ∈ m.packages ∨
      ¬(join base part ++ python ∈ m.files ∨ join base part ∉ m.dirs)) ∧
      passes (join base part) parts

instance decidablePasses : (base : Path) → (parts : List Path) → Decidable (passes m base parts)
  | _, [] => inferInstanceAs (Decidable True)
  | base, part :: parts =>
    have := decidablePasses (join base part) parts
    inferInstanceAs (Decidable (_ ∧ _))

def under (root rel : Path) : Option Path :=
  if passes m root (rel.splitOn '/').dropLast then at_ m (join root rel) else none

def addLocal (root reach : Path) : PythonModules :=
  if ∀ old ∈ m.local_ root, within old reach then
    { m with local_ := Function.update m.local_ root (some reach) }
  else m

end PythonModules

/-! ### Building it -/

structure Sources where
  files : Finset Path
  /-- `Path::is_file`, below the root of the project. -/
  isFile : Path → Bool
  readSource : Path → Option (List Char)
  /-- What the patterns of `declared_roots` capture. -/
  captured : List Char → Bool → List (List Char)

def quotes : List Char := ['\'', '"']

/-- `trim_start_matches("./")` -/
def trimDots : List Char → List Char
  | '.' :: '/' :: rest => trimDots rest
  | text => text

def clean (raw : List Char) : Path :=
  let bare := ((trim raw).dropWhile (· ∈ quotes)).rdropWhile (· ∈ quotes)
  (trimDots bare).rdropWhile (· = '/')

def declaredRoots (s : Sources) (content : List Char) (cfg : Bool) : List Path :=
  ((s.captured content cfg).map clean).filter fun p =>
    p ≠ [] ∧ ¬['.', '.'] <+: p ∧ ¬['/'] <+: p ∧ ':' ∉ p

def ancestors (dir : Path) : List Path :=
  if _some : dir = [] then [] else dir :: ancestors (parent dir)
termination_by dir.length
decreasing_by exact parent_length dir _some

def slashes (file : Path) : Path := file.map fun c => if c = '\\' then '/' else c

def isInit (file : Path) : Prop := file = initFile ∨ '/' :: initFile <:+ file

instance : DecidablePred isInit := fun _ => inferInstanceAs (Decidable (_ ∨ _))

def addFile (m : PythonModules) (file : Path) : PythonModules :=
  { m with
    packages := if isInit (slashes file) then insert (parent (slashes file)) m.packages else m.packages
    dirs := (ancestors (parent (slashes file))).foldl (fun dirs dir => insert dir dirs) m.dirs
    files := insert (slashes file) m.files }

def scan (files : List Path) : PythonModules :=
  (files.filter fun file => python <:+ file).foldl addFile
    { files := ∅, packages := ∅, dirs := {[]}, project := {[]}, local_ := fun _ => none }

def topPackage (packages : Finset Path) (top : Path) : Path :=
  if _more : top ≠ [] ∧ parent top ∈ packages then topPackage packages (parent top) else top
termination_by top.length
decreasing_by exact parent_length top _more.1

def packageStep (m : PythonModules) (dir : Path) : PythonModules :=
  let top := topPackage m.packages dir
  if top ≠ [] then m.addLocal (parent top) (parent top) else m

def reachAbove (packages : Finset Path) (service ancestor : Path) : Option Path :=
  if _more : ancestor = [] then none
  else if ancestor ∈ packages then some service
  else if nonProject ancestor then some ancestor
  else reachAbove packages service (parent ancestor)
termination_by ancestor.length
decreasing_by exact parent_length ancestor _more

def reachOf (packages : Finset Path) (service : Path) : Option Path :=
  if service ∈ packages then some service else reachAbove packages service (parent service)

def rootsOf (s : Sources) (m : PythonModules) (service : Path) : List Path :=
  let src := join service sourceFolder
  let declared := [(pyprojectToml, false), (setupCfg, true)].flatMap fun (file, cfg) =>
    match s.readSource (join service file) with
    | some content =>
      ((declaredRoots s content cfg).map (join service)).filter (· ∈ m.dirs)
    | none => []
  service :: ((if src ∈ m.dirs ∧ src ∉ m.packages then [src] else []) ++ declared)

def isService (s : Sources) (dir : Path) : Prop :=
  dir = [] ∨ ∃ f ∈ [setupPy, pyprojectToml, setupCfg], s.isFile (join dir f) = true

instance (s : Sources) : DecidablePred (isService s) := fun _ => inferInstanceAs (Decidable (_ ∨ _))

def serviceStep (s : Sources) (m : PythonModules) (service : Path) : PythonModules :=
  if isService s service then
    let reach := reachOf m.packages service
    (rootsOf s m service).foldl (fun m root =>
      match reach with
      | some reach => m.addLocal root reach
      | none => { m with project := insert root m.project }) m
  else m

/-- The orders in which the sets are iterated: the files, the packages and the folders. -/
structure BuildOrder where
  files : List Path
  packages : List Path
  dirs : List Path

def buildPythonModules (s : Sources) (order : BuildOrder) : PythonModules :=
  let m := order.dirs.foldl (serviceStep s) (order.packages.foldl packageStep (scan order.files))
  { m with local_ := fun root => if root ∈ m.project then none else m.local_ root }

end CodeGraph.Resolution.PythonImports

/-! What a factory query answers when no call reaches the depth at which it is cut. -/
namespace CodeGraph.Resolution.PythonTypes

open BoundedMemo

variable (facts : String → FactoryFacts)

def bodyFits (fits : PyValue → Bool) : List BodyStep → Bool
  | [] => true
  | .yielded :: _ => true
  | .returned v :: rest => fits v && bodyFits fits rest

mutual

def valueFits : Nat → Bool → PyValue → Bool
  | 0, _, _ => false
  | left + 1, underAwait, value =>
    match value with
    | .settled _ | .receiver | .call _ (.settled _) => true
    | .parenthesized v => valueFits left false v
    | .await v => valueFits left true v
    | .conditional a b => valueFits left false a && valueFits left false b
    | .call _ (.factory id on) => factoryFits left ⟨id, on, underAwait⟩

def factoryFits : Nat → FactoryKey → Bool
  | 0, _ => false
  | left + 1, key =>
    (declaredReading facts key).isSome || bodyFits (valueFits left false) (facts key.factory).body

end

def anew : Memoise Unit := fun _ compute => compute

def plainValue (left : Nat) (receiver : Option String) (underAwait : Bool) (v : PyValue) : Reading :=
  (pythonValueAnswer facts anew left receiver underAwait v ()).1

def plainFactory (left : Nat) (key : FactoryKey) : Reading :=
  (pythonFactoryAnswer facts anew left key ()).1

def RememberedFactory (key : FactoryKey) (reading : Reading) : Prop :=
  ∃ left, factoryFits facts left key = true ∧ reading = plainFactory facts left key

variable {facts}

/-! ### One reading, however it is remembered -/

variable {σ : Type} {inv : σ → Prop}

def Agrees (inv : σ → Prop) (result : Reading × σ) (reading : Reading) : Prop :=
  result.1 = reading ∧ inv result.2

variable (facts inv) in
/-- Remembering may save the computation of a reading, not change it. -/
def Honest (memoise : Memoise σ) : Prop :=
  ∀ left key compute s, factoryFits facts left key = true → inv s →
    Agrees inv (compute s) (plainFactory facts left key) →
    Agrees inv (memoise key compute s) (plainFactory facts left key)

theorem anew_honest : Honest facts (fun _ => True) anew := fun _ _ _ _ _ _ computed => computed

theorem bodyAnswers_agrees {value : PyValue → σ → Reading × σ} (plain : PyValue → Unit → Reading × Unit)
    {fits : PyValue → Bool} {body : List BodyStep} {s : σ} (all : bodyFits fits body = true)
    (start : inv s)
    (each : ∀ v s, fits v = true → inv s → Agrees inv (value v s) (plain v ()).1) :
    (bodyAnswers value body s).1 = (bodyAnswers plain body ()).1 ∧ inv (bodyAnswers value body s).2 := by
  induction body generalizing s with
  | nil => exact ⟨rfl, start⟩
  | cons step rest ih =>
    cases step with
    | yielded => exact ⟨rfl, start⟩
    | returned v =>
      obtain ⟨first, later⟩ := Bool.and_eq_true_iff.mp all
      obtain ⟨reading, kept⟩ := each v s first start
      obtain ⟨answers, finished⟩ := ih later kept
      refine ⟨?_, finished⟩
      simp only [bodyAnswers, reading, answers]

variable (facts inv) in
/-- Values and factories that fit in `m` levels read the same from any level above. -/
structure ExactFrom (memoise : Memoise σ) (m : Nat) : Prop where
  value : ∀ n receiver underAwait v s, valueFits facts m underAwait v = true → m ≤ n → inv s →
    Agrees inv (pythonValueAnswer facts memoise n receiver underAwait v s)
      (plainValue facts m receiver underAwait v)
  factory : ∀ n key s, factoryFits facts m key = true → m ≤ n → inv s →
    Agrees inv (pythonFactoryAnswer facts memoise n key s) (plainFactory facts m key)

theorem ExactFrom.value_succ {memoise : Memoise σ} {m : Nat} (below : ExactFrom facts inv memoise m)
    {n : Nat} (receiver : Option String) {underAwait : Bool} {v : PyValue} {s : σ}
    (fits : valueFits facts (m + 1) underAwait v = true) (more : m ≤ n) (start : inv s) :
    Agrees inv (pythonValueAnswer facts memoise (n + 1) receiver underAwait v s)
      (plainValue facts (m + 1) receiver underAwait v) := by
  cases v with
  | settled reading => exact ⟨rfl, start⟩
  | receiver => exact ⟨rfl, start⟩
  | parenthesized v => exact below.value n receiver false v s fits more start
  | await v => exact below.value n receiver true v s fits more start
  | conditional a b =>
    obtain ⟨left, right⟩ := Bool.and_eq_true_iff.mp fits
    obtain ⟨first, kept⟩ := below.value n receiver false a s left more start
    obtain ⟨second, finished⟩ := below.value n receiver false b _ right more kept
    refine ⟨?_, finished⟩
    simp only [plainValue, pythonValueAnswer] at first second ⊢
    rw [first, second]
  | call files callee =>
    cases callee with
    | settled answer => exact ⟨rfl, start⟩
    | factory id on =>
      obtain ⟨reading, kept⟩ := below.factory n ⟨id, on, underAwait⟩ s fits more start
      refine ⟨?_, kept⟩
      simp only [plainFactory, plainValue, pythonValueAnswer] at reading ⊢
      rw [reading]

theorem ExactFrom.factory_succ {memoise : Memoise σ} {m : Nat} (below : ExactFrom facts inv memoise m)
    (honest : Honest facts inv memoise) {n : Nat} {key : FactoryKey} {s : σ}
    (fits : factoryFits facts (m + 1) key = true) (more : m ≤ n) (start : inv s) :
    Agrees inv (pythonFactoryAnswer facts memoise (n + 1) key s) (plainFactory facts (m + 1) key) := by
  refine honest (m + 1) key _ s fits start ?_
  simp only [plainFactory, pythonFactoryAnswer, anew, pythonFactoryAnswerUncached]
  cases declared : declaredReading facts key with
  | some reading => exact ⟨rfl, start⟩
  | none =>
    have body : bodyFits (valueFits facts m false) (facts key.factory).body = true := by
      simpa only [factoryFits, declared, Option.isSome_none, Bool.false_or] using fits
    obtain ⟨answers, kept⟩ := bodyAnswers_agrees
      (pythonValueAnswer facts anew m key.receiver false) body start
      fun v s fits start => below.value n key.receiver false v s fits more start
    refine ⟨?_, kept⟩
    simp only [answers]

theorem exactFrom {memoise : Memoise σ} (honest : Honest facts inv memoise) (m : Nat) :
    ExactFrom facts inv memoise m := by
  induction m with
  | zero =>
    refine ⟨fun _ _ _ _ _ fits => ?_, fun _ _ _ fits => ?_⟩
    · simp only [valueFits, Bool.false_eq_true] at fits
    · simp only [factoryFits, Bool.false_eq_true] at fits
  | succ m below =>
    constructor
    · intro n receiver underAwait v s fits more start
      obtain ⟨k, rfl⟩ : ∃ k, n = k + 1 := ⟨n - 1, by omega⟩
      exact below.value_succ receiver fits (by omega) start
    · intro n key s fits more start
      obtain ⟨k, rfl⟩ : ∃ k, n = k + 1 := ⟨n - 1, by omega⟩
      exact below.factory_succ honest fits (by omega) start

theorem plainFactory_unique {m n : Nat} {key : FactoryKey} (one : factoryFits facts m key = true)
    (other : factoryFits facts n key = true) : plainFactory facts m key = plainFactory facts n key := by
  rcases Nat.le_total m n with more | more
  · exact (((exactFrom anew_honest m).factory n key () one more trivial).1).symm
  · exact ((exactFrom anew_honest n).factory m key () other more trivial).1

theorem remembered_honest : Honest facts (Sound (RememberedFactory facts)) remembered := by
  intro left key compute memo fits sound ⟨reading, kept⟩
  simp only [remembered]
  cases found : InsertionMap.lookup memo key with
  | some known =>
    obtain ⟨other, its, rfl⟩ := sound.lookup found
    exact ⟨plainFactory_unique its fits, sound⟩
  | none => exact ⟨reading, kept.remember memoCapacity ⟨left, fits, reading⟩⟩

theorem factory_query_exact {left : Nat} {key : FactoryKey} {memo : FactoryMemo}
    (fits : factoryFits facts left key = true) (sound : Sound (RememberedFactory facts) memo) :
    Agrees (Sound (RememberedFactory facts)) (pythonFactoryAnswer facts remembered left key memo)
      (plainFactory facts left key) :=
  (exactFrom remembered_honest left).factory left key memo fits le_rfl sound

end CodeGraph.Resolution.PythonTypes

/-!
### The build does not depend on the order of its sets

The roots are entries of a map that keeps the widest reach. The reaches of one root are folders that
contain it, so they form a chain.
-/
namespace CodeGraph.Resolution.PythonImports

open Widest

/-! ### Folders -/

@[refl] theorem within_refl (dir : Path) : within dir dir := Or.inr (Or.inl rfl)

theorem within_trans {a b c : Path} (ab : within a b) (bc : within b c) : within a c := by
  rcases bc with rfl | rfl | above
  · exact Or.inl rfl
  · exact ab
  · rcases ab with rfl | rfl | below
    · simp at above
    · exact Or.inr (Or.inr above)
    · exact Or.inr (Or.inr (above.trans ((List.prefix_append b ['/']).trans below)))

theorem within_antisymm {a b : Path} (ab : within a b) (ba : within b a) : a = b := by
  rcases ab with rfl | same | below
  · rcases ba with same | same | above
    · exact same
    · exact same.symm
    · simp at above
  · exact same
  · rcases ba with rfl | same | above
    · simp at below
    · exact same.symm
    · have short := below.length_le
      have long := above.length_le
      simp only [List.length_append, List.length_singleton] at short long
      omega

theorem within_chain {dir a b : Path} (inA : within dir a) (inB : within dir b) :
    within a b ∨ within b a := by
  rcases inA with rfl | rfl | inA
  · exact Or.inr (Or.inl rfl)
  · exact Or.inl inB
  · rcases inB with rfl | rfl | inB
    · exact Or.inl (Or.inl rfl)
    · exact Or.inr (Or.inr (Or.inr inA))
    · rcases lt_trichotomy a.length b.length with shorter | same | longer
      · have short : (a ++ ['/']).length ≤ b.length := by
          simpa using Nat.succ_le_of_lt shorter
        have inside := List.prefix_of_prefix_length_le inA ((List.prefix_append b ['/']).trans inB) short
        exact Or.inr (Or.inr (Or.inr inside))
      · have short : (a ++ ['/']).length ≤ (b ++ ['/']).length := by simp [same]
        have inside := List.prefix_of_prefix_length_le inA inB short
        have equal := inside.eq_of_length (by simp [same])
        exact Or.inl (Or.inr (Or.inl (List.append_cancel_right equal)))
      · have short : (b ++ ['/']).length ≤ a.length := by
          simpa using Nat.succ_le_of_lt longer
        have inside := List.prefix_of_prefix_length_le inB ((List.prefix_append a ['/']).trans inA) short
        exact Or.inl (Or.inr (Or.inr inside))

instance : IsTrans Path within := ⟨fun _ _ _ => within_trans⟩
instance : Std.Refl within := ⟨within_refl⟩
instance : Std.Antisymm within := ⟨fun _ _ => within_antisymm⟩

theorem within_join (dir leaf : Path) : within (join dir leaf) dir := by
  rw [join]
  split
  next root => exact Or.inl root
  next => exact Or.inr (Or.inr ⟨leaf, by simp⟩)

theorem within_parent (dir : Path) : within dir (parent dir) := by
  have parts := List.takeWhile_append_dropWhile (p := fun c => decide (c ≠ '/')) (l := dir.reverse)
  have first := fun some_ =>
    List.head_dropWhile_not (l := dir.reverse) (fun c => decide (c ≠ '/')) some_
  have above : parent dir = ((dir.reverse.dropWhile fun c => decide (c ≠ '/')).drop 1).reverse := rfl
  generalize dir.reverse.dropWhile (fun c => decide (c ≠ '/')) = rest at parts first above
  cases rest with
  | nil => exact Or.inl (by simpa using above)
  | cons c before =>
    have stop : ¬c ≠ '/' := of_decide_eq_false (first (by simp))
    have slash : c = '/' := not_not.mp stop
    have whole := congrArg List.reverse parts
    rw [List.drop_one, List.tail_cons] at above
    rw [slash, List.reverse_append, List.reverse_cons, List.reverse_reverse, ← above] at whole
    exact Or.inr (Or.inr ⟨_, whole⟩)

/-- `order` lists the elements of a set. -/
def Enumerates {α : Type} (order : List α) (set : Finset α) : Prop :=
  order.Nodup ∧ ∀ x, x ∈ order ↔ x ∈ set

theorem mem_foldl_insert {dirs : List Path} {set : Finset Path} {x : Path} :
    x ∈ dirs.foldl (fun set dir => insert dir set) set ↔ x ∈ set ∨ x ∈ dirs := by
  induction dirs generalizing set with
  | nil => simp
  | cons dir dirs ih =>
    rw [List.foldl_cons, ih, Finset.mem_insert, List.mem_cons]
    tauto

theorem foldl_addFile (files : List Path) (m : PythonModules) :
    (∀ x, x ∈ (files.foldl addFile m).files ↔ x ∈ m.files ∨ ∃ file ∈ files, x = slashes file) ∧
    (∀ x, x ∈ (files.foldl addFile m).packages ↔ x ∈ m.packages ∨
      ∃ file ∈ files, isInit (slashes file) ∧ x = parent (slashes file)) ∧
    (∀ x, x ∈ (files.foldl addFile m).dirs ↔ x ∈ m.dirs ∨
      ∃ file ∈ files, x ∈ ancestors (parent (slashes file))) ∧
    (files.foldl addFile m).project = m.project ∧ (files.foldl addFile m).local_ = m.local_ := by
  induction files generalizing m with
  | nil => simp
  | cons file files ih =>
    obtain ⟨inFiles, inPackages, inDirs, project, local_⟩ := ih (addFile m file)
    rw [List.foldl_cons]
    refine ⟨?_, ?_, ?_, project, local_⟩
    · intro x
      rw [inFiles]
      simp only [addFile, Finset.mem_insert, List.mem_cons, exists_eq_or_imp]
      tauto
    · intro x
      rw [inPackages]
      simp only [addFile, List.mem_cons, exists_eq_or_imp]
      split
      next init =>
        rw [Finset.mem_insert]
        tauto
      next plain => tauto
    · intro x
      rw [inDirs]
      simp only [addFile, mem_foldl_insert, List.mem_cons, exists_eq_or_imp]
      tauto

/-- The order of the files does not matter. -/
theorem scan_congr {files others : List Path} (same : ∀ file, file ∈ files ↔ file ∈ others) :
    scan files = scan others := by
  have kept : ∀ file, file ∈ (files.filter fun file => python <:+ file) ↔
      file ∈ others.filter fun file => python <:+ file := by
    intro file
    rw [List.mem_filter, List.mem_filter, same]
  obtain ⟨files₁, packages₁, dirs₁, project₁, local₁⟩ := foldl_addFile
    (files.filter fun file => python <:+ file) ⟨∅, ∅, {[]}, {[]}, fun _ => none⟩
  obtain ⟨files₂, packages₂, dirs₂, project₂, local₂⟩ := foldl_addFile
    (others.filter fun file => python <:+ file) ⟨∅, ∅, {[]}, {[]}, fun _ => none⟩
  rw [scan, scan]
  apply PythonModules.ext
  · ext x
    rw [files₁, files₂]
    simp only [kept]
  · ext x
    rw [packages₁, packages₂]
    simp only [kept]
  · ext x
    rw [dirs₁, dirs₂]
    simp only [kept]
  · rw [project₁, project₂]
  · rw [local₁, local₂]

theorem scan_project (files : List Path) : (scan files).project = {[]} :=
  (foldl_addFile _ _).2.2.2.1

theorem scan_local (files : List Path) : (scan files).local_ = fun _ => none :=
  (foldl_addFile _ _).2.2.2.2

/-! ### The entries -/

def packageEntries (packages : Finset Path) (dir : Path) : List (Path × Path) :=
  if topPackage packages dir ≠ [] then
    [(parent (topPackage packages dir), parent (topPackage packages dir))] else []

def serviceEntries (s : Sources) (m : PythonModules) (service : Path) : List (Path × Path) :=
  if isService s service then
    ((reachOf m.packages service).map fun reach => (rootsOf s m service).map fun root => (root, reach)).getD []
  else []

def serviceProject (s : Sources) (m : PythonModules) (service : Path) : List Path :=
  if isService s service ∧ reachOf m.packages service = none then rootsOf s m service else []

def PythonModules.withRoots (m : PythonModules) (project : Finset Path)
    (local_ : Path → Option Path) : PythonModules :=
  { m with project := project, local_ := local_ }

theorem addLocal_eq (m : PythonModules) (project : Finset Path) (local_ : Path → Option Path)
    (root reach : Path) :
    (m.withRoots project local_).addLocal root reach =
      m.withRoots project (widen within local_ (root, reach)) := by
  rw [PythonModules.addLocal, widen]
  by_cases wider : ∀ old ∈ local_ root, within old reach
  · have wide : ∀ old ∈ (m.withRoots project local_).local_ root, within old reach := wider
    rw [if_pos wide, if_pos wider]
    rfl
  · have narrow : ¬∀ old ∈ (m.withRoots project local_).local_ root, within old reach := wider
    rw [if_neg narrow, if_neg wider]

theorem foldl_addLocal (m : PythonModules) (project : Finset Path) (local_ : Path → Option Path)
    (roots : List Path) (reach : Path) :
    roots.foldl (fun m root => m.addLocal root reach) (m.withRoots project local_) =
      m.withRoots project ((roots.map fun root => (root, reach)).foldl (widen within) local_) := by
  induction roots generalizing local_ with
  | nil => rfl
  | cons root roots ih => rw [List.foldl_cons, addLocal_eq, ih, List.map_cons, List.foldl_cons]

theorem foldl_project (m : PythonModules) (project : Finset Path) (local_ : Path → Option Path)
    (roots : List Path) :
    roots.foldl (fun m root => { m with project := insert root m.project })
      (m.withRoots project local_) =
      m.withRoots (roots.foldl (fun set root => insert root set) project) local_ := by
  induction roots generalizing project with
  | nil => rfl
  | cons root roots ih => exact ih (insert root project)

theorem packagePass_eq (m : PythonModules) (project : Finset Path) (local_ : Path → Option Path)
    (order : List Path) :
    order.foldl packageStep (m.withRoots project local_) =
      m.withRoots project ((order.flatMap (packageEntries m.packages)).foldl (widen within) local_) := by
  induction order generalizing local_ with
  | nil => rfl
  | cons dir order ih =>
    have step : packageStep (m.withRoots project local_) dir =
        m.withRoots project ((packageEntries m.packages dir).foldl (widen within) local_) := by
      have packages : (m.withRoots project local_).packages = m.packages := rfl
      rw [packageStep, packageEntries, packages]
      by_cases low : topPackage m.packages dir = []
      · simp [low]
      · simpa [low] using addLocal_eq m project local_ _ _
    rw [List.foldl_cons, step, ih, List.flatMap_cons, List.foldl_append]

theorem serviceStep_eq (s : Sources) (m : PythonModules) (project : Finset Path)
    (local_ : Path → Option Path) (service : Path) :
    serviceStep s (m.withRoots project local_) service =
      m.withRoots ((serviceProject s m service).foldl (fun set root => insert root set) project)
        ((serviceEntries s m service).foldl (widen within) local_) := by
  have packages : (m.withRoots project local_).packages = m.packages := rfl
  have roots : rootsOf s (m.withRoots project local_) service = rootsOf s m service := rfl
  rw [serviceStep, serviceEntries, serviceProject, packages, roots]
  by_cases is : isService s service
  · cases reach : reachOf m.packages service with
    | none => simpa [is] using foldl_project m project local_ (rootsOf s m service)
    | some wide => simpa [is] using foldl_addLocal m project local_ (rootsOf s m service) wide
  · simp [is]

theorem servicePass_eq (s : Sources) (m : PythonModules) (project : Finset Path)
    (local_ : Path → Option Path) (order : List Path) :
    order.foldl (serviceStep s) (m.withRoots project local_) =
      m.withRoots
        ((order.flatMap (serviceProject s m)).foldl (fun set root => insert root set) project)
        ((order.flatMap (serviceEntries s m)).foldl (widen within) local_) := by
  induction order generalizing project local_ with
  | nil => rfl
  | cons service order ih =>
    rw [List.foldl_cons, serviceStep_eq, ih, List.flatMap_cons, List.flatMap_cons,
      List.foldl_append, List.foldl_append]

/-! ### The roots -/

def entries (s : Sources) (m : PythonModules) (order : BuildOrder) : List (Path × Path) :=
  order.packages.flatMap (packageEntries m.packages) ++ order.dirs.flatMap (serviceEntries s m)

def projectRoots (s : Sources) (m : PythonModules) (order : BuildOrder) : Finset Path :=
  (order.dirs.flatMap (serviceProject s m)).foldl (fun set root => insert root set) {[]}

/-- The index is the scan with the roots of the project, and the widest reach of each other root. -/
theorem build_eq (s : Sources) (order : BuildOrder) :
    buildPythonModules s order =
      let m := scan order.files
      m.withRoots (projectRoots s m order) fun root =>
        if root ∈ projectRoots s m order then none else build within (entries s m order) root := by
  have start : scan order.files = (scan order.files).withRoots {[]} fun _ => none := by
    rw [← scan_project order.files, ← scan_local order.files]
    rfl
  have passes : order.dirs.foldl (serviceStep s) (order.packages.foldl packageStep (scan order.files)) =
      (scan order.files).withRoots (projectRoots s (scan order.files) order)
        (build within (entries s (scan order.files) order)) := by
    conv_lhs => rw [start]
    rw [packagePass_eq, servicePass_eq, ← List.foldl_append]
    rfl
  rw [buildPythonModules, passes]
  rfl

theorem within_reach (packages : Finset Path) (service reach : Path) (ancestor : Path)
    (above : within service ancestor) (found : reachAbove packages service ancestor = some reach) :
    within service reach := by
  induction size : ancestor.length using Nat.strongRecOn generalizing ancestor with
  | _ n ih =>
    rw [reachAbove] at found
    split at found
    next => cases found
    next some_ =>
      split at found
      next =>
        cases found
        exact within_refl service
      next =>
        split at found
        next =>
          cases found
          exact above
        next =>
          have shorter := parent_length ancestor some_
          exact ih _ (size ▸ shorter) (parent ancestor) (within_trans above (within_parent ancestor))
            found rfl

theorem reachOf_within {packages : Finset Path} {service reach : Path}
    (found : reachOf packages service = some reach) : within service reach := by
  rw [reachOf] at found
  split at found
  next =>
    cases found
    exact within_refl service
  next => exact within_reach packages service reach (parent service) (within_parent service) found

theorem rootsOf_within {s : Sources} {m : PythonModules} {service root : Path}
    (listed : root ∈ rootsOf s m service) : within root service := by
  rw [rootsOf] at listed
  simp only at listed
  rcases List.mem_cons.mp listed with rfl | listed
  · exact within_refl root
  · rcases List.mem_append.mp listed with source | declared
    · split at source
      next =>
        cases List.mem_singleton.mp source
        exact within_join service sourceFolder
      next => cases source
    · obtain ⟨⟨file, cfg⟩, -, declared⟩ := List.mem_flatMap.mp declared
      simp only at declared
      split at declared
      next content read =>
        obtain ⟨p, -, rfl⟩ := List.mem_map.mp (List.mem_filter.mp declared).1
        exact within_join service p
      next => cases declared

theorem entries_within {s : Sources} {m : PythonModules} {order : BuildOrder} {root reach : Path}
    (listed : (root, reach) ∈ entries s m order) : within root reach := by
  rcases List.mem_append.mp listed with package | service
  · obtain ⟨dir, -, package⟩ := List.mem_flatMap.mp package
    rw [packageEntries] at package
    split at package
    next =>
      cases List.mem_singleton.mp package
      exact within_refl _
    next => cases package
  · obtain ⟨dir, -, service⟩ := List.mem_flatMap.mp service
    rw [serviceEntries] at service
    split at service
    next =>
      cases found : reachOf m.packages dir with
      | none => simp [found] at service
      | some wide =>
        rw [found, Option.map_some, Option.getD_some] at service
        obtain ⟨root', inside, same⟩ := List.mem_map.mp service
        cases same
        exact within_trans (rootsOf_within inside) (reachOf_within found)
    next => cases service

theorem entries_comparable (s : Sources) (m : PythonModules) (order : BuildOrder) :
    Comparable within (entries s m order) := fun _ _ _ first second =>
  within_chain (entries_within first) (entries_within second)

/-- `order` lists what the build iterates. -/
structure BuildOrder.Of (order : BuildOrder) (s : Sources) : Prop where
  files : Enumerates order.files s.files
  packages : Enumerates order.packages (scan order.files).packages
  dirs : Enumerates order.dirs (scan order.files).dirs

variable {s : Sources} {order other : BuildOrder}

theorem build_order_free (of : order.Of s) (of' : other.Of s) :
    buildPythonModules s order = buildPythonModules s other := by
  have scanned : scan order.files = scan other.files :=
    scan_congr fun file => (of.files.2 file).trans (of'.files.2 file).symm
  have packages : ∀ dir, dir ∈ order.packages ↔ dir ∈ other.packages := by
    intro dir
    rw [of.packages.2, of'.packages.2, scanned]
  have dirs : ∀ dir, dir ∈ order.dirs ↔ dir ∈ other.dirs := by
    intro dir
    rw [of.dirs.2, of'.dirs.2, scanned]
  have project : projectRoots s (scan other.files) order = projectRoots s (scan other.files) other := by
    ext root
    simp only [projectRoots, mem_foldl_insert, List.mem_flatMap, dirs]
  have same : ∀ e, e ∈ entries s (scan other.files) order ↔ e ∈ entries s (scan other.files) other := by
    intro e
    simp only [entries, List.mem_append, List.mem_flatMap, packages, dirs]
  have widest := build_congr (entries_comparable s (scan other.files) order) same
  rw [build_eq, build_eq, scanned]
  simp only [project, widest]

theorem build_within (s : Sources) (order : BuildOrder) {root reach : Path}
    (kept : (buildPythonModules s order).local_ root = some reach) : within root reach := by
  rw [build_eq] at kept
  simp only [PythonModules.withRoots] at kept
  split at kept
  next => cases kept
  next =>
    have listed := (build_some (entries_comparable s _ order) root reach).mp kept
    exact entries_within listed.1

/-- The other roots are those of the entries that are not roots of the project. -/
theorem build_isSome (s : Sources) (order : BuildOrder) (root : Path) :
    ((buildPythonModules s order).local_ root).isSome ↔
      root ∉ projectRoots s (scan order.files) order ∧
        ∃ reach, (root, reach) ∈ entries s (scan order.files) order := by
  rw [build_eq]
  simp only [PythonModules.withRoots]
  split
  next project => simp [project]
  next other =>
    rw [← not_iff_not, Option.not_isSome_iff_eq_none, build_none]
    simp [other]

end CodeGraph.Resolution.PythonImports
