import CodeGraph.Foundation.Lines
import CodeGraph.Resolution.GlobTexts

/-!
# Workspace globs

A glob is matched by the set of its segments that may come next: a folder moves the set on, and a `**`
is stepped over as well. The members of a workspace are found by a walk, level by level, of the folders
that leave the set non-empty (`resolution/workspace-packages.ts`).
-/
namespace CodeGraph.Resolution.WorkspaceGlobs

open Text

def GLOB_SKIP_DIRS : List JsString := ["node_modules", "bower_components"].map utf16

def GLOBSTAR_SKIP_DIRS : List JsString := ["test", "tests"].map utf16

def GLOBSTAR_MAX_DEPTH : Nat := 8

def GLOB_DIR_BUDGET : Nat := 10000

/-- Only the source of `re` is kept, without its `^` and `$`. -/
structure GlobSegment where
  text : JsString
  globstar : Bool
  wildcard : Bool
  re : Option JsString

def compileSegment (text : JsString) : GlobSegment :=
  if text = utf16 "**" then ⟨text, true, true, none⟩
  else if text.any (· ∈ OUTSIDE) then ⟨text, false, true, some (regexpSource text)⟩
  else ⟨text, false, false, none⟩

def segmentsOf (path : JsString) : List JsString :=
  (path.splitOn (codeUnit '/')).filter fun s => s ≠ [] ∧ s ≠ utf16 "."

def compileGlob (pattern : JsString) : List GlobSegment := (segmentsOf pattern).map compileSegment

/-- A pattern with slashes only, and none at its end. -/
def normPattern (pattern : JsString) : JsString :=
  ((posix pattern).reverse.dropWhile (· = codeUnit '/')).reverse

/-- The place `i` of a segment, and those behind it and the `**`s that follow. -/
def closureFrom : List GlobSegment → Nat → Finset Nat
  | [], i => {i}
  | seg :: glob, i => if seg.globstar then insert i (closureFrom glob (i + 1)) else {i}

def globClosure (glob : List GlobSegment) (states : Finset Nat) : Finset Nat :=
  states.biUnion fun i => closureFrom (glob.drop i) i

def hidden (walking : Bool) (name : JsString) : Bool :=
  walking && (name.head? = some (codeUnit '.') || name ∈ GLOB_SKIP_DIRS)

/-- The place that a folder leads to from the place `i`. -/
def advance (glob : List GlobSegment) (name : JsString) (walking : Bool) (i : Nat) : Finset Nat :=
  match glob[i]? with
  | none => ∅
  | some seg =>
    if seg.globstar then
      if !hidden walking name && !(walking && name ∈ GLOBSTAR_SKIP_DIRS) then {i} else ∅
    else if seg.re.elim (decide (seg.text = name)) fun re => !hidden walking name && test re name then
      {i + 1}
    else ∅

def globStep (glob : List GlobSegment) (states : Finset Nat) (name : JsString) (walking : Bool) :
    Finset Nat :=
  globClosure glob (states.biUnion (advance glob name walking))

/-- The loop of `workspaceGlobMatches`. -/
def matchNames (glob : List GlobSegment) : Finset Nat → List JsString → Bool
  | states, [] => glob.length ∈ states
  | states, name :: names =>
    let states := globStep glob states name false
    if states = ∅ then false else matchNames glob states names

def workspaceGlobMatches (pattern dir : JsString) : Bool :=
  let glob := compileGlob (normPattern pattern)
  matchNames glob (globClosure glob {0}) (segmentsOf dir)

/-! ### The walk -/

structure Entry where
  name : JsString
  isDirectory : Bool
  deriving DecidableEq

/-- Every folder on the way from `rel` down is listed in the one above it. -/
def Chain (entries : List JsString → Option (List Entry)) : List JsString → List JsString → Prop
  | _, [] => True
  | rel, name :: names =>
    (∃ listing, entries rel = some listing ∧ ⟨name, true⟩ ∈ listing) ∧ Chain entries (rel ++ [name]) names

/-- What the folders of a project list, by the names that lead to them; `none` where that fails. -/
structure DirectoryTree where
  entries : List JsString → Option (List Entry)
  distinct : ∀ rel listing, entries rel = some listing → (listing.map Entry.name).Nodup
  named : ∀ rel listing, entries rel = some listing → ∀ e ∈ listing,
    e.name ≠ [] ∧ e.name ≠ utf16 "." ∧ codeUnit '/' ∉ e.name
  folders : ∀ rel listing, entries rel = some listing → Chain entries [] rel

def DirectoryTree.Folder (tree : DirectoryTree) (names : List JsString) : Prop :=
  Chain tree.entries [] names

/-- A folder of a level, by its names, with the places that may come next. -/
structure Item where
  rel : List JsString
  states : Finset Nat

structure Walk where
  out : List (List JsString)
  level : List Item
  read : Nat := 0
  /-- The walk ended at its budget. -/
  stopped : Bool := false

section Walk

variable (tree : DirectoryTree) (glob : List GlobSegment)

def children (item : Item) : List Item :=
  ((tree.entries item.rel).getD []).filterMap fun e =>
    let advanced := globStep glob item.states e.name true
    if e.isDirectory = true ∧ advanced ≠ ∅ then some ⟨item.rel ++ [e.name], advanced⟩ else none

def found (item : Item) : List (List JsString) :=
  ((children tree glob item).filter fun child => glob.length ∈ child.states).map Item.rel

def nexts (item : Item) : List Item :=
  (children tree glob item).filter fun child => ∃ state ∈ child.states, state < glob.length

def walkLevel : List Item → Walk → Walk
  | [], w => w
  | item :: level, w =>
    let w := { w with read := w.read + 1 }
    if GLOB_DIR_BUDGET < w.read then { w with stopped := true }
    else walkLevel level
      { w with out := w.out ++ found tree glob item, level := w.level ++ nexts tree glob item }

/-- At most `n` levels. -/
def walkLevels : Nat → Walk → Walk
  | 0, w => w
  | n + 1, w =>
    if w.level = [] then w
    else
      let w := walkLevel tree glob w.level { w with level := [] }
      if w.stopped then w else walkLevels n w

end Walk

def leavesProject (norm : JsString) : Bool :=
  norm.head? = some (codeUnit '/') ||
  (norm.head?.any fun u => (codeUnit 'A' ≤ u ∧ u ≤ codeUnit 'Z') ∨ (codeUnit 'a' ≤ u ∧ u ≤ codeUnit 'z')) &&
    norm[1]? = some (codeUnit ':') ||
  utf16 ".." ∈ norm.splitOn (codeUnit '/')

/-- A folder as a path: `base || '.'`, and `rel/name` below one. -/
def pathOf (names : List JsString) : JsString :=
  if names = [] then utf16 "." else [codeUnit '/'].intercalate names

def expandWorkspaceGlob (tree : DirectoryTree) (pattern : JsString) : List JsString × Bool :=
  let norm := normPattern pattern
  if leavesProject norm then ([], false)
  else
    let glob := compileGlob norm
    match glob.findIdx? (·.wildcard) with
    | none => ([norm], false)
    | some first =>
      let base := (glob.take first).map (·.text)
      let start := globClosure glob {first}
      let w := walkLevels tree glob (GLOBSTAR_MAX_DEPTH + 1)
        { out := if glob.length ∈ start then [base] else [], level := [⟨base, start⟩] }
      (w.out.map pathOf, w.stopped)

inductive Segment where
  | literal (text : JsString)
  | globstar
  | wild (g : Glob)

def Segment.text : Segment → JsString
  | .literal text => text
  | .globstar => utf16 "**"
  | .wild g => g.text

def Segment.Proper : Segment → Prop
  | .literal text => ∀ u ∈ text, u ∉ OUTSIDE
  | .globstar => True
  | .wild g => g.Proper ∧ g.text ≠ utf16 "**" ∧ ∃ u ∈ g.text, u ∈ OUTSIDE

/-- A walk takes no hidden folder by a wildcard, nor one of tests by a `**`. -/
def Segment.Takes (walking : Bool) (name : JsString) : Segment → Prop
  | .literal text => text = name
  | .globstar => hidden walking name = false ∧ (walking = true → name ∉ GLOBSTAR_SKIP_DIRS)
  | .wild g => hidden walking name = false ∧ g.Means name

/-- The names of a folder are taken by the segments in order, by a `**` any number of them. -/
inductive Leads (walking : Bool) : List Segment → List JsString → Prop
  | nil : Leads walking [] []
  | over_ {segs : List Segment} {names : List JsString} : Leads walking segs names →
      Leads walking (.globstar :: segs) names
  | more {segs : List Segment} {name : JsString} {names : List JsString} :
      Segment.globstar.Takes walking name →
      Leads walking (.globstar :: segs) names → Leads walking (.globstar :: segs) (name :: names)
  | one {seg : Segment} {segs : List Segment} {name : JsString} {names : List JsString} : seg ≠ .globstar →
      seg.Takes walking name → Leads walking segs names → Leads walking (seg :: segs) (name :: names)

def Segment.compiled : Segment → GlobSegment
  | .literal text => ⟨text, false, false, none⟩
  | .globstar => ⟨utf16 "**", true, true, none⟩
  | .wild g => ⟨g.text, false, true, some (regexpSource g.text)⟩

/-! ### The places of a glob -/

variable {walking : Bool} {segs rest : List Segment} {seg : Segment} {states : Finset Nat} {name : JsString}
  {names : List JsString} {i k : Nat}

theorem compileSegment_text (proper : seg.Proper) : compileSegment seg.text = seg.compiled := by
  cases seg with
  | literal text =>
    have plain : ¬text.any (· ∈ OUTSIDE) = true := by
      rw [List.any_eq_true]
      rintro ⟨u, listed, special⟩
      exact proper u listed (of_decide_eq_true special)
    have other : ¬text = utf16 "**" := by
      rintro rfl
      exact plain (by decide)
    rw [compileSegment, Segment.text, if_neg other, if_neg plain]
    rfl
  | globstar => exact if_pos rfl
  | wild g =>
    obtain ⟨-, other, u, listed, special⟩ := proper
    have wild : g.text.any (· ∈ OUTSIDE) = true := List.any_eq_true.mpr ⟨u, listed, decide_eq_true special⟩
    rw [compileSegment, Segment.text, if_neg other, if_pos wild]
    rfl

abbrev compiled (segs : List Segment) : List GlobSegment := segs.map Segment.compiled

/-- The places are within the glob, and a `**` is never the last one of them. -/
structure Closed (segs : List Segment) (states : Finset Nat) : Prop where
  bound : ∀ i ∈ states, i ≤ segs.length
  over_ : ∀ i ∈ states, segs[i]? = some .globstar → i + 1 ∈ states

theorem drop_cons (here : segs.drop i = seg :: rest) : segs[i]? = some seg ∧ segs.drop (i + 1) = rest := by
  constructor
  · rw [← List.head?_drop, here, List.head?_cons]
  · rw [← List.tail_drop, here, List.tail_cons]

variable (walking) in
theorem closureFrom_spec (segs : List Segment) (i : Nat) : i ∈ closureFrom ((compiled segs).drop i) i ∧
    ∀ k ∈ closureFrom ((compiled segs).drop i) i, (i ≤ segs.length → k ≤ segs.length) ∧
      (segs[k]? = some .globstar → k + 1 ∈ closureFrom ((compiled segs).drop i) i) ∧
      ∀ names, Leads walking (segs.drop k) names → Leads walking (segs.drop i) names := by
  rw [← List.map_drop]
  generalize here : segs.drop i = rest
  induction rest generalizing i with
  | nil =>
    refine ⟨Finset.mem_singleton_self i, fun k listed => ?_⟩
    obtain rfl := Finset.mem_singleton.mp listed
    refine ⟨id, fun there => ?_, fun names h => here ▸ h⟩
    rw [List.getElem?_eq_none (List.drop_eq_nil_iff.mp here)] at there
    cases there
  | cons seg rest ih =>
    obtain ⟨there, behind⟩ := drop_cons here
    rw [List.map_cons, closureFrom]
    cases globstar : seg.compiled.globstar with
    | false =>
      rw [if_neg Bool.false_ne_true]
      refine ⟨Finset.mem_singleton_self i, fun k listed => ?_⟩
      obtain rfl := Finset.mem_singleton.mp listed
      refine ⟨id, fun is => ?_, fun names h => here ▸ h⟩
      rw [there] at is
      rw [Option.some.inj is] at globstar
      cases globstar
    | true =>
      have same : seg = .globstar := by
        cases seg <;> first | rfl | cases globstar
      subst same
      obtain ⟨self, later⟩ := ih (i + 1) behind
      rw [if_pos rfl]
      refine ⟨Finset.mem_insert_self i _, fun k listed => ?_⟩
      rcases Finset.mem_insert.mp listed with rfl | listed
      · exact ⟨id, fun _ => Finset.mem_insert_of_mem self, fun names h => here ▸ h⟩
      · obtain ⟨bound, next, leads⟩ := later k listed
        have short := (List.getElem?_eq_some_iff.mp there).1
        exact ⟨fun _ => bound short, fun is => Finset.mem_insert_of_mem (next is), fun names h =>
          .over_ (leads names h)⟩

theorem globClosure_closed (bound : ∀ i ∈ states, i ≤ segs.length) :
    Closed segs (globClosure (compiled segs) states) where
  bound k listed := by
    obtain ⟨i, among, inside⟩ := Finset.mem_biUnion.mp listed
    exact ((closureFrom_spec false segs i).2 k inside).1 (bound i among)
  over_ k listed is := by
    obtain ⟨i, among, inside⟩ := Finset.mem_biUnion.mp listed
    exact Finset.mem_biUnion.mpr ⟨i, among, ((closureFrom_spec false segs i).2 k inside).2.1 is⟩

theorem leads_globClosure : (∃ k ∈ globClosure (compiled segs) states, Leads walking (segs.drop k) names) ↔
    ∃ i ∈ states, Leads walking (segs.drop i) names := by
  constructor
  · rintro ⟨k, listed, leads⟩
    obtain ⟨i, among, inside⟩ := Finset.mem_biUnion.mp listed
    exact ⟨i, among, ((closureFrom_spec walking segs i).2 k inside).2.2 names leads⟩
  · rintro ⟨i, among, leads⟩
    exact ⟨i, Finset.mem_biUnion.mpr ⟨i, among, (closureFrom_spec walking segs i).1⟩, leads⟩

theorem mem_ite_singleton {c : Prop} [Decidable c] :
    (k ∈ if c then ({i} : Finset Nat) else ∅) ↔ c ∧ k = i := by
  split <;> simp [*]

theorem mem_advance (proper : ∀ seg ∈ segs, seg.Proper) : k ∈ advance (compiled segs) name walking i ↔
    ∃ seg, segs[i]? = some seg ∧ seg.Takes walking name ∧
      k = if seg.compiled.globstar then i else i + 1 := by
  rw [advance, List.getElem?_map]
  cases there : segs[i]? with
  | none => simp
  | some seg =>
    have fine := proper seg (List.mem_of_getElem? there)
    cases seg with
    | literal text => simp [Segment.compiled, Segment.Takes, mem_ite_singleton]
    | globstar => cases walking <;> simp [Segment.compiled, Segment.Takes, mem_ite_singleton]
    | wild g =>
      refine (mem_ite_singleton
        (c := (!hidden walking name && test (regexpSource g.text) name) = true)).trans ?_
      rw [Bool.and_eq_true, test_text fine.1, Bool.not_eq_true']
      exact ⟨fun ⟨takes, same⟩ => ⟨_, rfl, takes, same⟩, fun ⟨_, same, takes, is⟩ => by
        cases same
        exact ⟨takes, is⟩⟩

theorem globStep_closed (states : Finset Nat) (proper : ∀ seg ∈ segs, seg.Proper) :
    Closed segs (globStep (compiled segs) states name walking) := by
  refine globClosure_closed fun k listed => ?_
  obtain ⟨i, among, inside⟩ := Finset.mem_biUnion.mp listed
  obtain ⟨seg, there, -, rfl⟩ := (mem_advance proper).mp inside
  have short := (List.getElem?_eq_some_iff.mp there).1
  split <;> omega

theorem leads_globStep (closed : Closed segs states) (proper : ∀ seg ∈ segs, seg.Proper) :
    (∃ k ∈ globStep (compiled segs) states name walking, Leads walking (segs.drop k) names) ↔
      ∃ i ∈ states, Leads walking (segs.drop i) (name :: names) := by
  rw [globStep, leads_globClosure]
  constructor
  · rintro ⟨k, listed, leads⟩
    obtain ⟨i, among, inside⟩ := Finset.mem_biUnion.mp listed
    obtain ⟨seg, there, takes, rfl⟩ := (mem_advance proper).mp inside
    refine ⟨i, among, ?_⟩
    obtain ⟨short, rfl⟩ := List.getElem?_eq_some_iff.mp there
    have here := List.drop_eq_getElem_cons short
    rw [here]
    generalize segs[i] = seg at takes leads here ⊢
    cases seg with
    | globstar => exact .more takes (here ▸ leads)
    | literal text => exact .one nofun takes leads
    | wild g => exact .one nofun takes leads
  · rintro ⟨i, among, leads⟩
    generalize here : segs.drop i = rest at leads
    generalize whole : name :: names = all at leads
    induction leads generalizing i with
    | nil => cases whole
    | over_ _ ih =>
      obtain ⟨there, behind⟩ := drop_cons here
      exact ih (i + 1) (closed.over_ i among there) behind whole
    | more takes leads _ =>
      obtain ⟨rfl, rfl⟩ := List.cons.inj whole
      have there := (drop_cons here).1
      exact ⟨i, Finset.mem_biUnion.mpr ⟨i, among, (mem_advance proper).mpr ⟨_, there, takes, rfl⟩⟩,
        here ▸ leads⟩
    | @one seg _ _ _ other takes leads _ =>
      obtain ⟨rfl, rfl⟩ := List.cons.inj whole
      obtain ⟨there, behind⟩ := drop_cons here
      have single : seg.compiled.globstar = false := by
        cases seg <;> first | rfl | exact absurd rfl other
      refine ⟨i + 1,
        Finset.mem_biUnion.mpr ⟨i, among, (mem_advance proper).mpr ⟨_, there, takes, ?_⟩⟩, behind ▸ leads⟩
      rw [single]
      rfl

theorem mem_length (closed : Closed segs states) :
    segs.length ∈ states ↔ ∃ i ∈ states, Leads walking (segs.drop i) [] := by
  constructor
  · intro listed
    refine ⟨_, listed, ?_⟩
    rw [List.drop_length]
    exact .nil
  · rintro ⟨i, among, leads⟩
    generalize here : segs.drop i = rest at leads
    generalize whole : ([] : List JsString) = all at leads
    induction leads generalizing i with
    | nil => exact Nat.le_antisymm (closed.bound i among) (List.drop_eq_nil_iff.mp here) ▸ among
    | over_ _ ih =>
      obtain ⟨there, behind⟩ := drop_cons here
      exact ih (i + 1) (closed.over_ i among there) behind whole
    | more => cases whole
    | one => cases whole

theorem globStep_beyond {glob : List GlobSegment} (beyond : ∀ i ∈ states, glob.length ≤ i) :
    globStep glob states name walking = ∅ := by
  have none_ : states.biUnion (advance glob name walking) = ∅ :=
    Finset.eq_empty_of_forall_notMem fun k listed => by
    obtain ⟨i, among, inside⟩ := Finset.mem_biUnion.mp listed
    rw [advance, List.getElem?_eq_none (beyond i among)] at inside
    exact Finset.notMem_empty k inside
  rw [globStep, none_]
  rfl

def run (glob : List GlobSegment) (walking : Bool) (states : Finset Nat) (names : List JsString) :
    Finset Nat :=
  names.foldl (fun states name => globStep glob states name walking) states

theorem run_empty (glob : List GlobSegment) (names : List JsString) : run glob walking ∅ names = ∅ := by
  induction names with
  | nil => rfl
  | cons name names ih => exact ih

theorem mem_run (closed : Closed segs states) (proper : ∀ seg ∈ segs, seg.Proper) :
    segs.length ∈ run (compiled segs) walking states names ↔ ∃ i ∈ states,
      Leads walking (segs.drop i) names := by
  induction names generalizing states with
  | nil => exact mem_length closed
  | cons name names ih => exact (ih (globStep_closed states proper)).trans (leads_globStep closed proper)

theorem matchNames_eq (glob : List GlobSegment) (states : Finset Nat) (names : List JsString) :
    matchNames glob states names = decide (glob.length ∈ run glob false states names) := by
  induction names generalizing states with
  | nil => rfl
  | cons name names ih =>
    rw [matchNames]
    split
    · next empty => rw [run, List.foldl_cons, empty, ← run, run_empty]; rfl
    · exact ih _

theorem compileGlob_eq {pattern : JsString} (written : segmentsOf pattern = segs.map Segment.text)
    (proper : ∀ seg ∈ segs, seg.Proper) : compileGlob pattern = compiled segs := by
  rw [compileGlob, written, List.map_map]
  exact List.map_congr_left fun seg listed => compileSegment_text (proper seg listed)

theorem workspaceGlobMatches_iff {pattern : JsString}
    (written : segmentsOf (normPattern pattern) = segs.map Segment.text)
    (proper : ∀ seg ∈ segs, seg.Proper) (dir : JsString) :
    workspaceGlobMatches pattern dir = true ↔ Leads false segs (segmentsOf dir) := by
  have closed : Closed segs (globClosure (compiled segs) {0}) := globClosure_closed fun i listed => by
    rw [Finset.mem_singleton.mp listed]
    exact Nat.zero_le _
  rw [workspaceGlobMatches, compileGlob_eq written proper, matchNames_eq, decide_eq_true_iff, List.length_map,
    mem_run closed proper, leads_globClosure]
  simp

/-! ### The folders that the walk finds -/

section Found

variable {tree : DirectoryTree} {glob : List GlobSegment} {item child : Item} {rel xs : List JsString}

theorem chain_append {entries : List JsString → Option (List Entry)} (before after : List JsString) :
    Chain entries rel (before ++ after) ↔ Chain entries rel before ∧
      Chain entries (rel ++ before) after := by
  induction before generalizing rel with
  | nil =>
    rw [List.append_nil]
    exact ⟨fun h => ⟨trivial, h⟩, And.right⟩
  | cons name before ih =>
    rw [List.cons_append, Chain, Chain, ih, and_assoc, List.append_assoc, List.singleton_append]

theorem mem_children : child ∈ children tree glob item ↔ ∃ name, Chain tree.entries item.rel [name] ∧
    child = ⟨item.rel ++ [name], globStep glob item.states name true⟩ ∧ child.states ≠ ∅ := by
  rw [children, List.mem_filterMap]
  constructor
  · rintro ⟨⟨name, isDirectory⟩, listed, is⟩
    obtain ⟨⟨rfl, some_⟩, is⟩ := Option.ite_none_right_eq_some.mp is
    obtain rfl := Option.some.inj is
    cases there : tree.entries item.rel with
    | none =>
      rw [there] at listed
      cases listed
    | some listing =>
      rw [there] at listed
      exact ⟨name, ⟨⟨listing, there, listed⟩, trivial⟩, rfl, some_⟩
  · rintro ⟨name, ⟨⟨listing, there, listed⟩, -⟩, rfl, some_⟩
    rw [there]
    exact ⟨⟨name, true⟩, listed, if_pos ⟨rfl, some_⟩⟩

theorem children_nodup (tree : DirectoryTree) (glob : List GlobSegment) (item : Item) :
    ((children tree glob item).map Item.rel).Nodup := by
  rw [children]
  cases there : tree.entries item.rel with
  | none => exact List.nodup_nil
  | some listing =>
    rw [Option.getD_some, List.Nodup, List.pairwise_map, List.pairwise_filterMap]
    refine (List.pairwise_map.mp (tree.distinct item.rel listing there)).imp
      fun differ child is child' is' same => ?_
    obtain ⟨-, is⟩ := Option.ite_none_right_eq_some.mp is
    obtain ⟨-, is'⟩ := Option.ite_none_right_eq_some.mp is'
    cases is
    cases is'
    exact differ (List.singleton_inj.mp (List.append_cancel_left same))

theorem walkLevel_eq {level : List Item} {w : Walk}
    (finished : (walkLevel tree glob level w).stopped = false) :
    (walkLevel tree glob level w).out = w.out ++ level.flatMap (found tree glob) ∧
      (walkLevel tree glob level w).level = w.level ++ level.flatMap (nexts tree glob) := by
  induction level generalizing w with
  | nil => exact ⟨(List.append_nil _).symm, (List.append_nil _).symm⟩
  | cons item level ih =>
    rw [walkLevel] at finished ⊢
    simp only at finished ⊢
    split at finished
    · cases finished
    · next within =>
      obtain ⟨out, next⟩ := ih finished
      rw [if_neg within, out, next, List.flatMap_cons, List.flatMap_cons, List.append_assoc,
        List.append_assoc]
      exact ⟨rfl, rfl⟩

variable (tree glob) in
/-- What `n` levels find. -/
def levelsFound : Nat → List Item → List (List JsString)
  | 0, _ => []
  | n + 1, level => level.flatMap (found tree glob) ++ levelsFound n (level.flatMap (nexts tree glob))

theorem levelsFound_nil (n : Nat) : levelsFound tree glob n [] = [] := by
  induction n with
  | zero => rfl
  | succ n ih => exact ih

theorem walkLevels_eq {n : Nat} {w : Walk} (finished : (walkLevels tree glob n w).stopped = false) :
    (walkLevels tree glob n w).out = w.out ++ levelsFound tree glob n w.level := by
  induction n generalizing w with
  | zero => exact (List.append_nil _).symm
  | succ n ih =>
    rw [walkLevels] at finished ⊢
    split
    · next empty => rw [empty, levelsFound_nil, List.append_nil]
    · next some_ =>
      rw [if_neg some_] at finished
      simp only at finished ⊢
      split at finished
      · next stops => rw [stops] at finished; cases finished
      · next goes =>
        obtain ⟨out, next⟩ := walkLevel_eq ((Bool.not_eq_true _).mp goes)
        rw [if_neg goes, ih finished, out, next, List.nil_append, List.append_assoc, levelsFound]

/-- What is found below a level is what its places take, within the depth. -/
theorem mem_levelsFound {n : Nat} {level : List Item} : xs ∈ levelsFound tree glob n level ↔
    ∃ item ∈ level, ∃ names, names ≠ [] ∧ names.length ≤ n ∧ xs = item.rel ++ names ∧
      Chain tree.entries item.rel names ∧
      glob.length ∈ run glob true item.states names := by
  induction n generalizing level with
  | zero =>
    refine iff_of_false List.not_mem_nil ?_
    rintro ⟨item, -, names, some_, short, -⟩
    exact some_ (List.length_eq_zero_iff.mp (Nat.le_zero.mp short))
  | succ n ih =>
    rw [levelsFound, List.mem_append, ih]
    constructor
    · rintro (here | ⟨child, below, names, some_, short, rfl, chain, taken⟩)
      · obtain ⟨item, among, inside⟩ := List.mem_flatMap.mp here
        obtain ⟨child, listed, rfl⟩ := List.mem_map.mp inside
        obtain ⟨listed, taken⟩ := List.mem_filter.mp listed
        obtain ⟨name, chain, rfl, -⟩ := mem_children.mp listed
        exact ⟨item, among, [name], nofun, Nat.succ_le_succ (Nat.zero_le n), rfl, chain,
          of_decide_eq_true taken⟩
      · obtain ⟨item, among, inside⟩ := List.mem_flatMap.mp below
        obtain ⟨name, first, rfl, -⟩ := mem_children.mp (List.mem_filter.mp inside).1
        exact ⟨item, among, name :: names, nofun, Nat.succ_le_succ short, List.append_assoc ..,
          ⟨first.1, chain⟩, taken⟩
    · rintro ⟨item, among, names, some_, short, rfl, chain, taken⟩
      cases names with
      | nil => exact absurd rfl some_
      | cons name names =>
        have first : globStep glob item.states name true ≠ ∅ := fun empty => by
          rw [run, List.foldl_cons, empty, ← run, run_empty] at taken
          exact Finset.notMem_empty _ taken
        have child : (⟨item.rel ++ [name], globStep glob item.states name true⟩ : Item) ∈
            children tree glob item :=
          mem_children.mpr ⟨name, ⟨chain.1, trivial⟩, rfl, first⟩
        by_cases last : names = []
        · subst last
          left
          exact List.mem_flatMap.mpr ⟨item, among,
            List.mem_map.mpr ⟨_, List.mem_filter.mpr ⟨child, decide_eq_true taken⟩, rfl⟩⟩
        · right
          refine ⟨_, List.mem_flatMap.mpr ⟨item, among,
            List.mem_filter.mpr ⟨child, decide_eq_true ?_⟩⟩, names, last,
            Nat.le_of_succ_le_succ short, List.append_cons .., chain.2, taken⟩
          -- A place behind the glob leads nowhere.
          by_contra none_
          push Not at none_
          cases names with
          | nil => exact last rfl
          | cons name' names =>
            rw [run, List.foldl_cons, List.foldl_cons, globStep_beyond none_, ← run, run_empty] at taken
            exact Finset.notMem_empty _ taken

variable (tree glob) in
theorem children_level {level : List Item} {depth : Nat} (lengths : ∀ item ∈ level, item.rel.length = depth)
    (distinct : (level.map Item.rel).Nodup) : ((level.flatMap (children tree glob)).map Item.rel).Nodup ∧
      ∀ child ∈ level.flatMap (children tree glob), child.rel.length = depth + 1 := by
  constructor
  · rw [List.map_flatMap, List.nodup_flatMap]
    refine ⟨fun item _ => children_nodup tree glob item, (List.pairwise_map.mp distinct).imp
      fun differ xs inside inside' => ?_⟩
    obtain ⟨child, listed, rfl⟩ := List.mem_map.mp inside
    obtain ⟨child', listed', same⟩ := List.mem_map.mp inside'
    obtain ⟨name, -, rfl, -⟩ := mem_children.mp listed
    obtain ⟨name', -, rfl, -⟩ := mem_children.mp listed'
    exact differ (List.append_inj_left' same rfl).symm
  · intro child below
    obtain ⟨item, among, listed⟩ := List.mem_flatMap.mp below
    obtain ⟨name, -, rfl, -⟩ := mem_children.mp listed
    rw [List.length_append, lengths item among]
    rfl

variable (tree glob) in
theorem levelsFound_sorted (n : Nat) {depth : Nat} {level : List Item}
    (lengths : ∀ item ∈ level, item.rel.length = depth)
    (distinct : (level.map Item.rel).Nodup) : (levelsFound tree glob n level).Nodup ∧
      (levelsFound tree glob n level).Pairwise (fun xs ys => xs.length ≤ ys.length) ∧
      ∀ xs ∈ levelsFound tree glob n level, depth < xs.length := by
  induction n generalizing level depth with
  | zero => exact ⟨List.nodup_nil, .nil, nofun⟩
  | succ n ih =>
    obtain ⟨nodup, deeper⟩ := children_level tree glob lengths distinct
    have here : level.flatMap (found tree glob) = ((level.flatMap (children tree glob)).filter
        fun child => glob.length ∈ child.states).map Item.rel := by
      rw [List.filter_flatMap, List.map_flatMap]
      rfl
    have next : level.flatMap (nexts tree glob) = (level.flatMap (children tree glob)).filter
        fun child => ∃ state ∈ child.states, state < glob.length := by
      rw [List.filter_flatMap]
      rfl
    have same : ∀ xs ∈ level.flatMap (found tree glob), xs.length = depth + 1 := by
      rw [here]
      intro xs listed
      obtain ⟨child, inside, rfl⟩ := List.mem_map.mp listed
      exact deeper child (List.mem_of_mem_filter inside)
    have lengths' : ∀ item ∈ level.flatMap (nexts tree glob), item.rel.length = depth + 1 := by
      rw [next]
      exact fun child listed => deeper child (List.mem_of_mem_filter listed)
    have distinct' : ((level.flatMap (nexts tree glob)).map Item.rel).Nodup := by
      rw [next]
      exact nodup.sublist (List.filter_sublist.map _)
    obtain ⟨nodup', sorted, deep⟩ := ih lengths' distinct'
    rw [levelsFound]
    refine ⟨List.nodup_append.mpr ⟨?_, nodup', ?_⟩, List.pairwise_append.mpr ⟨?_, sorted, ?_⟩, ?_⟩
    · rw [here]
      exact nodup.sublist (List.filter_sublist.map _)
    · rintro xs listed _ listed' rfl
      exact absurd (same xs listed) (Nat.ne_of_gt (deep xs listed'))
    · exact List.pairwise_of_forall_mem_list fun xs listed ys listed' =>
        Nat.le_of_eq ((same xs listed).trans (same ys listed').symm)
    · exact fun xs listed ys listed' => same xs listed ▸ Nat.le_of_lt (deep ys listed')
    · intro xs listed
      rcases List.mem_append.mp listed with listed | listed
      · rw [same xs listed]
        exact Nat.lt_succ_self depth
      · exact Nat.lt_of_succ_lt (deep xs listed)

end Found

/-! ### Members -/

def Segment.isLiteral : Segment → Bool
  | .literal _ => true
  | _ => false

def literalPrefix (segs : List Segment) : List JsString :=
  (segs.takeWhile Segment.isLiteral).map Segment.text

theorem leads_literals {lits : List Segment} (literal : ∀ seg ∈ lits, seg.isLiteral = true) :
    Leads walking (lits ++ segs) names ↔ ∃ xs, names = lits.map Segment.text ++ xs ∧
      Leads walking segs xs := by
  induction lits generalizing names with
  | nil => exact ⟨fun h => ⟨names, rfl, h⟩, fun ⟨_, same, h⟩ => same ▸ h⟩
  | cons seg lits ih =>
    obtain ⟨first, later⟩ := List.forall_mem_cons.mp literal
    cases seg with
    | globstar => cases first
    | wild => cases first
    | literal text =>
      constructor
      · intro leads
        cases leads with
        | one _ takes leads =>
          obtain ⟨xs, rfl, h⟩ := (ih later).mp leads
          exact ⟨xs, congrArg (· :: _) takes.symm, h⟩
      · rintro ⟨xs, rfl, h⟩
        exact .one nofun rfl ((ih later).mpr ⟨xs, rfl, h⟩)

theorem findIdx_wildcard (segs : List Segment) : (compiled segs).findIdx? (·.wildcard) =
    if segs.dropWhile Segment.isLiteral = [] then none
    else some (segs.takeWhile Segment.isLiteral).length := by
  induction segs with
  | nil => rfl
  | cons seg segs ih =>
    rw [compiled, List.map_cons, List.findIdx?_cons, ih]
    cases seg with
    | globstar => rfl
    | wild g => rfl
    | literal text =>
      rw [List.dropWhile_cons_of_pos rfl, List.takeWhile_cons_of_pos rfl,
        show (Segment.literal text).compiled.wildcard = false from rfl, if_neg Bool.false_ne_true]
      split <;> rfl

def Name (s : JsString) : Prop := s ≠ [] ∧ s ≠ utf16 "." ∧ codeUnit '/' ∉ s

theorem segmentsOf_names (path : JsString) : ∀ s ∈ segmentsOf path, Name s := by
  intro s listed
  obtain ⟨split_, kept⟩ := List.mem_filter.mp listed
  obtain ⟨some_, other⟩ := of_decide_eq_true kept
  exact ⟨some_, other, Lines.not_mem_of_mem_splitOn split_⟩

theorem segmentsOf_pathOf (all : ∀ s ∈ names, Name s) : segmentsOf (pathOf names) = names := by
  rw [pathOf]
  split
  · next empty => rw [empty]; decide
  · next some_ =>
    rw [segmentsOf, List.splitOn_intercalate _ (fun s listed => (all s listed).2.2) some_]
    exact List.filter_eq_self.mpr fun s listed => decide_eq_true ⟨(all s listed).1, (all s listed).2.1⟩

/-- What the folders found are: of the folder of the literal names alone it is not seen whether it
exists. -/
structure Expands (tree : DirectoryTree) (segs : List Segment) (out : List JsString) : Prop where
  mem : ∀ names, names ∈ out.map segmentsOf ↔ Leads true segs names ∧
    names.length ≤ (literalPrefix segs).length + (GLOBSTAR_MAX_DEPTH + 1) ∧
      (tree.Folder names ∨ names = literalPrefix segs)
  nodup : (out.map segmentsOf).Nodup
  nearer : (out.map segmentsOf).Pairwise fun a b => a.length ≤ b.length

section Members

variable {tree : DirectoryTree} {pattern : JsString}

theorem leads_prefix : Leads walking segs names ↔ ∃ xs, names = literalPrefix segs ++ xs ∧
    Leads walking (segs.drop (segs.takeWhile Segment.isLiteral).length) xs := by
  have literal : ∀ seg ∈ segs.takeWhile Segment.isLiteral, seg.isLiteral = true :=
    fun seg listed => List.mem_takeWhile_imp listed
  have behind := congrArg (List.drop (segs.takeWhile Segment.isLiteral).length)
    (List.takeWhile_append_dropWhile (p := Segment.isLiteral) (l := segs))
  rw [List.drop_left] at behind
  rw [← behind, literalPrefix, ← leads_literals literal, List.takeWhile_append_dropWhile]

theorem expands_literal (written : segmentsOf (normPattern pattern) = segs.map Segment.text)
    (none_ : segs.dropWhile Segment.isLiteral = []) : Expands tree segs [normPattern pattern] := by
  have all : segs.takeWhile Segment.isLiteral = segs := by
    have whole := List.takeWhile_append_dropWhile (p := Segment.isLiteral) (l := segs)
    rwa [none_, List.append_nil] at whole
  have texts : segmentsOf (normPattern pattern) = literalPrefix segs := by rw [literalPrefix, all, written]
  have single :
      [normPattern pattern].map segmentsOf = [literalPrefix segs] := by rw [List.map_singleton, texts]
  refine ⟨fun names => ?_, single ▸ List.nodup_singleton _, single ▸ List.pairwise_singleton _ _⟩
  rw [single, List.mem_singleton, leads_prefix, all, List.drop_length]
  constructor
  · rintro rfl
    exact ⟨⟨[], (List.append_nil _).symm, .nil⟩, Nat.le_add_right _ _, .inr rfl⟩
  · rintro ⟨⟨xs, rfl, leads⟩, -⟩
    cases leads
    exact List.append_nil _

theorem chain_names {rel : List JsString} (chain : Chain tree.entries rel names) : ∀ s ∈ names, Name s := by
  induction names generalizing rel with
  | nil => exact nofun
  | cons name names ih =>
    obtain ⟨⟨listing, there, listed⟩, below⟩ := chain
    exact List.forall_mem_cons.mpr ⟨tree.named rel listing there _ listed, ih below⟩

/-- Below a folder that can be listed, the folders are those that the walk comes through. -/
theorem folder_below {base xs : List JsString} (some_ : xs ≠ []) :
    tree.Folder (base ++ xs) ↔ Chain tree.entries base xs := by
  rw [DirectoryTree.Folder, chain_append, List.nil_append, and_iff_right_iff_imp]
  intro chain
  cases xs with
  | nil => exact absurd rfl some_
  | cons name xs =>
    obtain ⟨⟨listing, there, -⟩, -⟩ := chain
    exact tree.folders base listing there

theorem expands_walk {w : Walk} {start : Finset Nat}
    (written : segmentsOf (normPattern pattern) = segs.map Segment.text)
    (proper : ∀ seg ∈ segs, seg.Proper)
    (is : start = globClosure (compiled segs) {(segs.takeWhile Segment.isLiteral).length})
    (out : w.out = (if segs.length ∈ start then [literalPrefix segs] else []) ++
      levelsFound tree (compiled segs) (GLOBSTAR_MAX_DEPTH + 1) [⟨literalPrefix segs, start⟩]) :
    Expands tree segs (w.out.map pathOf) := by
  have short : ∀ i ∈ ({(segs.takeWhile Segment.isLiteral).length} : Finset Nat), i ≤ segs.length :=
    fun i listed => by
    rw [Finset.mem_singleton.mp listed]
    exact (List.takeWhile_sublist _).length_le
  have takes (xs : List JsString) : segs.length ∈ run (compiled segs) true start xs ↔
      Leads true (segs.drop (segs.takeWhile Segment.isLiteral).length) xs := by
    rw [is, mem_run (globClosure_closed short) proper, leads_globClosure]
    simp
  have found_ (names : List JsString) : names ∈ w.out ↔ Leads true segs names ∧
      names.length ≤ (literalPrefix segs).length + (GLOBSTAR_MAX_DEPTH + 1) ∧
        (tree.Folder names ∨ names = literalPrefix segs) := by
    rw [out, List.mem_append, mem_levelsFound, leads_prefix]
    constructor
    · rintro (base | ⟨item, among, xs, some_, short, rfl, chain, taken⟩)
      · obtain ⟨taken, rfl⟩ : segs.length ∈ start ∧ names = literalPrefix segs := by
          split at base
          · next taken => exact ⟨taken, List.mem_singleton.mp base⟩
          · cases base
        exact ⟨⟨[], (List.append_nil _).symm, (takes []).mp taken⟩, Nat.le_add_right _ _, .inr rfl⟩
      · obtain rfl := List.mem_singleton.mp among
        rw [List.length_append]
        rw [List.length_map] at taken
        exact ⟨⟨xs, rfl, (takes xs).mp taken⟩, Nat.add_le_add_left short _,
          .inl ((folder_below some_).mpr chain)⟩
    · rintro ⟨⟨xs, rfl, leads⟩, short, folder⟩
      have taken := (takes xs).mpr leads
      rw [List.length_append] at short
      by_cases none_ : xs = []
      · subst none_
        left
        have taken : segs.length ∈ start := taken
        rw [if_pos taken, List.append_nil]
        exact List.mem_singleton_self _
      · right
        refine ⟨_, List.mem_singleton_self _, xs, none_, Nat.le_of_add_le_add_left short, rfl, ?_, ?_⟩
        · exact (folder_below none_).mp (folder.resolve_right fun same =>
            none_ (List.append_right_eq_self.mp same))
        · rw [List.length_map]
          exact taken
  have same : (w.out.map pathOf).map segmentsOf = w.out := by
    rw [List.map_map]
    refine (List.map_congr_left fun names listed => segmentsOf_pathOf ?_).trans (List.map_id _)
    obtain ⟨leads, -, folder⟩ := (found_ names).mp listed
    rcases folder with chain | rfl
    · exact chain_names chain
    · intro s listed
      obtain ⟨seg, among, rfl⟩ := List.mem_map.mp listed
      refine segmentsOf_names (normPattern pattern) _ ?_
      rw [written]
      exact List.mem_map_of_mem ((List.takeWhile_sublist _).mem among)
  have lengths :
      ∀ item ∈ [(⟨literalPrefix segs, start⟩ : Item)], item.rel.length = (literalPrefix segs).length :=
    List.forall_mem_singleton.mpr rfl
  obtain ⟨nodup, sorted, deeper⟩ :=
    levelsFound_sorted tree (compiled segs) (GLOBSTAR_MAX_DEPTH + 1) lengths (List.nodup_singleton _)
  refine ⟨fun names => by rw [same, found_], ?_, ?_⟩
  · rw [same, out]
    split
    · refine List.nodup_cons.mpr ⟨fun listed => ?_, nodup⟩
      exact Nat.lt_irrefl _ (deeper _ listed)
    · exact nodup
  · rw [same, out]
    split
    · exact List.pairwise_cons.mpr ⟨fun xs listed => Nat.le_of_lt (deeper xs listed), sorted⟩
    · exact sorted

/-- `expandWorkspaceGlob` returns the folders that the glob leads to, if its walk comes to an end. -/
theorem expandWorkspaceGlob_exact (stays : leavesProject (normPattern pattern) = false)
    (written : segmentsOf (normPattern pattern) = segs.map Segment.text) (proper : ∀ seg ∈ segs, seg.Proper)
    (within : (expandWorkspaceGlob tree pattern).2 = false) :
    Expands tree segs (expandWorkspaceGlob tree pattern).1 := by
  have texts : ((compiled segs).take (segs.takeWhile Segment.isLiteral).length).map (·.text) =
      literalPrefix segs := by
    have front := congrArg (List.take (segs.takeWhile Segment.isLiteral).length)
      (List.takeWhile_append_dropWhile (p := Segment.isLiteral) (l := segs))
    rw [List.take_left] at front
    rw [← List.map_take, List.map_map, ← front, literalPrefix]
    exact List.map_congr_left fun seg _ => by cases seg <;> rfl
  simp only [expandWorkspaceGlob, stays, compileGlob_eq written proper, findIdx_wildcard,
    Bool.false_eq_true, if_false] at within ⊢
  by_cases none_ : segs.dropWhile Segment.isLiteral = []
  · simp only [if_pos none_]
    exact expands_literal written none_
  · simp only [if_neg none_, texts, List.length_map] at within ⊢
    exact expands_walk written proper rfl (walkLevels_eq within)

/-- Both sides take a glob for what it means, but the walk does not look for the folder it begins with. -/
theorem workspaceGlobs_exact (written : segmentsOf (normPattern pattern) = segs.map Segment.text)
    (proper : ∀ seg ∈ segs, seg.Proper) :
    (∀ dir, workspaceGlobMatches pattern dir = true ↔ Leads false segs (segmentsOf dir)) ∧
      ∀ tree, leavesProject (normPattern pattern) = false → (expandWorkspaceGlob tree pattern).2 = false →
        Expands tree segs (expandWorkspaceGlob tree pattern).1 :=
  ⟨workspaceGlobMatches_iff written proper, fun _ stays within =>
    expandWorkspaceGlob_exact stays written proper within⟩

/-- A project whose one folder is `apps`. -/
def appsTree : DirectoryTree where
  entries rel :=
    if rel = [] then some [⟨utf16 "apps", true⟩] else if rel = [utf16 "apps"] then some [] else none
  distinct rel listing there := by
    split at there
    · cases there
      decide
    · obtain ⟨-, is⟩ := Option.ite_none_right_eq_some.mp there
      cases is
      decide
  named rel listing there := by
    split at there
    · cases there
      decide
    · obtain ⟨-, is⟩ := Option.ite_none_right_eq_some.mp there
      cases is
      exact nofun
  folders rel listing there := by
    split at there
    · next root =>
      subst root
      trivial
    · obtain ⟨rfl, -⟩ := Option.ite_none_right_eq_some.mp there
      exact ⟨⟨_, rfl, List.mem_singleton_self _⟩, trivial⟩

def appsGlob : List Segment :=
  [.wild (.choice [] [.unit (codeUnit 'a')] [[.unit (codeUnit 'b')]] (.plain [.many])), .globstar]

theorem workspaceGlobs_exact_apps :
    workspaceGlobMatches (utf16 "\x7ba,b\x7d*/**") (utf16 "apps/web") = true ∧
    Expands appsTree appsGlob (expandWorkspaceGlob appsTree (utf16 "\x7ba,b\x7d*/**")).1 := by
  have letter (u : UInt16) (plain : u ∉ INSIDE) : ∀ t ∈ [Term.unit u], t.Proper INSIDE :=
    List.forall_mem_singleton.mpr fun v is => by rwa [← Term.unit.inj is]
  have proper : ∀ seg ∈ appsGlob, seg.Proper := by
    refine List.forall_mem_cons.mpr ⟨⟨⟨nofun, ?_, ?_⟩, by decide, LBRACE, by decide, by decide⟩, ?_⟩
    · exact List.forall_mem_cons.mpr ⟨letter _ (by decide),
        List.forall_mem_singleton.mpr (letter _ (by decide))⟩
    · exact List.forall_mem_singleton.mpr nofun
    · exact List.forall_mem_singleton.mpr trivial
  have written : segmentsOf (normPattern (utf16 "\x7ba,b\x7d*/**")) = appsGlob.map Segment.text := by decide
  have both := workspaceGlobs_exact written proper
  exact ⟨by decide, both.2 appsTree (by decide) (by decide)⟩

/-- The folder before a `**` is returned where there is none. -/
theorem expandWorkspaceGlob_absent : ¬∀ names,
    names ∈ (expandWorkspaceGlob appsTree (utf16 "tools/**")).1.map segmentsOf ↔
      Leads true [.literal (utf16 "tools"), .globstar] names ∧ names.length ≤ 1 + (GLOBSTAR_MAX_DEPTH + 1) ∧
        appsTree.Folder names := by
  intro exact_
  obtain ⟨-, -, ⟨listing, there, listed⟩, -⟩ := (exact_ [utf16 "tools"]).mp (by decide)
  cases there
  revert listed
  decide

end Members

end CodeGraph.Resolution.WorkspaceGlobs
