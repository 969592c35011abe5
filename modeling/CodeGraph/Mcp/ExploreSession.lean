import CodeGraph.Foundation.InsertionMap
import CodeGraph.Foundation.Text
import CodeGraph.Mcp.LineRanges

/-!
# What a session has been sent

The record of a session's explore calls (`mcp/explore-session-state.ts`) and the lines a later call
withholds because of it (`mcp/explore-dedup.ts`).
-/
namespace CodeGraph.Mcp.Explore

open Text InsertionMap

structure ExploreFileEmission where
  path : JsString
  ranges : List ExploreLineRange
  bytes : Int
  fingerprint : Option JsString
  rangesTruncated : Bool
  deriving DecidableEq

structure ExploreEmission where
  projectRoot : JsString
  query : JsString
  files : List ExploreFileEmission
  sourceBytes : Int
  responseBytes : Int
  deriving DecidableEq

structure ExploreCallRecord extends ExploreEmission where
  index : Nat
  deriving DecidableEq

structure ExploreProjectState where
  projectRoot : JsString
  callCount : Nat
  responseBytes : Int
  calls : List ExploreCallRecord
  deriving DecidableEq

def MAX_PROJECTS : Nat := 4
def MAX_CALLS_RETAINED : Nat := 8
def MAX_FILES_PER_CALL : Nat := 24
def MAX_RANGES_PER_FILE : Nat := 24
def MAX_VIEW_CALLS : Nat := 4

structure Platform where
  resolve : JsString → JsString
  toLowerCase : JsString → JsString
  /-- The platform is `win32` or `darwin`. -/
  foldsCase : Bool

variable (platform : Platform)

def exploreProjectKey (projectRoot : JsString) : JsString :=
  let resolved := platform.resolve projectRoot
  if platform.foldsCase then platform.toLowerCase resolved else resolved

/-! ### Recording -/

/-- The order of `(b.end - b.start) - (a.end - a.start) || a.start - b.start`. -/
def largerFirst (a b : ExploreLineRange) : Prop :=
  b.end - b.start < a.end - a.start ∨ b.end - b.start = a.end - a.start ∧ a.start ≤ b.start

instance : DecidableRel largerFirst := fun _ _ => inferInstanceAs (Decidable (_ ∨ _ ∧ _))

def coalesceRanges (ranges : List ExploreLineRange) (limit : Nat) : List ExploreLineRange × Bool :=
  let merged := mergeRanges ranges
  if merged.length ≤ limit then (merged, false)
  else
    (((merged.insertionSort largerFirst).take limit).insertionSort fun a b => a.start ≤ b.start,
      true)

def boundFile (f : ExploreFileEmission) : ExploreFileEmission :=
  let (ranges, truncated) := coalesceRanges f.ranges MAX_RANGES_PER_FILE
  { path := f.path
    ranges
    bytes := max 0 f.bytes
    fingerprint := f.fingerprint.filter (· ≠ [])
    rangesTruncated := truncated }

def boundFiles (files : List ExploreFileEmission) : List ExploreFileEmission :=
  let normalized := (files.filter (·.path ≠ [])).map boundFile
  if normalized.length ≤ MAX_FILES_PER_CALL then normalized
  else (normalized.insertionSort fun a b => b.bytes ≤ a.bytes).take MAX_FILES_PER_CALL

/-- `projects` by their keys, the least recently used first. -/
structure ExploreSessionState where
  projects : List (JsString × ExploreProjectState)

def touch (s : ExploreSessionState) (key projectRoot : JsString) :
    ExploreProjectState × ExploreSessionState :=
  match lookup s.projects key with
  | some existing => (existing, ⟨unassign s.projects key ++ [(key, existing)]⟩)
  | none =>
    let created : ExploreProjectState := ⟨projectRoot, 0, 0, []⟩
    let projects := s.projects ++ [(key, created)]
    (created, ⟨projects.drop (projects.length - MAX_PROJECTS)⟩)

def addCall (state : ExploreProjectState) (emission : ExploreEmission) :
    ExploreProjectState × ExploreCallRecord :=
  let callCount := state.callCount + 1
  let record : ExploreCallRecord :=
    { index := callCount
      projectRoot := emission.projectRoot
      query := emission.query
      files := boundFiles emission.files
      sourceBytes := max 0 emission.sourceBytes
      responseBytes := max 0 emission.responseBytes }
  let calls := state.calls ++ [record]
  ({ state with
      callCount
      responseBytes := state.responseBytes + max 0 emission.responseBytes
      calls := calls.drop (calls.length - MAX_CALLS_RETAINED) }, record)

def record (s : ExploreSessionState) (emission : ExploreEmission) :
    ExploreSessionState × Option ExploreCallRecord :=
  if emission.projectRoot = [] then (s, none)
  else
    let key := exploreProjectKey platform emission.projectRoot
    let (state, touched) := touch s key emission.projectRoot
    let (state, call) := addCall state emission
    -- the state is the object that the map holds under the key
    (⟨touched.projects.map fun e => if e.1 = key then (key, state) else e⟩, some call)

def forProject (s : ExploreSessionState) (projectRoot : JsString) : Option ExploreProjectState :=
  lookup s.projects (exploreProjectKey platform projectRoot)

structure ExploreSessionView where
  projects : List ExploreProjectState

def view (s : ExploreSessionState) : ExploreSessionView :=
  ⟨s.projects.map fun e =>
    { e.2 with calls := e.2.calls.drop (e.2.calls.length - MAX_VIEW_CALLS) }⟩

def viewForProject (view : Option ExploreSessionView) (projectRoot : JsString) :
    Option ExploreProjectState :=
  view.map fun view =>
    let key := exploreProjectKey platform projectRoot
    (view.projects.find? fun p => exploreProjectKey platform p.projectRoot = key).getD
      ⟨projectRoot, 0, 0, []⟩

def servedRangesForFile (prior : Option ExploreProjectState) (filePath fingerprint : JsString) :
    List ExploreLineRange :=
  match prior with
  | none => []
  | some prior =>
    mergeRanges <| (prior.calls.flatMap (·.files)).flatMap fun file =>
      if file.path ≠ filePath then []
      else if file.fingerprint.filter (· ≠ []) ≠ some fingerprint then []
      else file.ranges

def session (emissions : List ExploreEmission) : ExploreSessionState :=
  emissions.foldl (fun s e => (record platform s e).1) ⟨[]⟩

/-! ### What is remembered has been served -/

def ServedBy (emissions : List ExploreEmission) (key path fingerprint : JsString) (line : Int) :
    Prop :=
  ∃ e ∈ emissions, e.projectRoot ≠ [] ∧ exploreProjectKey platform e.projectRoot = key ∧
    ∃ f ∈ e.files, f.path = path ∧ f.fingerprint = some fingerprint ∧ Lines f.ranges line

def CallsServed (emissions : List ExploreEmission) (key : JsString)
    (calls : List ExploreCallRecord) : Prop :=
  ∀ call ∈ calls, ∀ f ∈ call.files, ∀ fingerprint, f.fingerprint = some fingerprint →
    ∀ line, Lines f.ranges line → ServedBy platform emissions key f.path fingerprint line

def Remembers (emissions : List ExploreEmission) (s : ExploreSessionState) : Prop :=
  ∀ e ∈ s.projects, exploreProjectKey platform e.2.projectRoot = e.1 ∧
    CallsServed platform emissions e.1 e.2.calls

theorem coalesceRanges_sub (ranges : List ExploreLineRange) (limit : Nat) :
    ∀ r ∈ (coalesceRanges ranges limit).1, r ∈ mergeRanges ranges := by
  intro r kept
  simp only [coalesceRanges] at kept
  split at kept
  · exact kept
  · have largest := (List.perm_insertionSort _ _).mem_iff.mp kept
    exact (List.perm_insertionSort _ _).mem_iff.mp (List.mem_of_mem_take largest)

theorem lines_coalesceRanges {ranges : List ExploreLineRange} {limit : Nat} {line : Int}
    (kept : Lines (coalesceRanges ranges limit).1 line) : Lines ranges line := by
  obtain ⟨r, listed, inside⟩ := kept
  obtain ⟨s, given, -, within⟩ :=
    (lines_mergeRanges ranges line).mp ⟨r, coalesceRanges_sub ranges limit r listed, inside⟩
  exact ⟨s, given, within⟩

theorem mem_boundFiles {files : List ExploreFileEmission} {f : ExploreFileEmission}
    (kept : f ∈ boundFiles files) : ∃ g ∈ files, g.path ≠ [] ∧ boundFile g = f := by
  have normalized : f ∈ (files.filter (·.path ≠ [])).map boundFile := by
    simp only [boundFiles] at kept
    split at kept
    · exact kept
    · exact (List.perm_insertionSort _ _).mem_iff.mp (List.mem_of_mem_take kept)
  obtain ⟨g, listed, rfl⟩ := List.mem_map.mp normalized
  obtain ⟨given, named⟩ := List.mem_filter.mp listed
  exact ⟨g, given, of_decide_eq_true named, rfl⟩

variable {platform} {emissions : List ExploreEmission} {s : ExploreSessionState}

theorem ServedBy.later {e : ExploreEmission} {key path fingerprint : JsString} {line : Int}
    (served : ServedBy platform emissions key path fingerprint line) :
    ServedBy platform (emissions ++ [e]) key path fingerprint line := by
  obtain ⟨earlier, listed, of_call⟩ := served
  exact ⟨earlier, List.mem_append_left [e] listed, of_call⟩

theorem CallsServed.later {e : ExploreEmission} {key : JsString} {calls : List ExploreCallRecord}
    (served : CallsServed platform emissions key calls) :
    CallsServed platform (emissions ++ [e]) key calls :=
  fun call listed f kept fingerprint same line inside =>
    (served call listed f kept fingerprint same line inside).later

private theorem callsServed_addCall {e : ExploreEmission} {state : ExploreProjectState}
    (there : e.projectRoot ≠ [])
    (served : CallsServed platform emissions (exploreProjectKey platform e.projectRoot)
      state.calls) :
    CallsServed platform (emissions ++ [e]) (exploreProjectKey platform e.projectRoot)
      (addCall state e).1.calls := by
  intro call listed f kept fingerprint same line inside
  rcases mem_snoc.mp (List.mem_of_mem_drop listed) with old | new
  · exact served.later call old f kept fingerprint same line inside
  · cases new
    obtain ⟨g, given, -, rfl⟩ := mem_boundFiles kept
    obtain ⟨stored, -⟩ := Option.filter_eq_some_iff.mp same
    exact ⟨e, List.mem_append_right emissions (List.mem_singleton_self e), there, rfl, g, given,
      rfl, stored, lines_coalesceRanges inside⟩

private theorem touch_remembers (remembers : Remembers platform emissions s) (root : JsString) :
    let (state, touched) := touch s (exploreProjectKey platform root) root
    Remembers platform emissions touched ∧
      exploreProjectKey platform state.projectRoot = exploreProjectKey platform root ∧
      CallsServed platform emissions (exploreProjectKey platform root) state.calls := by
  unfold touch
  cases found : lookup s.projects (exploreProjectKey platform root) with
  | some existing =>
    have known := remembers _ (mem_of_lookup found)
    refine ⟨fun e listed => ?_, known⟩
    rcases mem_snoc.mp listed with old | moved
    · exact remembers e (mem_unassign.mp old).1
    · cases moved
      exact known
  | none =>
    have empty : CallsServed platform emissions (exploreProjectKey platform root) [] :=
      fun _ none_ => nomatch none_
    refine ⟨fun e listed => ?_, rfl, empty⟩
    rcases mem_snoc.mp (List.mem_of_mem_drop listed) with old | created
    · exact remembers e old
    · cases created
      exact ⟨rfl, empty⟩

theorem record_remembers (remembers : Remembers platform emissions s) (e : ExploreEmission) :
    Remembers platform (emissions ++ [e]) (record platform s e).1 := by
  simp only [record]
  split
  · exact fun entry listed => ⟨(remembers entry listed).1, (remembers entry listed).2.later⟩
  next there =>
  obtain ⟨kept, key, served⟩ := touch_remembers remembers e.projectRoot
  intro entry listed
  obtain ⟨old, member, rfl⟩ := List.mem_map.mp listed
  split
  · exact ⟨key, callsServed_addCall there served⟩
  · exact ⟨(kept old member).1, (kept old member).2.later⟩

theorem session_remembers (emissions : List ExploreEmission) :
    Remembers platform emissions (session platform emissions) := by
  suffices kept : ∀ earlier s, Remembers platform earlier s →
      Remembers platform (earlier ++ emissions)
        (emissions.foldl (fun s e => (record platform s e).1) s) from
    kept [] ⟨[]⟩ fun _ none_ => nomatch none_
  induction emissions with
  | nil =>
    intro earlier s remembers
    rwa [List.append_nil]
  | cons e emissions ih =>
    intro earlier s remembers
    have later := ih (earlier ++ [e]) _ (record_remembers remembers e)
    rwa [List.append_assoc] at later

theorem lines_servedRangesForFile {prior : ExploreProjectState} {key path fingerprint : JsString}
    (served : CallsServed platform emissions key prior.calls) {line : Int}
    (held : Lines (servedRangesForFile (some prior) path fingerprint) line) :
    ServedBy platform emissions key path fingerprint line := by
  obtain ⟨r, listed, -, inside⟩ := (lines_mergeRanges _ line).mp held
  obtain ⟨file, member, chosen⟩ := List.mem_flatMap.mp listed
  obtain ⟨call, of_call, kept⟩ := List.mem_flatMap.mp member
  split at chosen
  · cases chosen
  next same_path =>
  split at chosen
  · cases chosen
  next same_bytes =>
  obtain ⟨stored, -⟩ := Option.filter_eq_some_iff.mp (not_not.mp same_bytes)
  have lines := served call of_call file kept fingerprint stored line ⟨r, chosen, inside⟩
  rwa [not_not.mp same_path] at lines

private theorem forProject_served {root : JsString} {prior : ExploreProjectState}
    (remembers : Remembers platform emissions s) (found : forProject platform s root = some prior) :
    CallsServed platform emissions (exploreProjectKey platform root) prior.calls :=
  (remembers _ (mem_of_lookup found)).2

private theorem viewForProject_served {root : JsString} {prior : ExploreProjectState}
    (remembers : Remembers platform emissions s)
    (found : viewForProject platform (some (view s)) root = some prior) :
    CallsServed platform emissions (exploreProjectKey platform root) prior.calls := by
  simp only [viewForProject, Option.map_some, Option.some.injEq] at found
  subst found
  cases first : (view s).projects.find? fun p =>
      exploreProjectKey platform p.projectRoot = exploreProjectKey platform root with
  | none => exact fun _ none_ => nomatch none_
  | some p =>
    have same_key : exploreProjectKey platform p.projectRoot = exploreProjectKey platform root := by
      simpa using List.find?_some first
    obtain ⟨e, listed, rfl⟩ := List.mem_map.mp (List.mem_of_find?_eq_some first)
    obtain ⟨key, served⟩ := remembers e listed
    intro call recent
    rw [← same_key, key]
    exact served call (List.mem_of_mem_drop recent)

def WithheldServed (platform : Platform) (emissions : List ExploreEmission)
    (prior : Option ExploreProjectState) (root path fingerprint : JsString)
    (span : ExploreLineRange) (minCovered : Int) : Prop :=
  let split := dedupeRange span (servedRangesForFile prior path fingerprint) minCovered
  (∀ line, Lines split.covered line → Inside span line ∧
    ServedBy platform emissions (exploreProjectKey platform root) path fingerprint line) ∧
  (span.start ≤ span.end → Splits span minCovered split)

private theorem withheld_served {prior : Option ExploreProjectState} {root : JsString}
    (served : ∀ state, prior = some state →
      CallsServed platform emissions (exploreProjectKey platform root) state.calls)
    (path fingerprint : JsString) (span : ExploreLineRange) (minCovered : Int) :
    WithheldServed platform emissions prior root path fingerprint span minCovered := by
  refine ⟨fun line covered => ?_, fun filled => dedupeRange_splits filled _ minCovered⟩
  obtain ⟨within, held⟩ := lines_covered covered
  cases prior with
  | none => exact absurd held (lines_nil line)
  | some state => exact ⟨within, lines_servedRangesForFile (served state rfl) held⟩

/-- A call withholds only lines that a recorded call on the project served for that path out of
those bytes, and the rest of a span is emitted. -/
theorem dedup_withholds_served (platform : Platform) (emissions : List ExploreEmission)
    (root path fingerprint : JsString) (span : ExploreLineRange) (minCovered : Int) :
    WithheldServed platform emissions (forProject platform (session platform emissions) root) root
        path fingerprint span minCovered ∧
      WithheldServed platform emissions
        (viewForProject platform (some (view (session platform emissions))) root) root
        path fingerprint span minCovered :=
  ⟨withheld_served (fun _ => forProject_served (session_remembers emissions)) _ _ _ _,
    withheld_served (fun _ => viewForProject_served (session_remembers emissions)) _ _ _ _⟩

/-! ### What is kept -/

/-- The keys of the calls that were recorded, in their order. -/
def keysUsed (platform : Platform) (emissions : List ExploreEmission) : List JsString :=
  (emissions.filter (·.projectRoot ≠ [])).map fun e => exploreProjectKey platform e.projectRoot

/-- The last calls on a project under consecutive indexes, with no more of each than is allowed. -/
structure Bounded (state : ExploreProjectState) : Prop where
  recent : state.calls.map (·.index) = (List.range' 1 state.callCount).rtake MAX_CALLS_RETAINED
  files : ∀ call ∈ state.calls, call.files.length ≤ MAX_FILES_PER_CALL
  ranges : ∀ call ∈ state.calls, ∀ f ∈ call.files,
    f.path ≠ [] ∧ f.ranges.length ≤ MAX_RANGES_PER_FILE ∧ 0 ≤ f.bytes

variable {state : ExploreProjectState}

theorem coalesceRanges_length (ranges : List ExploreLineRange) (limit : Nat) :
    (coalesceRanges ranges limit).1.length ≤ limit := by
  simp only [coalesceRanges]
  split
  · assumption
  · rw [List.length_insertionSort]
    exact List.length_take_le _ _

theorem boundFiles_length (files : List ExploreFileEmission) :
    (boundFiles files).length ≤ MAX_FILES_PER_CALL := by
  simp only [boundFiles]
  split
  · assumption
  · exact List.length_take_le _ _

theorem Bounded.addCall (bounded : Bounded state) (e : ExploreEmission) :
    Bounded (addCall state e).1 := by
  have either (call) (listed : call ∈ (Explore.addCall state e).1.calls) :
      call ∈ state.calls ∨ call.files = boundFiles e.files :=
    (mem_snoc.mp (List.mem_of_mem_drop listed)).imp_right fun is => congrArg (·.files) is
  refine ⟨?_, fun call listed => ?_, fun call listed f kept => ?_⟩
  · have last := map_rtake (·.index) (state.calls ++ [(Explore.addCall state e).2]) MAX_CALLS_RETAINED
    rw [List.map_append, bounded.recent] at last
    refine last.trans ((rtake_grown _ _ _).trans ?_)
    have counted : (Explore.addCall state e).1.callCount = state.callCount + 1 := rfl
    rw [counted, List.range'_1_concat, Nat.add_comm 1]
    rfl
  · rcases either call listed with old | new
    · exact bounded.files call old
    · rw [new]
      exact boundFiles_length e.files
  · rcases either call listed with old | new
    · exact bounded.ranges call old f kept
    · rw [new] at kept
      obtain ⟨g, -, named, rfl⟩ := mem_boundFiles kept
      exact ⟨named, coalesceRanges_length g.ranges _, le_max_left 0 g.bytes⟩

theorem touch_keys (key root : JsString) (few : s.projects.length ≤ MAX_PROJECTS) :
    (touch s key root).2.projects.map Prod.fst =
      ((s.projects.map Prod.fst).filter (· ≠ key) ++ [key]).rtake MAX_PROJECTS := by
  have moved (j : ExploreProjectState) :
      (unassign s.projects key ++ [(key, j)]).map Prod.fst =
        (s.projects.map Prod.fst).filter (· ≠ key) ++ [key] := by
    rw [List.map_append, unassign, List.filter_map]
    rfl
  unfold touch
  cases found : lookup s.projects key with
  | some existing =>
    have there : (key, existing) ∈ s.projects := mem_of_lookup found
    have fewer : (unassign s.projects key).length < s.projects.length :=
      List.length_filter_lt_length_iff_exists.mpr ⟨_, there, by simp⟩
    rw [← moved existing, ← map_rtake, List.rtake, List.length_append, List.length_singleton,
      Nat.sub_eq_zero_of_le (by omega), List.drop_zero]
  | none =>
    rw [← moved ⟨root, 0, 0, []⟩, unassign_absent (lookup_none.mp found), ← map_rtake]
    rfl

theorem touch_bounded (bounded : ∀ e ∈ s.projects, Bounded e.2) (key root : JsString) :
    Bounded (touch s key root).1 ∧ ∀ e ∈ (touch s key root).2.projects, Bounded e.2 := by
  have new : Bounded ⟨root, 0, 0, []⟩ := ⟨rfl, List.forall_mem_nil _, List.forall_mem_nil _⟩
  unfold touch
  cases found : lookup s.projects key with
  | some existing =>
    have old := bounded _ (mem_of_lookup found)
    exact ⟨old, forall_snoc (fun e listed => bounded e (mem_unassign.mp listed).1) old⟩
  | none => exact ⟨new, fun e listed => forall_snoc bounded new e (List.mem_of_mem_drop listed)⟩

/-- The projects are the ones used last, the least recently used first. -/
def Keeps (used : List JsString) (s : ExploreSessionState) : Prop :=
  s.projects.map Prod.fst = used.dedup.rtake MAX_PROJECTS ∧ ∀ e ∈ s.projects, Bounded e.2

theorem record_keeps {used : List JsString} (keeps : Keeps used s) {e : ExploreEmission}
    (named : e.projectRoot ≠ []) :
    Keeps (used ++ [exploreProjectKey platform e.projectRoot]) (record platform s e).1 := by
  obtain ⟨keys, bounded⟩ := keeps
  have few : s.projects.length ≤ MAX_PROJECTS := by
    rw [← List.length_map Prod.fst, keys, List.rtake, List.length_drop]
    omega
  obtain ⟨touched, others⟩ :=
    touch_bounded bounded (exploreProjectKey platform e.projectRoot) e.projectRoot
  simp only [record, if_neg named]
  constructor
  · have moved := touch_keys (exploreProjectKey platform e.projectRoot) e.projectRoot few
    rw [keys] at moved
    rw [List.map_map]
    refine (List.map_congr_left fun x _ => ?_).trans (moved.trans (rtake_used used _ 3))
    simp only [Function.comp]
    split
    · next same => exact same.symm
    · rfl
  · intro x listed
    obtain ⟨old, member, rfl⟩ := List.mem_map.mp listed
    split
    · exact touched.addCall e
    · exact others old member

theorem session_keeps (platform : Platform) (emissions : List ExploreEmission) :
    Keeps (keysUsed platform emissions) (session platform emissions) := by
  induction emissions using List.reverseRecOn with
  | nil => exact ⟨rfl, List.forall_mem_nil _⟩
  | append_singleton earlier e ih =>
    have ran : session platform (earlier ++ [e]) = (record platform (session platform earlier) e).1 :=
      List.foldl_append
    rw [ran]
    by_cases unnamed : e.projectRoot = []
    · have used : keysUsed platform (earlier ++ [e]) = keysUsed platform earlier := by
        simp [keysUsed, unnamed]
      rw [used, record, if_pos unnamed]
      exact ih
    · have used : keysUsed platform (earlier ++ [e]) =
          keysUsed platform earlier ++ [exploreProjectKey platform e.projectRoot] := by
        simp [keysUsed, unnamed]
      rw [used]
      exact record_keeps ih unnamed

end CodeGraph.Mcp.Explore
