import CodeGraph.Foundation.Lines
import CodeGraph.Foundation.Text

/-!
# Paths with slashes

Resolving a path against others and writing one path relative to another, as the paths of POSIX are.
-/
namespace CodeGraph.PosixPaths

open Text

abbrev slash : UInt16 := 0x2F

def here : JsString := utf16 "."

def up : JsString := utf16 ".."

def isAbsolute (path : JsString) : Bool := path.head? == some slash

def enter (segments : List JsString) (segment : JsString) : List JsString :=
  if segment = [] ∨ segment = here then segments
  else if segment = up then segments.dropLast
  else segments ++ [segment]

def joined (folder : JsString) (paths : List JsString) : JsString :=
  paths.foldl (fun whole path => if isAbsolute path then path else whole ++ slash :: path) folder

def segments (folder : JsString) (paths : List JsString) : List JsString :=
  ((joined folder paths).splitOn slash).foldl enter []

def join (listed : List JsString) : JsString := [slash].intercalate listed

/-- `path.resolve`, in the folder `cwd`. -/
def resolve (cwd : JsString) (paths : List JsString) : JsString := slash :: join (segments cwd paths)

def relativeSegments : List JsString → List JsString → List JsString
  | a :: source, b :: goal =>
    if a = b then relativeSegments source goal
    else (a :: source).map (fun _ => up) ++ b :: goal
  | source, goal => source.map (fun _ => up) ++ goal

/-- `path.relative`, in the folder `cwd`. -/
def relative (cwd source goal : JsString) : JsString :=
  join (relativeSegments (segments cwd [source]) (segments cwd [goal]))

structure Proper (segment : JsString) : Prop where
  nonempty : segment ≠ []
  other : segment ≠ here
  down : segment ≠ up
  plain : slash ∉ segment

theorem foldl_enter_proper {listed front : List JsString} (proper : ∀ s ∈ listed, Proper s) :
    listed.foldl enter front = front ++ listed := by
  induction listed generalizing front with
  | nil => simp
  | cons segment listed ih =>
    have first := proper segment List.mem_cons_self
    have entered : enter front segment = front ++ [segment] := by
      simp [enter, first.nonempty, first.other, first.down]
    rw [List.foldl_cons, entered, ih fun s member => proper s (List.mem_cons_of_mem segment member),
      List.append_assoc, List.singleton_append]

theorem segments_proper (folder : JsString) (paths : List JsString) :
    ∀ segment ∈ segments folder paths, Proper segment := by
  have entered : ∀ (listed front : List JsString), (∀ s ∈ listed, slash ∉ s) →
      (∀ s ∈ front, Proper s) → ∀ s ∈ listed.foldl enter front, Proper s := by
    intro listed
    induction listed with
    | nil => exact fun front _ proper => proper
    | cons segment listed ih =>
      intro front plain proper
      refine ih (enter front segment) (fun s member => plain s (List.mem_cons_of_mem segment member)) ?_
      intro s member
      unfold enter at member
      split at member
      · exact proper s member
      next kept =>
        split at member
        · exact proper s (List.dropLast_subset front member)
        next down =>
          rcases mem_snoc.mp member with old | new
          · exact proper s old
          · rw [new]
            exact ⟨fun none_ => kept (.inl none_), fun same => kept (.inr same), down,
              plain segment List.mem_cons_self⟩
  refine entered _ [] (fun s listed => ?_) fun _ none_ => nomatch none_
  exact Lines.not_mem_of_mem_splitOn listed

theorem segments_resolve (cwd folder : JsString) (paths : List JsString) :
    segments folder [resolve cwd paths] = segments cwd paths := by
  have proper := segments_proper cwd paths
  have start : joined folder [resolve cwd paths] = resolve cwd paths := rfl
  have cut : (resolve cwd paths).splitOn slash = [] :: (join (segments cwd paths)).splitOn slash := by
    have none_ : slash ∉ ([] : JsString) := List.not_mem_nil
    exact List.splitOn_append_cons_self_of_not_mem none_ _
  rw [segments, start, cut, List.foldl_cons]
  by_cases root : segments cwd paths = []
  · rw [root]
    rfl
  · rw [join, List.splitOn_intercalate slash (fun s listed => (proper s listed).plain) root]
    exact foldl_enter_proper proper

theorem takeWhile_join {segment : JsString} (rest : List JsString) (plain : slash ∉ segment) :
    (join (segment :: rest)).takeWhile (· != slash) = segment := by
  have kept : ∀ u ∈ segment, (u != slash) = true := by
    intro u listed
    rw [bne_iff_ne]
    rintro rfl
    exact plain listed
  cases rest with
  | nil => rw [join, List.intercalate_singleton, List.takeWhile_eq_self_iff.mpr kept]
  | cons next rest =>
    rw [join, List.intercalate_cons_cons, List.append_assoc, List.takeWhile_append_of_pos kept]
    simp

theorem relativeSegments_below {root path : List JsString} (rest : List JsString)
    (below : path = root ++ rest) : relativeSegments root path = rest := by
  subst below
  induction root with
  | nil => cases rest <;> simp [relativeSegments]
  | cons segment root ih => rw [List.cons_append, relativeSegments, if_pos rfl, ih]

theorem relativeSegments_of_not_prefix {root path : List JsString} (outside : ¬root <+: path) :
    ∃ rest, relativeSegments root path = up :: rest := by
  induction root generalizing path with
  | nil => exact absurd List.nil_prefix outside
  | cons a root ih =>
    cases path with
    | nil => exact ⟨root.map (fun _ => up), by simp [relativeSegments]⟩
    | cons b path =>
      rw [relativeSegments]
      split
      next same =>
        subst same
        exact ih fun below => outside (List.cons_prefix_cons.mpr ⟨rfl, below⟩)
      · exact ⟨_, rfl⟩

end CodeGraph.PosixPaths
