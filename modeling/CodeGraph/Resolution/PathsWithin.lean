import CodeGraph.Resolution.PathSegments

/-!
# Paths within the root

When a path that is resolved against the root is taken to stay below it, and what it is then called
relative to the root.
-/
namespace CodeGraph.Resolution.Paths

variable {p root rest : Str} {segs below : List Str}

/-! ### Trailing slashes -/

def Spelled (root : Str) : Prop := trimEnd root = [] ∨ trimEnd root = pos_normalize root

/-- The root is nothing but slashes, or has none at its end. -/
def Bare (root : Str) : Prop := trimEnd root = [] ∨ trimEnd root = root

instance (root : Str) : Decidable (Spelled root) := inferInstanceAs (Decidable (_ ∨ _))

instance (root : Str) : Decidable (Bare root) := inferInstanceAs (Decidable (_ ∨ _))

theorem trimEnd_concat (p : Str) : trimEnd (p ++ ['/']) = trimEnd p :=
  List.rdropWhile_concat_pos _ _ _ rfl

theorem foldl_trimEnd (p : Str) (folder : List Str) :
    ((trimEnd p).splitOn '/').foldl enter folder = (p.splitOn '/').foldl enter folder := by
  induction p using List.reverseRecOn with
  | nil => rfl
  | append_singleton p c ih =>
    by_cases slash : c = '/'
    · subst slash
      rw [trimEnd_concat, ih, Lines.splitOn_append_separator, List.foldl_append]
      rfl
    · have same : trimEnd (p ++ [c]) = p ++ [c] :=
        List.rdropWhile_concat_neg _ _ _ (by simpa using slash)
      rw [same]

theorem isAbsolute_trimEnd (is : isAbsolute root = true) (some_ : trimEnd root ≠ []) :
    isAbsolute (trimEnd root) = true := by
  obtain ⟨after, cut⟩ := List.rdropWhile_prefix (l := root) (p := fun c => c == '/')
  obtain ⟨c, front, trimmed⟩ := List.exists_cons_of_ne_nil some_
  rw [trimEnd] at trimmed
  rw [isAbsolute, ← cut, trimmed] at is
  rw [isAbsolute, trimEnd, trimmed]
  exact is

theorem location_trimEnd (is : isAbsolute root = true) (some_ : trimEnd root ≠ []) :
    location [] (trimEnd root) = location [] root := by
  rw [location, location, if_pos is, if_pos (isAbsolute_trimEnd is some_), foldl_trimEnd]

theorem trimEnd_written (proper : ∀ s ∈ segs, Proper s) (some_ : segs ≠ []) :
    trimEnd ('/' :: joined segs) = '/' :: joined segs := by
  obtain ⟨init, last, rfl⟩ := (List.eq_nil_or_concat' segs).resolve_left some_
  have name := proper last (List.mem_append_right _ List.mem_cons_self)
  obtain ⟨front, c, rfl⟩ := (List.eq_nil_or_concat' last).resolve_left name.nonempty
  have other : c ≠ '/' := fun same => name.plain (same ▸ List.mem_append_right _ List.mem_cons_self)
  have ends : ∃ text, '/' :: joined (init ++ [front ++ [c]]) = text ++ [c] := by
    by_cases none_ : init = []
    · subst none_
      exact ⟨'/' :: front, by simp [joined]⟩
    · refine ⟨'/' :: (joined init ++ '/' :: front), ?_⟩
      rw [joined, Lines.intercalate_append none_ (List.cons_ne_nil _ _), List.intercalate_singleton]
      simp [joined]
  obtain ⟨text, same⟩ := ends
  rw [same]
  exact List.rdropWhile_concat_neg _ _ _ (by simpa using other)

theorem pos_resolve_eq (is : isAbsolute root = true) (p : Str) :
    pos_resolve root p = '/' :: joined (location (location [] root) p) := by
  rw [pos_resolve]
  split
  next absolute => exact pos_normalize_absolute absolute _
  next relative =>
    have start : isAbsolute (trimEnd root ++ '/' :: p) = true := by
      by_cases none_ : trimEnd root = []
      · rw [none_]
        rfl
      · obtain ⟨c, front, trimmed⟩ := List.exists_cons_of_ne_nil none_
        have head := isAbsolute_trimEnd is none_
        rw [trimmed] at head ⊢
        exact head
    rw [pos_normalize_absolute start [], location, if_pos start, Lines.splitOn_append_separator,
      List.foldl_append, foldl_trimEnd, location, if_neg relative, location, if_pos is]

theorem joined_append {front back : List Str} (some_ : front ≠ []) (more : back ≠ []) :
    joined (front ++ back) = joined front ++ '/' :: joined back :=
  Lines.intercalate_append some_ more

theorem proper_plain (proper : ∀ s ∈ segs, Proper s) : ∀ s ∈ segs, s ≠ [] ∧ '/' ∉ s :=
  fun s listed => ⟨(proper s listed).nonempty, (proper s listed).plain⟩

theorem location_written (proper : ∀ s ∈ segs, Proper s) (folder : List Str) :
    location folder ('/' :: joined segs) = segs := by
  have shape : Shape true segs 0 segs := ⟨rfl, proper, fun _ => rfl⟩
  have skips : ∀ s, enter s [] = s ∧ enter s here = s :=
    fun s => ⟨if_pos (Or.inl rfl), if_pos (Or.inr rfl)⟩
  have all := foldl_written skips shape []
  rw [written, if_pos rfl, foldl_enter_proper proper] at all
  exact all

theorem location_joined (proper : ∀ s ∈ segs, Proper s) (folder : List Str) :
    location folder (joined segs) = folder ++ segs := by
  have relative := isAbsolute_joined (proper_plain proper)
  rw [location, relative]
  by_cases none_ : segs = []
  · subst none_
    simp [joined, enter]
  · rw [splitOn_joined (proper_plain proper) none_]
    exact foldl_enter_proper proper

/-- A folder's text that begins the text of a location spells a folder that holds it. -/
theorem folder_of_prefix (proper : ∀ s ∈ segs, Proper s) {folder : Str} (is : isAbsolute folder = true)
    (starts : folder ++ '/' :: rest = '/' :: joined segs) :
    folder = '/' :: joined (location [] folder) ∧
      segs = location [] folder ++ rest.splitOn '/' := by
  cases folder with
  | nil => cases is
  | cons c text =>
    have head : c = '/' := by simpa [isAbsolute] using is
    subst head
    have cut : text ++ '/' :: rest = joined segs := List.cons.inj starts |>.2
    have some_ : segs ≠ [] := by
      rintro rfl
      exact List.append_ne_nil_of_right_ne_nil text (List.cons_ne_nil _ _) cut
    have parts : segs = text.splitOn '/' ++ rest.splitOn '/' := by
      rw [← splitOn_joined (proper_plain proper) some_, ← cut, Lines.splitOn_append_separator]
    have names : ∀ s ∈ text.splitOn '/', Proper s := by
      intro s listed
      apply proper s
      rw [parts]
      exact List.mem_append_left _ listed
    have place : location [] ('/' :: text) = text.splitOn '/' := by
      have split : ('/' :: text).splitOn '/' = [] :: text.splitOn '/' :=
        List.splitOn_append_cons_self_of_not_mem (List.not_mem_nil (a := '/')) _
      rw [location, if_pos is, split, List.foldl_cons]
      exact foldl_enter_proper names
    rw [place]
    exact ⟨by rw [joined, List.intercalate_splitOn], parts⟩

theorem within_iff (is : isAbsolute root = true) (p : Str) :
    lexical_path_within_root root p = true ↔
      location [] root <+: location (location [] root) p ∧ Spelled root ∧
        (location (location [] root) p = location [] root → Bare root) := by
  have none_proper : ∀ s ∈ ([] : List Str), Proper s := fun s none_ => nomatch none_
  have folder := location_proper none_proper root
  have proper := location_proper folder p
  rw [lexical_path_within_root, is_within_dir, pos_resolve_eq is]
  generalize location (location [] root) p = segs at proper
  rw [decide_eq_true_eq]
  by_cases slashes : trimEnd root = []
  · -- every path is below the root of all
    have top : location [] root = [] := by
      rw [location, if_pos is, ← foldl_trimEnd, slashes]
      rfl
    rw [slashes, top]
    have starts : [] ++ ['/'] <+: '/' :: joined segs := ⟨joined segs, rfl⟩
    exact ⟨fun _ => ⟨List.nil_prefix, Or.inl slashes, fun _ => Or.inl slashes⟩,
      fun _ => Or.inr starts⟩
  · have place := location_trimEnd is slashes
    have normal : pos_normalize root = '/' :: joined (location [] root) := pos_normalize_absolute is []
    constructor
    · rintro (same | ⟨rest, starts⟩)
      · have some_ : segs ≠ [] := by
          rintro rfl
          rw [← same] at slashes
          exact slashes rfl
        have trimmed : trimEnd root = root := by
          rw [← same]
          exact trimEnd_written proper some_
        have all : location [] root = segs := by
          rw [← same]
          exact location_written proper []
        rw [all]
        refine ⟨List.prefix_refl segs, Or.inr ?_, fun _ => Or.inr trimmed⟩
        rw [normal, all, trimmed, same]
      · rw [List.append_assoc, List.singleton_append] at starts
        obtain ⟨text, parts⟩ := folder_of_prefix proper (isAbsolute_trimEnd is slashes) starts
        rw [place] at text parts
        refine ⟨⟨_, parts.symm⟩, Or.inr (text.trans normal.symm), fun same => ?_⟩
        have more := List.splitOn_ne_nil '/' rest
        have length := congrArg List.length parts
        rw [same, List.length_append] at length
        exact absurd (List.length_eq_zero_iff.mp (by omega)) more
    · rintro ⟨⟨below, parts⟩, spelled, bare⟩
      have text : trimEnd root = '/' :: joined (location [] root) :=
        (spelled.resolve_left slashes).trans normal
      by_cases none_ : below = []
      · subst none_
        rw [List.append_nil] at parts
        have same : trimEnd root = root := (bare parts.symm).resolve_left slashes
        exact Or.inl (by rw [← parts, ← text, same])
      · have some_ : location [] root ≠ [] := by
          intro top
          rw [top] at text
          have again : trimEnd (trimEnd root) = trimEnd root := List.rdropWhile_idempotent _ _
          rw [text] at again
          exact absurd again (by decide)
        refine Or.inr ⟨joined below, ?_⟩
        rw [← parts, joined_append some_ none_, text]
        simp

/-- A path in the root folder is called by what leads there from the root. -/
theorem relative_of_below (is : isAbsolute root = true) (spelled : Spelled root)
    (proper : ∀ s ∈ location [] root ++ below, Proper s) :
    pos_relative root ('/' :: joined (location [] root ++ below)) = joined below := by
  rw [pos_relative]
  by_cases slashes : trimEnd root = []
  · have top : location [] root = [] := by
      rw [location, if_pos is, ← foldl_trimEnd, slashes]
      rfl
    rw [slashes, top, List.nil_append]
    rfl
  · have text : trimEnd root = '/' :: joined (location [] root) :=
      (spelled.resolve_left slashes).trans (pos_normalize_absolute is [])
    by_cases none_ : below = []
    · subst none_
      rw [List.append_nil, if_pos text.symm]
      rfl
    · have some_ : location [] root ≠ [] := by
        intro top
        rw [top] at text
        have again : trimEnd (trimEnd root) = trimEnd root := List.rdropWhile_idempotent _ _
        rw [text] at again
        exact absurd again (by decide)
      have whole : '/' :: joined (location [] root ++ below) =
          trimEnd root ++ '/' :: joined below := by
        rw [joined_append some_ none_, text, List.cons_append]
      have other : trimEnd root ++ '/' :: joined below ≠ trimEnd root := by
        intro same
        have length := congrArg List.length same
        rw [List.length_append, List.length_cons] at length
        omega
      have stripped : ∀ start rest : Str, stripPrefix start (start ++ rest) = some rest := by
        intro start rest
        rw [stripPrefix, if_pos (List.prefix_append start rest), List.drop_left]
      have slash : stripPrefix ['/'] ('/' :: joined below) = some (joined below) :=
        stripped ['/'] (joined below)
      rw [whole]
      simp only
      rw [if_neg other, stripped, Option.bind_some, slash]

/-- What follows a name that is not two dots does not make it a way out, as it begins with a slash. -/
theorem escapes_name {s tail : Str} (name : Proper s) (opens : ∀ c ∈ tail.head?, c = '/') :
    (s ++ tail = up ∨ up ++ ['/'] <+: s ++ tail ∨ up ++ ['\\'] <+: s ++ tail ∨
      ['/'] <+: s ++ tail) ↔ up ++ ['\\'] <+: s := by
  have some_ := name.nonempty
  have plain := name.plain
  have down := name.down
  -- three characters decide
  rcases s with _ | ⟨a, _ | ⟨b, _ | ⟨c, s⟩⟩⟩
  · exact absurd rfl some_
  · cases tail <;> simp [up] at * <;> grind
  · cases tail <;> simp [up] at * <;> grind
  · simp [up] at *
    grind

/-- A relative path of names escapes if its first name begins with two dots and a backslash. -/
theorem escapes_joined (proper : ∀ s ∈ below, Proper s) :
    escapes_root (joined below) = true ↔ ∃ s ∈ below.head?, up ++ ['\\'] <+: s := by
  cases below with
  | nil => decide
  | cons s more =>
    have first := proper s List.mem_cons_self
    obtain ⟨tail, text, opens⟩ : ∃ tail, joined (s :: more) = s ++ tail ∧ ∀ c ∈ tail.head?, c = '/' := by
      cases more with
      | nil => exact ⟨[], by simp [joined], by simp⟩
      | cons next more => exact ⟨'/' :: joined (next :: more), by simp [joined], by simp⟩
    rw [escapes_root, text, decide_eq_true_eq]
    simp only [List.head?_cons, Option.mem_some_iff, exists_eq_left']
    exact escapes_name first opens

/-- In the root folder a path and its name relative to the root are interchangeable. -/
theorem relative_of_within (is : isAbsolute root = true) {p : Str}
    (within : lexical_path_within_root root p = true) :
    pos_resolve root (pos_relative root (pos_resolve root p)) = pos_resolve root p ∧
      (escapes_root (pos_relative root (pos_resolve root p)) = true ↔
        ∃ s ∈ ((location (location [] root) p).drop (location [] root).length).head?,
          up ++ ['\\'] <+: s) := by
  have none_proper : ∀ s ∈ ([] : List Str), Proper s := fun s none_ => nomatch none_
  have proper := location_proper (location_proper none_proper root) p
  obtain ⟨⟨below, parts⟩, spelled, -⟩ := (within_iff is p).mp within
  rw [← parts] at proper
  have names : ∀ s ∈ below, Proper s := fun s listed => proper s (List.mem_append_right _ listed)
  have resolved := pos_resolve_eq is p
  rw [resolved, ← parts, relative_of_below is spelled proper, List.drop_left]
  refine ⟨?_, escapes_joined names⟩
  rw [pos_resolve_eq is, location_joined names]

/-- Normalising keeps the location and is done once; and for every spelling of the root it is known
when a path is within it. -/
theorem paths_within (root p : Str) (absolute : isAbsolute root = true) :
    (∀ p, pos_normalize (pos_normalize p) = pos_normalize p) ∧
    (∀ p folder, location folder (pos_normalize p) = location folder p) ∧
    (lexical_path_within_root root p = true ↔
      location [] root <+: location (location [] root) p ∧ Spelled root ∧
        (location (location [] root) p = location [] root → Bare root)) ∧
    (lexical_path_within_root root p = true →
      pos_resolve root (pos_relative root (pos_resolve root p)) = pos_resolve root p ∧
        (escapes_root (pos_relative root (pos_resolve root p)) = true ↔
          ∃ s ∈ ((location (location [] root) p).drop (location [] root).length).head?,
            up ++ ['\\'] <+: s)) :=
  ⟨pos_normalize_idempotent, fun p folder => location_normalize folder p, within_iff absolute p,
    relative_of_within absolute⟩

theorem paths_within_dots : lexical_path_within_root "/a".toList "b/../c//.".toList = true ∧
    pos_resolve "/a".toList (pos_relative "/a".toList (pos_resolve "/a".toList "b/../c//.".toList)) =
      pos_resolve "/a".toList "b/../c//.".toList :=
  have parts := paths_within "/a".toList "b/../c//.".toList (by decide)
  have within := parts.2.2.1.mpr (by decide)
  ⟨within, (parts.2.2.2 within).1⟩

/-- A root with a slash at its end does not hold itself, and a file name that begins with two dots
and a backslash is taken for a way out. -/
theorem root_not_within :
    (location (location [] "/a/".toList) ".".toList = location [] "/a/".toList ∧
      lexical_path_within_root "/a/".toList ".".toList = false) ∧
    lexical_path_within_root "/a".toList "..\\b".toList = true ∧
      escapes_root (pos_relative "/a".toList (pos_resolve "/a".toList "..\\b".toList)) = true := by
  decide

end CodeGraph.Resolution.Paths
