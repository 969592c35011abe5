import CodeGraph.Foundation.Lines
import CodeGraph.Foundation.Tails
import CodeGraph.Foundation.Text
import CodeGraph.Types

/-!
# The keys a failed reference waits under

The tail a failed reference is parked under, and the keys of a file that could satisfy it
(`db/reference-tail.ts`).
-/
namespace CodeGraph.Db

open Text Tails

abbrev slash : UInt16 := 0x2F
abbrev dot : UInt16 := 0x2E
abbrev colon : UInt16 := 0x3A
abbrev hash : UInt16 := 0x23

/-! ### Names and paths -/

def fileNameStem : JsString → JsString
  | [] => []
  | u :: name => u :: name.takeWhile (· != dot)

def withoutTrailingSlashes (path : JsString) : JsString := path.rdropWhile (· == slash)

def lastSegment (path : JsString) : JsString :=
  (withoutTrailingSlashes path).rtakeWhile (· != slash)

def pathStem (path : JsString) : JsString :=
  let stem := fileNameStem (lastSegment path)
  if stem.all (· == dot) then [] else stem

def moduleKey : JsString := utf16 "module:"

def moduleTail (modulePath : JsString) : JsString :=
  let stem := pathStem modulePath
  if stem = [] then [] else moduleKey ++ stem

/-- What `.` does not match in a regular expression. -/
def isLineTerminator (u : UInt16) : Bool := u == 0x0A || u == 0x0D || u == 0x2028 || u == 0x2029

/-- `(.+)` up to the end. -/
def lazyPath? (text : JsString) : Option JsString :=
  if text ≠ [] ∧ !text.any isLineTerminator then some text else none

/-- `(.+)#[^#]+` up to the end: the path may hold a `#` itself, the export does not. -/
def exportPath? (text : JsString) : Option JsString :=
  let exported := text.rtakeWhile (· != hash)
  let path := (text.rdropWhile (· != hash)).dropLast
  if hash ∈ text ∧ exported ≠ [] ∧ path ≠ [] ∧ !path.any isLineTerminator then some path else none

def modulePath? (text : JsString) : Option JsString :=
  ((after? (utf16 "lazy-import:") text).bind lazyPath?).or
    ((after? (utf16 "import:") text).bind exportPath?)

/-- The path that `MODULE_REFERENCE` captures. -/
def moduleReference? (name : JsString) : Option JsString :=
  ((after? (utf16 "layout:") name).bind modulePath?).or (modulePath? name)

/-! ### The tail of a reference -/

def isDigit (u : UInt16) : Bool := 0x30 ≤ u && u ≤ 0x39

def isLetter (u : UInt16) : Bool := (0x41 ≤ u && u ≤ 0x5A) || (0x61 ≤ u && u ≤ 0x7A)

/-- `[\w$@+~.-]` -/
def inFileName (u : UInt16) : Bool :=
  isDigit u || isLetter u || (utf16 "_$@+~.-").contains u

/-- `FILE_NAME`: a file name with an extension that begins with a letter. -/
def isFileName (name : JsString) : Bool :=
  let extension := name.rtakeWhile (· != dot)
  let before := (name.rdropWhile (· != dot)).dropLast
  name.contains dot && before != [] && before.all inFileName && extension.head?.any isLetter &&
    extension.all fun u => isDigit u || isLetter u

def withoutArity (name : JsString) : JsString :=
  let digits := name.rtakeWhile isDigit
  let before := name.rdropWhile isDigit
  if 1 ≤ digits.length ∧ digits.length ≤ 3 ∧ before.getLast? = some slash then before.dropLast
  else name

def lastWord (text : JsString) : JsString := text.rtakeWhile fun u => u != dot && u != colon

def plainTail (name : JsString) : JsString :=
  let base := withoutArity name
  lastWord (if base = [] then name else base)

def referenceNameTail (name : JsString) (kind : Option ReferenceKind) : JsString :=
  let stem := if kind = some (.edge .imports) ∧ slash ∈ withoutTrailingSlashes name then pathStem name
    else []
  let tail := if kind = some (.edge .references) ∨ kind = some (.edge .calls) then
    ((moduleReference? name).map moduleTail).getD [] else []
  let fileName := name.rtakeWhile (· != slash)
  if stem ≠ [] then stem
  else if tail ≠ [] then tail
  else if kind = some (.edge .references) ∧ fileName ≠ name ∧ isFileName fileName then fileName
  else plainTail name

def addKey (keys : List JsString) (key : JsString) : List JsString :=
  if key ∈ keys then keys else keys ++ [key]

def lastParts (filePath : JsString) : List JsString :=
  let parts := filePath.splitOn slash
  parts.drop (parts.length - 2)

def importPathKeys (filePath : JsString) : List JsString :=
  (lastParts filePath).foldl (fun keys name => addKey (addKey keys name) (fileNameStem name)) []

/-- The package above the one that a file is the `__init__.py` of. -/
def packageAbove (filePath : JsString) : JsString :=
  match (filePath.splitOn slash).reverse with
  | last :: _ :: above :: _ => if last = utf16 "__init__.py" then above else []
  | _ => []

def moduleReferenceKeys (filePath : JsString) : List JsString :=
  let keys := importPathKeys filePath
  let above := packageAbove filePath
  (if above ≠ [] then addKey keys above else keys).map (moduleKey ++ ·)

/-! ### What a path's last segment can be -/

def Called (filePath text : JsString) : Prop :=
  ∃ part ∈ lastParts filePath, text = part ∨ text = fileNameStem part

def baseName (filePath : JsString) : JsString := Lines.remainder slash filePath

def folderName? (filePath : JsString) : Option JsString := (Lines.complete slash filePath).getLast?

/-- A path that ends in the segment names the file: by its name, by its name without the last
extension or cut at another dot, or by the name of its folder. -/
def Names (segment filePath : JsString) : Prop :=
  segment ≠ [] ∧ (segment = baseName filePath ∨ (∃ rest, baseName filePath = segment ++ dot :: rest) ∨
    segment = fileNameStem (baseName filePath) ∨ folderName? filePath = some segment)

def DotsFirst (segment : JsString) : Prop := segment = [dot] ∨ [dot, dot] <+: segment

/-- A module reference's two written forms, for the module at `path`. -/
def Written (name path : JsString) : Prop :=
  ∃ layout, (layout = [] ∨ layout = utf16 "layout:") ∧
    (name = layout ++ (utf16 "lazy-import:" ++ path) ∨
      ∃ exported, exported ≠ [] ∧ hash ∉ exported ∧
        name = layout ++ (utf16 "import:" ++ (path ++ hash :: exported)))

theorem mem_importPathKeys {filePath key : JsString} :
    key ∈ importPathKeys filePath ↔ Called filePath key := by
  have grown : ∀ (parts keys : List JsString),
      key ∈ parts.foldl (fun keys name => addKey (addKey keys name) (fileNameStem name)) keys ↔
        key ∈ keys ∨ ∃ part ∈ parts, key = part ∨ key = fileNameStem part := by
    intro parts
    induction parts with
    | nil => simp
    | cons part parts ih =>
      intro keys
      have added : ∀ (keys : List JsString) k, key ∈ addKey keys k ↔ key ∈ keys ∨ key = k := by
        intro keys k
        unfold addKey
        split
        next there => exact ⟨.inl, fun either => either.elim id (· ▸ there)⟩
        · simp
      rw [List.foldl_cons, ih, added, added]
      simp only [List.mem_cons, exists_eq_or_imp, or_assoc]
  rw [importPathKeys, grown, Called]
  simp

private theorem lastParts_eq (filePath : JsString) :
    lastParts filePath = (folderName? filePath).toList ++ [baseName filePath] := by
  have some_ := List.splitOn_ne_nil slash filePath
  have parts : filePath.splitOn slash =
      Lines.complete slash filePath ++ [baseName filePath] :=
    (List.dropLast_append_getLast some_).symm
  rw [lastParts, folderName?, parts]
  rcases List.eq_nil_or_concat (Lines.complete slash filePath) with none_ | ⟨above, folder, cut⟩
  · simp [none_]
  · simp [cut]

private theorem baseName_mem (filePath : JsString) : baseName filePath ∈ lastParts filePath := by
  simp [lastParts_eq]

theorem fileNameStem_append {segment rest : JsString} (some_ : segment ≠ []) :
    fileNameStem (segment ++ dot :: rest) = fileNameStem segment := by
  cases segment with
  | nil => exact absurd rfl some_
  | cons u segment =>
    simp only [List.cons_append, fileNameStem, List.cons.injEq, true_and]
    induction segment with
    | nil => simp
    | cons v segment ih =>
      simp only [List.cons_append, List.takeWhile_cons, ih (List.cons_ne_nil u segment)]

theorem fileNameStem_stem (name : JsString) : fileNameStem (fileNameStem name) = fileNameStem name := by
  cases name with
  | nil => rfl
  | cons u name =>
    simp only [fileNameStem, List.cons.injEq, true_and]
    rw [List.takeWhile_eq_self_iff]
    intro v listed
    exact List.mem_takeWhile_imp (p := (· != dot)) listed

/-- The stem of the segment is one of the stems that the file is looked up by. -/
theorem Names.stem_called {segment filePath : JsString} (names : Names segment filePath) :
    Called filePath (fileNameStem segment) := by
  obtain ⟨some_, whole | ⟨rest, cut⟩ | stem | folder⟩ := names
  · exact ⟨_, baseName_mem filePath, .inr (by rw [whole])⟩
  · exact ⟨_, baseName_mem filePath, .inr (by rw [cut, fileNameStem_append some_])⟩
  · exact ⟨_, baseName_mem filePath, .inr (by rw [stem, fileNameStem_stem])⟩
  · exact ⟨segment, by simp [lastParts_eq, folder], .inr rfl⟩

theorem dotsOnly_stem {segment : JsString} (some_ : segment ≠ []) :
    (fileNameStem segment).all (· == dot) = true ↔ DotsFirst segment := by
  match segment, some_ with
  | [u], _ => simp [fileNameStem, DotsFirst, List.prefix_iff_eq_take]
  | u :: v :: segment, _ =>
    by_cases second : v = dot
    · subst second
      simp only [fileNameStem, DotsFirst, List.takeWhile_cons, bne_self_eq_false, List.all_cons,
        List.all_nil, Bool.and_true, beq_iff_eq, Bool.false_eq_true, if_false]
      constructor
      · rintro rfl
        exact .inr ⟨segment, rfl⟩
      · rintro (single | ⟨rest, first⟩)
        · cases single
        · cases first
          rfl
    · have seen : v ∈ fileNameStem (u :: v :: segment) := by simp [fileNameStem, second]
      constructor
      · intro only
        exact absurd (by simpa using List.all_eq_true.mp only v seen) second
      · rintro (single | ⟨rest, first⟩)
        · cases single
        · cases first
          exact absurd rfl second

theorem pathStem_of_dots {path : JsString} (dots : DotsFirst (lastSegment path)) :
    pathStem path = [] := by
  have some_ : lastSegment path ≠ [] := by
    rintro none_
    rcases dots with single | ⟨rest, first⟩
    · rw [none_] at single
      cases single
    · rw [none_] at first
      cases first
  simp only [pathStem, (dotsOnly_stem some_).mpr dots, if_true]

theorem pathStem_of_not_dots {path : JsString} (some_ : lastSegment path ≠ [])
    (dots : ¬DotsFirst (lastSegment path)) :
    pathStem path = fileNameStem (lastSegment path) ∧ pathStem path ≠ [] := by
  have stem : pathStem path = fileNameStem (lastSegment path) := by
    simp only [pathStem, if_neg (mt (dotsOnly_stem some_).mp dots)]
  constructor
  · exact stem
  · rw [stem]
    cases cut : lastSegment path with
    | nil => exact absurd cut some_
    | cons u name => exact List.cons_ne_nil _ _

theorem DotsFirst.dot_mem {segment : JsString} (dots : DotsFirst segment) : dot ∈ segment := by
  rcases dots with rfl | ⟨rest, rfl⟩
  · exact List.mem_singleton_self dot
  · exact List.mem_cons_self

theorem DotsFirst.not_digits {segment : JsString} (dots : DotsFirst segment) :
    ∃ u ∈ segment, isDigit u = false :=
  ⟨dot, dots.dot_mem, rfl⟩

theorem path_parts (path : JsString) :
    ∃ folders, path = folders ++ lastSegment path ++ path.rtakeWhile (· == slash) := by
  refine ⟨(withoutTrailingSlashes path).rdropWhile (· != slash), ?_⟩
  rw [lastSegment, List.rdropWhile_append_rtakeWhile, withoutTrailingSlashes,
    List.rdropWhile_append_rtakeWhile]

theorem withoutArity_of_dots {path : JsString} (dots : DotsFirst (lastSegment path)) :
    withoutArity path = path := by
  unfold withoutArity
  refine if_neg fun ⟨some_, _, last⟩ => ?_
  obtain ⟨before, front⟩ := List.getLast?_eq_some_iff.mp last
  have cut : path = before ++ slash :: path.rtakeWhile isDigit := by
    rw [List.append_cons, ← front, List.rdropWhile_append_rtakeWhile]
  have digits : ∀ u ∈ path.rtakeWhile isDigit, isDigit u = true :=
    fun u listed => List.mem_rtakeWhile_imp listed
  have plain : ∀ u ∈ path.rtakeWhile isDigit, (u != slash) = true := by
    intro u listed
    rw [bne_iff_ne]
    rintro rfl
    cases digits slash listed
  -- The path ends in a digit, so no slash is dropped and the digits are its last segment.
  have kept : withoutTrailingSlashes path = path := by
    rcases List.eq_nil_or_concat (path.rtakeWhile isDigit) with none_ | ⟨front, u, end_⟩
    · rw [none_, List.length_nil] at some_
      omega
    · have last_digit := plain u (by simp [end_])
      have other : (u == slash) = false := by simpa using last_digit
      rw [withoutTrailingSlashes, cut, end_, List.concat_eq_append, ← List.cons_append,
        ← List.append_assoc]
      exact List.rdropWhile_concat_neg _ _ _ (by simp [other])
  have segment : lastSegment path = path.rtakeWhile isDigit := by
    rw [lastSegment, kept]
    conv_lhs => rw [cut]
    exact rtakeWhile_append_cons rfl plain
  obtain ⟨u, listed, other⟩ := dots.not_digits
  rw [digits u (segment ▸ listed)] at other
  cases other

theorem plainTail_of_dots {path : JsString} (dots : DotsFirst (lastSegment path)) :
    plainTail path = lastWord (lastSegment path) ++ path.rtakeWhile (· == slash) := by
  have slashes : ∀ u ∈ path.rtakeWhile (· == slash), (u != dot && u != colon) = true := by
    intro u listed
    have is_slash : u = slash := by simpa using List.mem_rtakeWhile_imp listed
    subst is_slash
    decide
  obtain ⟨folders, parts⟩ := path_parts path
  rw [plainTail, withoutArity_of_dots dots, ite_self, lastWord]
  conv_lhs => rw [parts]
  rw [rtakeWhile_append_of_plain slashes, rtakeWhile_append_of_mark dots.dot_mem rfl, lastWord]

theorem Called.slash_not_mem {filePath text : JsString} (called : Called filePath text) :
    slash ∉ text := by
  obtain ⟨part, listed, named⟩ := called
  have plain : slash ∉ part := Lines.not_mem_of_mem_splitOn (List.mem_of_mem_drop listed)
  rcases named with rfl | rfl
  · exact plain
  · cases part with
    | nil => exact plain
    | cons u part =>
      intro member
      rcases List.mem_cons.mp member with rfl | later
      · exact plain List.mem_cons_self
      · exact plain (List.mem_cons_of_mem u ((List.takeWhile_prefix _).subset later))

/-! ### What a module reference is parked under -/

theorem lazyPath?_eq {path : JsString} (some_ : path ≠ []) :
    lazyPath? path = if path.any isLineTerminator then none else some path := by
  unfold lazyPath?
  cases path.any isLineTerminator <;> simp [some_]

theorem exportPath?_eq {path exported : JsString} (some_ : path ≠ []) (named : exported ≠ [])
    (plain : hash ∉ exported) :
    exportPath? (path ++ hash :: exported) =
      if path.any isLineTerminator then none else some path := by
  have other : ∀ u ∈ exported, (u != hash) = true := by
    intro u listed
    rw [bne_iff_ne]
    rintro rfl
    exact plain listed
  have behind : (path ++ hash :: exported).rtakeWhile (· != hash) = exported :=
    rtakeWhile_append_cons rfl other
  have before : (path ++ hash :: exported).rdropWhile (· != hash) = path ++ [hash] :=
    rdropWhile_append_cons rfl other
  simp only [exportPath?, behind, before, List.dropLast_concat]
  cases path.any isLineTerminator <;> simp [some_, named]

/-- The path of a reference in either form is found, unless it is broken into lines. -/
theorem moduleReference?_written {name path : JsString} (some_ : path ≠ [])
    (written : Written name path) :
    moduleReference? name = if path.any isLineTerminator then none else some path := by
  obtain ⟨layout, prefixed, form⟩ := written
  -- Whatever is written, no other form begins with the same word.
  have bare : ∀ text, (text = utf16 "lazy-import:" ++ path ∨ ∃ exported, exported ≠ [] ∧
      hash ∉ exported ∧ text = utf16 "import:" ++ (path ++ hash :: exported)) →
      modulePath? text = (if path.any isLineTerminator then none else some path) ∧
      after? (utf16 "layout:") text = none ∧
      modulePath? (utf16 "layout:" ++ text) = none := by
    rintro text (rfl | ⟨exported, named, plain, rfl⟩)
    · have other : after? (utf16 "import:") (utf16 "lazy-import:" ++ path) = none :=
        after?_eq_none rfl
      constructor
      · simp only [modulePath?, after?_append, Option.bind_some, lazyPath?_eq some_, other,
          Option.bind_none, Option.or_none]
      · exact ⟨after?_eq_none rfl, rfl⟩
    · have other : after? (utf16 "lazy-import:")
          (utf16 "import:" ++ (path ++ hash :: exported)) = none := after?_eq_none rfl
      constructor
      · simp only [modulePath?, after?_append, Option.bind_some, exportPath?_eq some_ named plain,
          other, Option.bind_none, Option.none_or]
      · exact ⟨after?_eq_none rfl, rfl⟩
  rcases prefixed with rfl | rfl
  · obtain ⟨found, first, _⟩ := bare name (by simpa using form)
    rw [moduleReference?, first, Option.bind_none, Option.none_or, found]
  · rcases form with rfl | ⟨exported, named, plain, rfl⟩
    · obtain ⟨found, _, second⟩ := bare _ (.inl rfl)
      rw [moduleReference?, after?_append, Option.bind_some, found, second, Option.or_none]
    · obtain ⟨found, _, second⟩ := bare _ (.inr ⟨exported, named, plain, rfl⟩)
      rw [moduleReference?, after?_append, Option.bind_some, found, second, Option.or_none]

theorem colon_not_mem_plainTail (name : JsString) : colon ∉ plainTail name := by
  intro listed
  have plain := List.mem_rtakeWhile_imp listed
  simp at plain

theorem colon_not_mem_fileName {name : JsString} (named : isFileName name = true) :
    colon ∉ name := by
  simp only [isFileName, Bool.and_eq_true, List.all_eq_true] at named
  obtain ⟨⟨⟨⟨dotted, _⟩, before⟩, _⟩, extension⟩ := named
  obtain ⟨front, u, mark, cut⟩ :=
    last_mark (p := (· != dot)) (List.contains_iff_mem.mp dotted) (bne_self_eq_false dot)
  have behind : ∀ v ∈ name.rtakeWhile (· != dot), (v != dot) = true :=
    fun v listed => List.mem_rtakeWhile_imp (p := (· != dot)) listed
  have kept : name.rdropWhile (· != dot) = front ++ [u] := by
    conv_lhs => rw [cut]
    exact rdropWhile_append_cons mark behind
  rw [kept, List.dropLast_concat] at before
  intro listed
  rw [cut, List.mem_append, List.mem_cons] at listed
  rcases listed with first | rfl | last
  · cases before colon first
  · cases mark
  · cases extension colon last

theorem mem_moduleReferenceKeys {filePath key : JsString} (called : Called filePath key) :
    moduleKey ++ key ∈ moduleReferenceKeys filePath := by
  have listed : key ∈ importPathKeys filePath := mem_importPathKeys.mpr called
  refine List.mem_map_of_mem ?_
  split
  · unfold addKey
    split
    · exact listed
    · exact List.mem_append_left _ listed
  · exact listed

theorem colon_mem_of_mem_moduleReferenceKeys {filePath key : JsString}
    (listed : key ∈ moduleReferenceKeys filePath) : colon ∈ key := by
  obtain ⟨name, _, rfl⟩ := List.mem_map.mp listed
  exact List.mem_append_left _ (by decide)

theorem colon_not_mem_referenceNameTail {name : JsString} {kind : EdgeKind}
    (other : kind ≠ .imports) (none_ : ((moduleReference? name).map moduleTail).getD [] = []) :
    colon ∉ referenceNameTail name (some (.edge kind)) := by
  have no_stem : ¬(some (ReferenceKind.edge kind) = some (.edge .imports) ∧
      slash ∈ withoutTrailingSlashes name) := by
    rintro ⟨same, _⟩
    cases same
    exact other rfl
  simp only [referenceNameTail, none_, ite_self, no_stem, if_false, ne_eq, not_true_eq_false]
  split
  next named => exact colon_not_mem_fileName named.2.2
  · exact colon_not_mem_plainTail name

private theorem imports_woken {filePath path : JsString} (names : Names (lastSegment path) filePath)
    (path_form : slash ∈ withoutTrailingSlashes path) :
    referenceNameTail path (some (.edge .imports)) ∈ importPathKeys filePath ↔
      ¬DotsFirst (lastSegment path) ∨
        path.getLast? ≠ some slash ∧ Called filePath (lastWord (lastSegment path)) := by
  rw [mem_importPathKeys]
  by_cases dots : DotsFirst (lastSegment path)
  · have tail : referenceNameTail path (some (.edge .imports)) =
        lastWord (lastSegment path) ++ path.rtakeWhile (· == slash) := by
      rw [← plainTail_of_dots dots]
      simp [referenceNameTail, path_form, pathStem_of_dots dots]
    rw [tail]
    simp only [dots, not_true_eq_false, false_or]
    by_cases ends : path.getLast? = some slash
    · obtain ⟨front, cut⟩ := List.getLast?_eq_some_iff.mp ends
      have listed : slash ∈ path.rtakeWhile (· == slash) := by
        rw [cut, List.rtakeWhile_concat_pos (· == slash) _ _ (beq_self_eq_true slash)]
        exact List.mem_append_right _ (List.mem_singleton_self slash)
      constructor
      · exact fun called => absurd (List.mem_append_right _ listed) called.slash_not_mem
      · exact fun ⟨other, _⟩ => absurd ends other
    · have none_ : path.rtakeWhile (· == slash) = [] := by
        rw [List.rtakeWhile_eq_nil_iff]
        intro some_ is_slash
        rw [beq_iff_eq] at is_slash
        exact ends (is_slash ▸ List.getLast?_eq_some_getLast some_)
      simp only [none_, List.append_nil, ne_eq, ends, not_false_eq_true, true_and]
  · obtain ⟨stem, some_⟩ := pathStem_of_not_dots names.1 dots
    have tail : referenceNameTail path (some (.edge .imports)) = pathStem path := by
      simp [referenceNameTail, path_form, some_]
    rw [tail, stem]
    constructor
    · exact fun _ => .inl dots
    · exact fun _ => names.stem_called

private theorem modules_woken {filePath path name : JsString} {kind : EdgeKind}
    (names : Names (lastSegment path) filePath) (written : Written name path)
    (asked : kind = .references ∨ kind = .calls) :
    referenceNameTail name (some (.edge kind)) ∈ moduleReferenceKeys filePath ↔
      ¬DotsFirst (lastSegment path) ∧ path.any isLineTerminator = false := by
  have other : kind ≠ .imports := by rcases asked with rfl | rfl <;> decide
  have some_ : path ≠ [] := by
    rintro rfl
    exact names.1 rfl
  have found := moduleReference?_written some_ written
  by_cases kept : ¬DotsFirst (lastSegment path) ∧ path.any isLineTerminator = false
  · obtain ⟨stem, nonempty⟩ := pathStem_of_not_dots names.1 kept.1
    have tail : referenceNameTail name (some (.edge kind)) = moduleKey ++ pathStem path := by
      have captured : ((moduleReference? name).map moduleTail).getD [] =
          moduleKey ++ pathStem path := by
        simp [found, kept.2, moduleTail, nonempty]
      have key : moduleKey ++ pathStem path ≠ [] := by simp [nonempty]
      rcases asked with rfl | rfl <;> simp [referenceNameTail, captured, key]
    rw [tail, stem]
    exact ⟨fun _ => kept, fun _ => mem_moduleReferenceKeys names.stem_called⟩
  · have none_ : ((moduleReference? name).map moduleTail).getD [] = [] := by
      rw [found]
      split
      · rfl
      next plain =>
        have dots : DotsFirst (lastSegment path) := by
          by_contra dots
          exact kept ⟨dots, by simpa using plain⟩
        simp [moduleTail, pathStem_of_dots dots]
    constructor
    · intro listed
      exact absurd (colon_mem_of_mem_moduleReferenceKeys listed)
        (colon_not_mem_referenceNameTail other none_)
    · exact fun both => absurd both kept

/-- A file's keys hold the tail of every path that names it, unless the path's last segment begins
with two dots or is one (then the name's last word is the tail, which may be a key by accident), or
a module's path is broken into lines. -/
theorem parked_woken {filePath path : JsString} (names : Names (lastSegment path) filePath) :
    (slash ∈ withoutTrailingSlashes path →
      (referenceNameTail path (some (.edge .imports)) ∈ importPathKeys filePath ↔
        ¬DotsFirst (lastSegment path) ∨
          path.getLast? ≠ some slash ∧ Called filePath (lastWord (lastSegment path)))) ∧
    ∀ name kind, Written name path → kind = .references ∨ kind = .calls →
      (referenceNameTail name (some (.edge kind)) ∈ moduleReferenceKeys filePath ↔
        ¬DotsFirst (lastSegment path) ∧ path.any isLineTerminator = false) := by
  constructor
  · exact imports_woken names
  · intro name kind
    exact modules_woken names

/-- `./ui` and a route's `./ui` wait for `src/ui/index.ts`, and are woken by it. -/
theorem parked_woken_folder :
    (slash ∈ withoutTrailingSlashes (utf16 "./ui") →
      (referenceNameTail (utf16 "./ui") (some (.edge .imports)) ∈
          importPathKeys (utf16 "src/ui/index.ts") ↔
        ¬DotsFirst (lastSegment (utf16 "./ui")) ∨
          (utf16 "./ui").getLast? ≠ some slash ∧
            Called (utf16 "src/ui/index.ts") (lastWord (lastSegment (utf16 "./ui"))))) ∧
    ∀ name kind, Written name (utf16 "./ui") → kind = .references ∨ kind = .calls →
      (referenceNameTail name (some (.edge kind)) ∈
          moduleReferenceKeys (utf16 "src/ui/index.ts") ↔
        ¬DotsFirst (lastSegment (utf16 "./ui")) ∧
          (utf16 "./ui").any isLineTerminator = false) :=
  parked_woken ⟨by decide, .inr (.inr (.inr (by decide)))⟩

/-- The import and the route that name `src/..foo` by its own name are not woken by it, and neither
is a route to a module whose folder's name is broken into lines. -/
theorem dotted_file_not_woken :
    (Names (lastSegment (utf16 "./..foo")) (utf16 "src/..foo") ∧
      slash ∈ withoutTrailingSlashes (utf16 "./..foo") ∧
      referenceNameTail (utf16 "./..foo") (some (.edge .imports)) ∉
        importPathKeys (utf16 "src/..foo")) ∧
    (Written (utf16 "lazy-import:./..foo") (utf16 "./..foo") ∧
      referenceNameTail (utf16 "lazy-import:./..foo") (some (.edge .references)) ∉
        moduleReferenceKeys (utf16 "src/..foo")) ∧
    (Names (lastSegment (utf16 "./a\nb/foo")) (utf16 "a\nb/foo.ts") ∧
      Written (utf16 "lazy-import:./a\nb/foo") (utf16 "./a\nb/foo") ∧
      referenceNameTail (utf16 "lazy-import:./a\nb/foo") (some (.edge .references)) ∉
        moduleReferenceKeys (utf16 "a\nb/foo.ts")) := by
  refine ⟨⟨⟨?_, .inl ?_⟩, ?_⟩, ⟨⟨[], .inl rfl, .inl ?_⟩, ?_⟩,
    ⟨?_, .inr (.inl ⟨utf16 "ts", ?_⟩)⟩, ⟨[], .inl rfl, .inl ?_⟩, ?_⟩ <;> decide

end CodeGraph.Db
