import CodeGraph.Kernel.EnvMacros

/-!
# The two readers of macros

The native reader of definitions and the patterns agree on a text just when no definition without a
name, and none that ends in white space only, is read.
-/
namespace CodeGraph.Resolution.Macros

open JsText Utf8 Kernel.EnvMacros

variable {t u v w : Text} {l : List (Text × MacroDef)}

def Agree (t : Text) : Prop :=
  (∀ name, InsertionMap.lookup (toMap ((fileEnv (encode t)).fnMacros.map FnMacro.entry)) name =
    InsertionMap.lookup (parseFunctionMacros t) name) ∧
  (∀ name, InsertionMap.lookup (toMap ((fileEnv (encode t)).objMacros.map objEntry)) name =
    InsertionMap.lookup (parseObjectMacros t) name) ∧
  ∀ name, name ∈ (fileEnv (encode t)).defined.map String.toList ↔ name ∈ parseDefinedNames t

def nameless (t : Text) : Option Text :=
  match opening t with
  | some ([], params, w) => if w = skipSpace w ∨ skipSpace w = [] then none else some params
  | _ => none

/-- A function-like macro after whose parameters there is only white space, some of it on a line that
follows a first character. -/
def blank (t : Text) : Option Text :=
  match opening t with
  | some (_ :: _, params, w) =>
    if skipSpace w = [] ∧ (w.drop 1).any (fun c => !isTerminator c) = true then some params else none
  | _ => none

inductive Reached : Text → Text → Prop
  | here (t : Text) : Reached t t
  | next {t u v : Text} (open_ : blank t = none) (goes : (fnStep t).2 = some u)
      (later : Reached u v) : Reached t v

/-- A `#define` without a name at the start of a line. -/
def namelessDefine (t : Text) : Prop := ∃ u, defineHead t = some u ∧ wordAt u = []

structure Clean (t : Text) : Prop where
  named : ∀ u, LineStart t u → ¬namelessDefine u
  functions : ∀ u, Reached (joinContinuations t) u → nameless u = none
  tails : ∀ u, Reached (joinContinuations t) u → ∀ params ∈ blank u, isVariadic (paramsOf params) = true

variable {name params : Text}

theorem fnStep_none (closed : opening t = none) :
    fnStep t = (none, nextLine t) ∨ fnStep t = (none, none) ∧ ')' ∉ t := by
  rw [fnStep]
  rw [opening] at closed
  cases head : defineHead t with
  | none => exact Or.inl rfl
  | some u =>
    rw [head, Option.bind_some] at closed
    dsimp only
    split
    · next v paren =>
      rw [paren] at closed
      simp only at closed
      split
      · next close =>
        obtain ⟨used, whole, -, heads⟩ := defineHead_some head
        refine Or.inr ⟨rfl, fun listed => ?_⟩
        have parts : t = used ++ (wordAt u ++ '(' :: v) := by
          conv_lhs => rw [whole, ← wordAt_append_afterWord u, paren]
        rw [parts] at listed
        simp only [List.mem_append, List.mem_cons] at listed
        rcases listed with old | old | old | old
        · exact (inHead_plain (heads _ old)).2 rfl
        · have word := List.mem_takeWhile_imp old
          cases word
        · cases old
        · have plain := List.dropWhile_eq_nil_iff.mp close _ old
          simp at plain
      · next d w close =>
        rw [close] at closed
        cases closed
    · exact Or.inl rfl

theorem fnStep_some (opened : opening t = some (name, params, w)) :
    fnStep t = if w = skipSpace w ∨ skipSpace w = [] then (none, nextLine t)
      else (FunctionMatch.entry ⟨name, params, (skipSpace w).takeWhile fun c => !isTerminator c⟩,
        nextLine ((skipSpace w).dropWhile fun c => !isTerminator c)) := by
  rw [opening] at opened
  obtain ⟨u, head, opened⟩ := Option.bind_eq_some_iff.mp opened
  split at opened
  · next v paren =>
    split at opened
    · next d x close =>
      cases opened
      simp only [fnStep, head, paren, close, firstLine_nil]
    · cases opened
  · cases opened

def Spent (t : Text) : Prop := ∀ c ∈ (t.dropWhile (· ≠ ')')).drop 1, isSpace c = true

theorem opening_after (opened : opening t = some (name, params, w)) :
    (t.dropWhile (· ≠ ')')).drop 1 = w := by
  obtain ⟨head, whole, -, heads, word, plain⟩ := opening_some opened
  have before : ∀ c ∈ head ++ (name ++ '(' :: params), decide (c ≠ ')') = true := by
    intro c listed
    simp only [List.mem_append, List.mem_cons] at listed
    rw [decide_eq_true_eq]
    rcases listed with old | old | rfl | old
    · exact (inHead_plain (heads c old)).2
    · rintro rfl
      cases word _ old
    · decide
    · rintro rfl
      exact plain old
  have parts : t = (head ++ (name ++ '(' :: params)) ++ ')' :: w := by simpa using whole
  rw [parts, List.dropWhile_append_of_pos before]
  rfl

theorem spent_iff (opened : opening t = some (name, params, w)) : Spent t ↔ skipSpace w = [] := by
  rw [Spent, opening_after opened, skipSpace_nil]

theorem Spent.suffix (spent : Spent t) (suffix : u <:+ t) : Spent u := by
  obtain ⟨x, rfl⟩ := suffix
  intro c listed
  by_cases plain : ∀ c ∈ x, decide (c ≠ ')') = true
  · apply spent
    rwa [List.dropWhile_append_of_pos plain]
  · have stops : x.dropWhile (fun c => decide (c ≠ ')')) ≠ [] := by
      rwa [ne_eq, List.dropWhile_eq_nil_iff]
    obtain ⟨d, y, shape⟩ := List.exists_cons_of_ne_nil stops
    apply spent
    rw [List.dropWhile_append, if_neg (by rwa [List.isEmpty_iff]), shape]
    have inside := (List.dropWhile_suffix (fun c => decide (c ≠ ')'))).subset (List.mem_of_mem_drop listed)
    exact List.mem_append_right y inside

theorem Spent.reads (spent : Spent t) (reads : Reads fnStep t l) : l = [] := by
  have nothing : ∀ t, Spent t → (fnStep t).1 = none ∧ ∀ u ∈ (fnStep t).2, u <:+ t := by
    intro t spent
    have later : ∀ u ∈ nextLine t, u <:+ t := fun u next => nextLine_suffix next
    cases opened : opening t with
    | none =>
      rcases fnStep_none opened with step | ⟨step, -⟩
      · exact ⟨by rw [step], by rwa [step]⟩
      · exact ⟨by rw [step], by rw [step]; exact fun u goes => nomatch goes⟩
    | some o =>
      obtain ⟨name, params, w⟩ := o
      have step := fnStep_some opened
      rw [if_pos (Or.inr ((spent_iff opened).mp spent))] at step
      exact ⟨by rw [step], by rwa [step]⟩
  induction reads with
  | stop ends => rw [(nothing _ spent).1]; rfl
  | next goes later ih =>
    obtain ⟨none_, suffix⟩ := nothing _ spent
    rw [none_, ih (spent.suffix (suffix _ goes))]
    rfl

theorem functionPattern_closed (closed : ')' ∉ t) : functionPattern t = none := by
  rw [functionPattern_eq]
  cases opened : opening t with
  | none => rfl
  | some o =>
    obtain ⟨name, params, w⟩ := o
    obtain ⟨head, whole, -⟩ := opening_some opened
    exact absurd (by rw [whole]; simp) closed

theorem run_closed (closed : ')' ∉ t) : run functionPattern t = [] :=
  run_nil fun _ suffix => functionPattern_closed fun listed => closed (suffix.subset listed)

theorem run_match {x y z : Text} {c : Char} (opened : opening t = some (name, params, w))
    (named : name ≠ []) (ends : w = x ++ (y ++ [c]) ++ z) (plain : isTerminator c = false)
    (found : lineAfterSpace w (w.takeWhile isSpace).length = some (y ++ [c], z)) :
    run functionPattern t = ⟨name, params, y ++ [c]⟩ :: runNext functionPattern z := by
  obtain ⟨head, whole, some_, -⟩ := opening_some opened
  have parts : t = (head ++ (name ++ '(' :: (params ++ ')' :: (x ++ y))) ++ [c]) ++ z := by
    rw [whole, ends]
    simp
  have matches_ := functionPattern_some opened named
  rw [found, Option.map_some, parts] at matches_
  rw [parts]
  refine run_some matches_ (by simp) (Or.inl ?_)
  rw [List.getLast?_append, List.getLast?_singleton]
  simp [plain]

theorem run_body (opened : opening t = some (name, params, w)) (named : name ≠ []) (moves : w ≠ skipSpace w)
    (more : skipSpace w ≠ []) :
    run functionPattern t = ⟨name, params, (skipSpace w).takeWhile fun c => !isTerminator c⟩ ::
      runNext functionPattern ((skipSpace w).dropWhile fun c => !isTerminator c) := by
  have found := lineAfterSpace_some moves more
  obtain none_ | ⟨body, c, last⟩ := List.eq_nil_or_concat'
    ((skipSpace w).takeWhile fun c => !isTerminator c)
  · exact absurd (firstLine_nil.mp none_) more
  have plain : isTerminator c = false := by
    have inside : c ∈ (skipSpace w).takeWhile fun c => !isTerminator c := by simp [last]
    simpa using List.mem_takeWhile_imp inside
  rw [last] at found ⊢
  apply run_match (x := w.takeWhile isSpace) opened named _ plain found
  rw [← last, List.append_assoc, List.takeWhile_append_dropWhile, skipSpace,
    List.takeWhile_append_dropWhile]

theorem takeWhile_isSpace (spaces : skipSpace w = []) : w.takeWhile isSpace = w := by
  conv_rhs => rw [← List.takeWhile_append_dropWhile (p := isSpace) (l := w), ← skipSpace, spaces,
    List.append_nil]

theorem blank_some (blanks : blank t = some params) : ∃ name w, opening t = some (name, params, w) ∧
    name ≠ [] ∧ skipSpace w = [] ∧ (w.drop 1).any (fun c => !isTerminator c) = true := by
  rw [blank] at blanks
  split at blanks
  · next c name params w opened =>
    split at blanks
    · next tail =>
      cases blanks
      exact ⟨c :: name, w, opened, List.cons_ne_nil _ _, tail.1, tail.2⟩
    · cases blanks
  · cases blanks

theorem run_blank (blanks : blank t = some params) :
    ∃ name body, run functionPattern t = [⟨name, params, body⟩] ∧ name ≠ [] ∧ trim body = [] := by
  obtain ⟨name, w, opened, named, spaces, line⟩ := blank_some blanks
  rcases lineAfterSpace_blank (w := w) (n := w.length) (by simp) with
    ⟨-, ends⟩ | ⟨c, rest, found, -, plain, ends, suffix⟩
  · obtain ⟨c, listed, other⟩ := List.any_eq_true.mp line
    simp [ends c listed] at other
  · obtain ⟨before, parts⟩ := suffix
    have listed : c ∈ w := by simp [← parts]
    have closed : ∀ u, u <:+ rest → functionPattern u = none := by
      intro u inside
      apply functionPattern_closed
      intro paren
      have end_ := ends _ (inside.subset paren)
      cases end_
    have ends' : w = before ++ ([] ++ [c]) ++ rest := by rw [← parts]; simp
    have whole := run_match opened named ends' plain (by rw [takeWhile_isSpace spaces]; exact found)
    refine ⟨name, [c], ?_, named, ?_⟩
    · rw [whole, runNext_nil closed]
      rfl
    · rw [trim, skipSpace, List.dropWhile_cons_of_pos (skipSpace_nil.mp spaces c listed)]
      rfl

theorem functionPattern_none (bare : blank t = none) (opened : opening t = some (name, params, w))
    (lost : name = [] ∨ w = skipSpace w ∨ skipSpace w = []) : functionPattern t = none := by
  by_cases nameless : name = []
  · rw [functionPattern_eq, opened, Option.bind_some, if_pos nameless]
  rw [functionPattern_some opened nameless, Option.map_eq_none_iff]
  rcases lost with same | same | spaces
  · exact absurd same nameless
  · have none_ : w.takeWhile isSpace = [] := by
      have length := congrArg List.length (List.takeWhile_append_dropWhile (p := isSpace) (l := w))
      rw [← skipSpace, ← same, List.length_append] at length
      exact List.length_eq_zero_iff.mp (by omega)
    rw [none_]
    rfl
  · rw [takeWhile_isSpace spaces]
    rcases lineAfterSpace_blank (w := w) (n := w.length) (by simp) with
      ⟨none_, -⟩ | ⟨c, rest, -, listed, plain, -⟩
    · exact none_
    · obtain ⟨d, name, rfl⟩ := List.exists_cons_of_ne_nil nameless
      have line : (w.drop 1).any (fun c => !isTerminator c) = true :=
        List.any_eq_true.mpr ⟨c, listed, by simp [plain]⟩
      simp only [blank, opened, spaces, line, and_self, if_true, reduceCtorEq] at bare

/-! ### Runs -/

def entries (t : Text) : List (Text × MacroDef) :=
  (run functionPattern t).filterMap FunctionMatch.entry

def entriesNext (next : Option Text) : List (Text × MacroDef) := (next.map entries).getD []

theorem entries_runNext (t : Text) :
    (runNext functionPattern t).filterMap FunctionMatch.entry = entriesNext (nextLine t) := by
  rw [runNext]
  cases nextLine t with
  | none => rfl
  | some u => rfl

/-- Where the readers do not part, a match enters what a round of the native reader finds. -/
theorem entries_step (named : nameless t = none) (bare : blank t = none) :
    entries t = (fnStep t).1.toList ++ entriesNext (fnStep t).2 := by
  cases opened : opening t with
  | none =>
    have fails : functionPattern t = none := by
      rw [functionPattern_eq, opened]
      rfl
    rcases fnStep_none opened with step | ⟨step, closed⟩
    · rw [step, entries, run_none fails, entries_runNext]
      rfl
    · rw [step, entries, run_closed closed]
      rfl
  | some o =>
    obtain ⟨name, params, w⟩ := o
    rw [fnStep_some opened]
    by_cases lost : w = skipSpace w ∨ skipSpace w = []
    · rw [if_pos lost, entries, run_none (functionPattern_none bare opened (Or.inr lost)), entries_runNext]
      rfl
    · have some_ : name ≠ [] := by
        rintro rfl
        simp only [nameless, opened, if_neg lost, reduceCtorEq] at named
      rw [if_neg lost, entries, run_body opened some_ (not_or.mp lost).1 (not_or.mp lost).2,
        List.filterMap_cons, entries_runNext]
      generalize FunctionMatch.entry _ = found
      cases found <;> rfl

theorem entries_blank {params : Text} (blanks : blank t = some params) :
    ∃ name body, name ≠ [] ∧ trim body = [] ∧
      entries t = (FunctionMatch.entry ⟨name, params, body⟩).toList := by
  obtain ⟨name, body, found, named, empty⟩ := run_blank blanks
  refine ⟨name, body, named, empty, ?_⟩
  rw [entries, found, List.filterMap_cons, List.filterMap_nil]
  cases FunctionMatch.entry ⟨name, params, body⟩ <;> rfl

theorem blank_spent {params : Text} (blanks : blank t = some params) : Spent t := by
  obtain ⟨name, w, opened, -, spaces, -⟩ := blank_some blanks
  exact (spent_iff opened).mpr spaces

theorem entries_eq_of_reads (reads : Reads fnStep t l) (named : ∀ u, Reached t u → nameless u = none)
    (tails : ∀ u, Reached t u → ∀ params ∈ blank u, isVariadic (paramsOf params) = true) :
    entries t = l := by
  induction reads with
  | @stop t ends =>
    cases blanks : blank t with
    | none => rw [entries_step (named t (.here t)) blanks, ends]; exact List.append_nil _
    | some params =>
      obtain ⟨name, body, -, -, found⟩ := entries_blank blanks
      rw [found, (blank_spent blanks).reads (.stop ends), FunctionMatch.entry,
        if_pos (tails t (.here t) params blanks)]
      rfl
  | @next t u l goes later ih =>
    cases blanks : blank t with
    | none =>
      have rest := ih (fun v reached => named v (.next blanks goes reached))
        fun v reached => tails v (.next blanks goes reached)
      rw [entries_step (named t (.here t)) blanks, goes, ← rest]
      rfl
    | some params =>
      obtain ⟨name, body, -, -, found⟩ := entries_blank blanks
      rw [found, (blank_spent blanks).reads (.next goes later), FunctionMatch.entry,
        if_pos (tails t (.here t) params blanks)]
      rfl

theorem entries_of_blank {params : Text} (reached : Reached t u)
    (named : ∀ v, Reached t v → nameless v = none) (blanks : blank u = some params)
    (fixed : isVariadic (paramsOf params) = false) :
    ∃ before name d, entries t = before ++ [(name, d)] ∧ d.expansion = [] := by
  induction reached with
  | here t =>
    obtain ⟨name, body, -, empty, found⟩ := entries_blank blanks
    refine ⟨[], name, ⟨paramsOf params, trim body⟩, ?_, empty⟩
    rw [found, FunctionMatch.entry, if_neg (by simp [fixed])]
    rfl
  | @next t v u open_ goes later ih =>
    obtain ⟨before, name, d, rest, empty⟩ := ih (fun v reached => named v (.next open_ goes reached)) blanks
    refine ⟨(fnStep t).1.toList ++ before, name, d, ?_, empty⟩
    rw [entries_step (named t (.here t)) open_, goes, List.append_assoc, ← rest]
    rfl

theorem trim_ne_nil {c : Char} (first : isSpace c = false) (t : Text) : trim (c :: t) ≠ [] := by
  rw [trim, skipSpace, List.dropWhile_cons_of_neg (by simp [first])]
  intro empty
  have all := List.rdropWhile_eq_nil_iff.mp empty c List.mem_cons_self
  rw [first] at all
  cases all

theorem fnStep_expansion {e : Text × MacroDef} (found : (fnStep t).1 = some e) : e.2.expansion ≠ [] := by
  cases opened : opening t with
  | none =>
    rcases fnStep_none opened with step | ⟨step, -⟩
    · rw [step] at found
      cases found
    · rw [step] at found
      cases found
  | some o =>
    obtain ⟨name, params, w⟩ := o
    rw [fnStep_some opened] at found
    split at found
    · cases found
    next read =>
    rw [FunctionMatch.entry] at found
    split at found
    · cases found
    cases found
    cases shape : skipSpace w with
    | nil => exact absurd shape (not_or.mp read).2
    | cons c x =>
      have first : isSpace c = false := by
        have stop := List.head?_dropWhile_not isSpace w
        rw [← skipSpace, shape] at stop
        simpa using stop
      have plain : (!isTerminator c) = true := by
        cases ends : isTerminator c with
        | false => rfl
        | true =>
          rw [isSpace_of_isTerminator ends] at first
          cases first
      dsimp only
      rw [List.takeWhile_cons, if_pos plain]
      exact trim_ne_nil first _

theorem reads_expansion (reads : Reads fnStep t l) : ∀ e ∈ l, e.2.expansion ≠ [] := by
  induction reads with
  | stop ends =>
    intro e listed
    exact fnStep_expansion (Option.mem_toList.mp listed)
  | next goes later ih =>
    intro e listed
    rcases List.mem_append.mp listed with here | there
    · exact fnStep_expansion (Option.mem_toList.mp here)
    · exact ih e there

theorem fnStep_nameless {params : Text} (found : nameless t = some params)
    (fixed : isVariadic (paramsOf params) = false) : ∃ d, (fnStep t).1 = some ([], d) := by
  rw [nameless] at found
  split at found
  · next opened =>
    split at found
    · cases found
    · next read =>
      cases found
      rw [fnStep_some opened, if_neg read, FunctionMatch.entry, if_neg (by simp [fixed])]
      exact ⟨_, rfl⟩
  · cases found

theorem reads_nameless {params : Text} (reads : Reads fnStep t l) (reached : Reached t u)
    (found : nameless u = some params) (fixed : isVariadic (paramsOf params) = false) :
    ∃ d, ([], d) ∈ l := by
  induction reached generalizing l with
  | here t =>
    obtain ⟨d, first⟩ := fnStep_nameless found fixed
    refine ⟨d, ?_⟩
    cases reads with
    | stop ends => simp [first]
    | next goes later => simp [first]
  | next open_ goes later ih =>
    cases reads with
    | stop ends =>
      rw [ends] at goes
      cases goes
    | next goes' later' =>
      rw [goes] at goes'
      cases goes'
      obtain ⟨d, listed⟩ := ih later' found
      exact ⟨d, List.mem_append_right _ listed⟩

theorem entries_named : ∀ e ∈ entries t, e.1 ≠ [] := by
  intro e listed
  obtain ⟨m, matched, entered⟩ := List.mem_filterMap.mp listed
  obtain ⟨u, rest, found⟩ := run_mem matched
  rw [functionPattern_eq] at found
  obtain ⟨o, -, named⟩ := Option.bind_eq_some_iff.mp found
  split at named
  · cases named
  next some_ =>
  obtain ⟨line, -, same⟩ := Option.map_eq_some_iff.mp named
  cases same
  rw [FunctionMatch.entry] at entered
  split at entered
  · cases entered
  · cases entered
    exact some_

theorem definedStep_next : (definedStep t).2 = nextLine t := by
  rw [definedStep]
  cases head : defineHead t with
  | none => rfl
  | some u =>
    obtain ⟨used, whole, -, heads⟩ := defineHead_some head
    have plain : ∀ c ∈ used ++ wordAt u, isTerminator c = false := by
      intro c listed
      rcases List.mem_append.mp listed with old | old
      · exact (inHead_plain (heads c old)).1
      · exact not_terminator_of_isWord (List.mem_takeWhile_imp old)
    have parts : t = (used ++ wordAt u) ++ afterWord u := by
      rw [List.append_assoc, wordAt_append_afterWord, whole]
    rw [parts, nextLine_append plain]

theorem definedStep_nameless : [] ∈ (definedStep t).1.toList ↔ namelessDefine t := by
  rw [definedStep, namelessDefine]
  cases defineHead t with
  | none => simp
  | some u =>
    rw [Option.toList_some, List.mem_singleton]
    constructor
    · exact fun same => ⟨u, rfl, same.symm⟩
    · rintro ⟨v, ⟨⟩, same⟩
      exact same.symm

theorem reads_nameless_define {names : List Text} (reads : Reads definedStep t names) :
    [] ∈ names ↔ ∃ u, LineStart t u ∧ namelessDefine u := by
  induction reads with
  | @stop t ends =>
    rw [definedStep_nameless]
    rw [definedStep_next] at ends
    constructor
    · exact fun here => ⟨t, Or.inl rfl, here⟩
    · rintro ⟨u, start, found⟩
      rcases lineStart_iff.mp start with rfl | ⟨v, next, -⟩
      · exact found
      · rw [ends] at next
        cases next
  | @next t u names goes later ih =>
    rw [List.mem_append, definedStep_nameless, ih]
    rw [definedStep_next] at goes
    constructor
    · rintro (here | ⟨v, start, found⟩)
      · exact ⟨t, Or.inl rfl, here⟩
      · exact ⟨v, lineStart_iff.mpr (Or.inr ⟨u, goes, start⟩), found⟩
    · rintro ⟨v, start, found⟩
      rcases lineStart_iff.mp start with rfl | ⟨v', next, start⟩
      · exact Or.inl found
      · rw [goes] at next
        cases next
        exact Or.inr ⟨v, start, found⟩

theorem run_defined_step : run definedPattern t =
    ((definedStep t).1.toList.filter fun name => !name.isEmpty) ++
      ((definedStep t).2.map (run definedPattern)).getD [] := by
  rw [definedStep]
  cases head : defineHead t with
  | none =>
    have fails : definedPattern t = none := by rw [definedPattern, head]; rfl
    rw [run_none fails, runNext]
    cases nextLine t <;> rfl
  | some u =>
    by_cases nameless : wordAt u = []
    · have fails : definedPattern t = none := by
        rw [definedPattern, head, Option.bind_some, if_pos nameless]
      have next : nextLine (afterWord u) = nextLine t := by
        have step := definedStep_next (t := t)
        rwa [definedStep, head] at step
      simp only [nameless]
      rw [next, run_none fails, runNext]
      cases nextLine t <;> rfl
    · have found : definedPattern t = some (wordAt u, afterWord u) := by
        rw [definedPattern, head, Option.bind_some, if_neg nameless]
      obtain ⟨used, whole, some_, -⟩ := defineHead_some head
      obtain none_ | ⟨word, c, last⟩ := List.eq_nil_or_concat' (wordAt u)
      · exact absurd none_ nameless
      have parts : t = (used ++ wordAt u) ++ afterWord u := by
        rw [List.append_assoc, wordAt_append_afterWord, whole]
      have plain : isTerminator c = false := by
        have inside : c ∈ wordAt u := by simp [last]
        exact not_terminator_of_isWord (List.mem_takeWhile_imp inside)
      have step : run definedPattern t = wordAt u :: runNext definedPattern (afterWord u) := by
        rw [parts] at found ⊢
        refine run_some found (by simp [some_]) (Or.inl ?_)
        rw [last, ← List.append_assoc, List.getLast?_append, List.getLast?_singleton]
        simp [plain]
      rw [step, runNext]
      have kept : (!(wordAt u).isEmpty) = true := by simpa using nameless
      simp only [Option.toList_some, List.filter_cons, kept, if_true, List.filter_nil]
      cases nextLine (afterWord u) <;> rfl

theorem run_defined {names : List Text} (reads : Reads definedStep t names) :
    run definedPattern t = names.filter fun name => !name.isEmpty := by
  induction reads with
  | stop ends =>
    rw [run_defined_step, ends]
    exact List.append_nil _
  | next goes later ih =>
    rw [run_defined_step, goes, List.filter_append, ← ih]
    rfl

theorem objectPattern_newline : objectPattern ('\n' :: t) = none := by
  have head : defineHead ('\n' :: t) = none := rfl
  rw [objectPattern, definedPattern, head]
  rfl

theorem run_object_step : (run objectPattern t).map (fun m => (m.1, trim m.2)) =
    (objStep t).1.toList ++
      ((objStep t).2.map fun u => (run objectPattern u).map fun m => (m.1, trim m.2)).getD [] := by
  have skip : objectPattern t = none → (run objectPattern t).map (fun m => (m.1, trim m.2)) =
      ((nextLine t).map fun u => (run objectPattern u).map fun m => (m.1, trim m.2)).getD [] := by
    intro fails
    rw [run_none fails, runNext]
    cases nextLine t <;> rfl
  have pattern := objectPattern_eq t
  rw [definedPattern] at pattern
  rw [objStep]
  cases head : defineHead t with
  | none =>
    apply skip
    rw [pattern, head]
    rfl
  | some u =>
    rw [head, Option.bind_some] at pattern
    by_cases nameless : wordAt u = []
    · have after : afterWord u = u := by
        conv_rhs => rw [← wordAt_append_afterWord u, nameless, List.nil_append]
      rw [if_pos nameless, Option.bind_none] at pattern
      simp only [after, defineHead_stops head]
      cases u with
      | nil => exact skip pattern
      | cons c w =>
        simp only [true_or, if_true]
        exact skip pattern
    rw [if_neg nameless, Option.bind_some] at pattern
    dsimp only at pattern ⊢
    cases value : skipBlanks (afterWord u) with
    | nil =>
      rw [value] at pattern
      exact skip pattern
    | cons c w =>
      rw [value] at pattern
      dsimp only at pattern ⊢
      by_cases stops : afterWord u = c :: w ∨ isSpace c = true
      · rw [if_pos stops] at pattern ⊢
        exact skip pattern
      · rw [if_neg stops] at pattern ⊢
        obtain ⟨used, whole, some_, -⟩ := defineHead_some head
        obtain ⟨blanks, gap, -⟩ := dropWhile_eq (p := isBlank) (afterWord u)
        rw [← skipBlanks, value] at gap
        have parts : t = (used ++ (wordAt u ++ (blanks ++ (c :: w).takeWhile (· ≠ '\n')))) ++
            (c :: w).dropWhile (· ≠ '\n') := by
          simp only [List.append_assoc, List.takeWhile_append_dropWhile, ← gap, wordAt_append_afterWord,
            ← whole]
        generalize (c :: w).takeWhile (· ≠ '\n') = line at parts pattern ⊢
        have next : ∀ d x, (c :: w).dropWhile (· ≠ '\n') = d :: x → d = '\n' := by
          intro d x rest
          have stop := List.head?_dropWhile_not (fun c => decide (c ≠ '\n')) (c :: w)
          rw [rest] at stop
          simpa using stop
        generalize (c :: w).dropWhile (· ≠ '\n') = rest at parts pattern next ⊢
        have ends : objectPattern rest = none ∧ runNext objectPattern rest =
            (rest.tail?.map (run objectPattern)).getD [] := by
          cases rest with
          | nil => exact ⟨rfl, rfl⟩
          | cons d x =>
            obtain rfl := next d x rfl
            exact ⟨objectPattern_newline, rfl⟩
        have step : run objectPattern t = (wordAt u, line) :: runNext objectPattern rest := by
          rw [parts] at pattern ⊢
          exact run_some pattern (by simp [some_]) (Or.inr ends.1)
        rw [step, ends.2]
        cases rest <;> rfl

theorem run_object {found : List (Text × Text)} (reads : Reads objStep t found) :
    (run objectPattern t).map (fun m => (m.1, trim m.2)) = found := by
  induction reads with
  | stop ends =>
    rw [run_object_step, ends]
    exact List.append_nil _
  | next goes later ih =>
    rw [run_object_step, goes, ← ih]
    rfl

/-! ### Both sides -/

theorem fnStep_shorter (t u : Text) (goes : (fnStep t).2 = some u) : u.length < t.length := by
  cases opened : opening t with
  | none =>
    rcases fnStep_none opened with step | ⟨step, -⟩
    · rw [step] at goes
      exact nextLine_length goes
    · rw [step] at goes
      cases goes
  | some o =>
    obtain ⟨name, params, w⟩ := o
    rw [fnStep_some opened] at goes
    split at goes
    · exact nextLine_length goes
    · obtain ⟨head, whole, -⟩ := opening_some opened
      have rest := nextLine_length goes
      have part := (List.dropWhile_suffix (l := skipSpace w) fun c => !isTerminator c).length_le
      have part' := (List.dropWhile_suffix (l := w) isSpace).length_le
      rw [← skipSpace] at part'
      rw [whole]
      simp only [List.length_append, List.length_cons]
      omega

theorem objStep_shorter (t u : Text) (goes : (objStep t).2 = some u) : u.length < t.length := by
  rw [objStep] at goes
  cases head : defineHead t with
  | none =>
    rw [head] at goes
    exact nextLine_length goes
  | some v =>
    rw [head] at goes
    dsimp only at goes
    obtain ⟨used, whole, -⟩ := defineHead_some head
    split at goes
    · exact nextLine_length goes
    next c w value =>
    split at goes
    · exact nextLine_length goes
    dsimp only at goes
    split at goes
    · cases goes
    next d rest line =>
    cases goes
    have part := (List.dropWhile_suffix (l := c :: w) fun c => decide (c ≠ '\n')).length_le
    have part' := (List.dropWhile_suffix (l := afterWord v) isBlank).length_le
    have part'' := (List.dropWhile_suffix (l := v) isWord).length_le
    rw [← skipBlanks, value] at part'
    rw [← afterWord] at part''
    rw [line, List.length_cons] at part
    rw [whole, List.length_append]
    omega

theorem definedStep_shorter (t u : Text) (goes : (definedStep t).2 = some u) : u.length < t.length := by
  rw [definedStep_next] at goes
  exact nextLine_length goes

theorem object_tables (t : Text) : (fileEnv (encode t)).objMacros.map objEntry =
    (objectMatches t).map fun m => (m.1, trim m.2) := by
  rw [fileEnv, objectMatches, hasDefine_encode]
  split
  · obtain ⟨found, reads⟩ := exists_reads objStep_shorter (joinContinuations t)
    rw [← run, run_object reads, joinContinuations_encode]
    exact parseObjMacros_at reads
  · rfl

theorem defined_tables (t : Text) :
    (∀ name, name ∈ (fileEnv (encode t)).defined.map String.toList ↔ name ∈ parseDefinedNames t) ↔
      (hasDefine t = true → ∀ u, LineStart t u → ¬namelessDefine u) := by
  rw [fileEnv, parseDefinedNames, hasDefine_encode]
  by_cases defines : hasDefine t = true
  · obtain ⟨names, reads⟩ := exists_reads definedStep_shorter t
    have found : execAll definedPattern true 0 t = names.filter fun name => !name.isEmpty :=
      run_defined reads
    simp only [defines, if_true, forall_const, parseDefinedNames_at reads, List.mem_eraseDups, found,
      List.mem_filter, iff_self_and, Bool.not_eq_true', List.isEmpty_eq_false_iff]
    have empty := reads_nameless_define reads
    constructor
    · intro named u start found
      exact named [] (empty.mpr ⟨u, start, found⟩) rfl
    · rintro clean name listed rfl
      obtain ⟨u, start, found⟩ := empty.mp listed
      exact clean u start found
  · simp [defines]

/-- Beyond the line starts where the sides part, one is hidden: a definition without a name and with a
variable list of parameters, which is entered by neither, but whose text only one of them passes over. -/
def Hidden (t : Text) : Prop :=
  (∀ u, LineStart t u → ¬namelessDefine u) ∧
    ∃ u params, Reached (joinContinuations t) u ∧ nameless u = some params ∧
      isVariadic (paramsOf params) = true

theorem function_tables (defines : hasDefine t = true) :
    ∃ l, Reads fnStep (joinContinuations t) l ∧ (fileEnv (encode t)).fnMacros.map FnMacro.entry = l ∧
      parseFunctionMacros t = toMap (entries (joinContinuations t)) := by
  obtain ⟨l, reads⟩ := exists_reads fnStep_shorter (joinContinuations t)
  refine ⟨l, reads, ?_, ?_⟩
  · rw [fileEnv, hasDefine_encode, if_pos defines, joinContinuations_encode]
    exact parseFnMacros_at reads
  · rw [parseFunctionMacros, functionMatches, if_pos defines]
    rfl

/-- The native tables are those of the patterns where no definition without a name and no tail of white
space is read, and nowhere else, but for hidden definitions. -/
theorem fileEnv_agrees_iff (t : Text) :
    ((hasDefine t = true → Clean t) → Agree t) ∧
      (Agree t → (hasDefine t = true → Clean t) ∨ Hidden t) := by
  have objects : ∀ name,
      InsertionMap.lookup (toMap ((fileEnv (encode t)).objMacros.map objEntry)) name =
        InsertionMap.lookup (parseObjectMacros t) name := by
    intro name
    rw [object_tables, parseObjectMacros]
  constructor
  · intro clean
    refine ⟨fun name => ?_, objects, (defined_tables t).mpr fun defines => (clean defines).named⟩
    by_cases defines : hasDefine t = true
    · obtain ⟨l, reads, native, table⟩ := function_tables defines
      rw [native, table, entries_eq_of_reads reads (clean defines).functions (clean defines).tails]
    · rw [fileEnv, parseFunctionMacros, functionMatches, hasDefine_encode, if_neg defines, if_neg defines]
      rfl
  · rintro ⟨functions, -, names⟩
    by_cases hidden : Hidden t
    · exact Or.inr hidden
    refine Or.inl fun defines => ?_
    have starts := (defined_tables t).mp names defines
    obtain ⟨l, reads, native, table⟩ := function_tables defines
    rw [native, table] at functions
    have named : ∀ u, Reached (joinContinuations t) u → nameless u = none := by
      intro u reached
      cases found : nameless u with
      | none => rfl
      | some params =>
        cases fixed : isVariadic (paramsOf params) with
        | true => exact absurd ⟨starts, u, params, reached, found, fixed⟩ hidden
        | false =>
          obtain ⟨d, listed⟩ := reads_nameless reads reached found fixed
          have none_ := lookup_toMap_none.mpr (entries_named (t := joinContinuations t))
          rw [← functions [], lookup_toMap_none] at none_
          exact absurd rfl (none_ _ listed)
    refine ⟨starts, named, fun u reached params blanks => ?_⟩
    cases fixed : isVariadic (paramsOf params) with
    | true => rfl
    | false =>
      obtain ⟨before, name, d, whole, empty⟩ := entries_of_blank reached named blanks fixed
      have last : InsertionMap.lookup (toMap (entries (joinContinuations t))) name = some d := by
        rw [lookup_toMap, whole]
        simp
      rw [← functions name] at last
      exact absurd empty (reads_expansion reads _ (mem_of_lookup_toMap last))

theorem fileEnv_agrees_iff_define : Agree "#define F(x) x".toList := by
  refine (fileEnv_agrees_iff _).1 fun _ => ⟨?_, ?_, ?_⟩
  · rintro u (rfl | ⟨before, c, parts, ends⟩) ⟨v, head, word⟩
    · have at_ : defineHead "#define F(x) x".toList = some "F(x) x".toList := by decide
      rw [at_] at head
      cases head
      revert word
      decide
    · have plain : ∀ c ∈ "#define F(x) x".toList, isTerminator c = false := by decide
      rw [plain c (by rw [parts]; simp)] at ends
      cases ends
  · rintro u (_ | ⟨open_, goes, later⟩)
    · decide
    · have last : (fnStep (joinContinuations "#define F(x) x".toList)).2 = none := by decide
      rw [last] at goes
      cases goes
  · rintro u (_ | ⟨open_, goes, later⟩) params found
    · have none_ : blank (joinContinuations "#define F(x) x".toList) = none := by decide
      rw [none_] at found
      cases found
    · have last : (fnStep (joinContinuations "#define F(x) x".toList)).2 = none := by decide
      rw [last] at goes
      cases goes

/-- A macro without a body before the end of the file: the patterns enter it, the native reader does not. -/
theorem fileEnv_drops_empty_macro : ¬Agree "#define F(x)  \n".toList := by
  rintro ⟨functions, -⟩
  have reads : Reads fnStep (joinContinuations "#define F(x)  \n".toList) [] :=
    .next (u := []) (by decide) (.stop (by decide))
  have here := functions ['F']
  rw [fileEnv, hasDefine_encode, if_pos (by decide), joinContinuations_encode] at here
  dsimp only at here
  rw [parseFnMacros_at reads] at here
  revert here
  decide

end CodeGraph.Resolution.Macros
