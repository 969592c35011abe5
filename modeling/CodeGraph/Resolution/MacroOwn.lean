import CodeGraph.Foundation.Lines
import CodeGraph.Resolution.MacroLines

/-!
# Which definitions are a file's own

A run over a definition finds what the definition is taken for and goes on with the next line, unless
an empty definition takes the text of another one.
-/
namespace CodeGraph.Resolution.Macros

open JsText

variable {α : Type} {pattern : Text → Option (α × Text)} {a : α} {t u w x y z used left : Text}
  {d : Definition} {p : Params} {rest : List Line} {name : Text}

theorem spanned_some (found : pattern (used ++ left) = some (a, left)) :
    spanned pattern (used ++ left) = some ((a, used), left) := by
  rw [spanned, found]
  simp

theorem spanned_none (fails : pattern t = none) : spanned pattern t = none := by
  rw [spanned, fails]
  rfl

theorem execAll_spanned (start : Bool) (skip : Nat) (t : Text) :
    (execAll (spanned pattern) start skip t).map Prod.fst = execAll pattern start skip t := by
  induction t generalizing start skip with
  | nil => rfl
  | cons c t ih =>
    cases skip with
    | succ skip => exact ih _ _
    | zero =>
      rw [execAll, execAll]
      have same : (if start then spanned pattern (c :: t) else none) =
          (if start then pattern (c :: t) else none).map
            fun m => ((m.1, (c :: t).take ((c :: t).length - m.2.length)), m.2) := by
        cases start <;> rfl
      rw [same]
      generalize (if start then pattern (c :: t) else none) = m
      cases m with
      | none => exact ih _ _
      | some m => rw [Option.map_some, List.map_cons, ih]

theorem run_spanned (found : pattern (used ++ left) = some (a, left)) (some_ : used ≠ [])
    (ends : used.getLast?.all (fun c => !isTerminator c) ∨ pattern left = none) :
    run (spanned pattern) (used ++ left) = (a, used) :: runNext (spanned pattern) left :=
  run_some (spanned_some found) some_ (ends.imp id spanned_none)

/-! ### The end of a line -/

def Definition.carriageText (d : Definition) : Text := if d.carriage then ['\r'] else []

def Definition.core (d : Definition) : Text :=
  d.head.text ++ (d.name.1 ++ (d.list ++ (d.gap.1 ++ (d.replacement.text ++ d.rest.1))))

theorem Definition.text_eq (d : Definition) : d.text = d.core ++ d.carriageText := by
  simp only [Definition.text, Definition.tail, Definition.core, Definition.carriageText, List.append_assoc]

theorem after_eq (d : Definition) (rest : List Line) : d.after rest =
    d.gap.1 ++ (d.replacement.text ++ (d.rest.1 ++ (d.carriageText ++ following rest))) := by
  simp only [Definition.after, Definition.tail, Definition.carriageText, List.append_assoc]

theorem Params.plain (p : Params) : ∀ c ∈ p.text, isTerminator c = false := by
  intro c listed
  have inner : isBlank c = true ∨ isWord c = true → isTerminator c = false := by
    rintro (blank | word)
    · exact Blanks.plain ⟨[c], by simpa using blank⟩ c List.mem_cons_self
    · exact not_terminator_of_isWord word
  rw [Params.text] at listed
  split at listed
  · exact inner (Or.inl (p.blanks.2 c listed))
  · rcases mem_intercalate listed with rfl | ⟨l, among, inside⟩
    · rfl
    · obtain ⟨q, -, rfl⟩ := List.mem_map.mp among
      exact inner (Param.mem inside)

theorem Definition.core_plain (d : Definition) : ∀ c ∈ d.core, isTerminator c = false := by
  have list : ∀ c ∈ d.list, isTerminator c = false := by
    intro c listed
    rw [Definition.list] at listed
    split at listed
    · cases listed
    · simp only [List.mem_cons, List.mem_append, List.not_mem_nil, or_false] at listed
      rcases listed with rfl | old | rfl
      · rfl
      · exact Params.plain _ c old
      · rfl
  intro c listed
  simp only [Definition.core, List.mem_append] at listed
  rcases listed with old | old | old | old | old | old
  · exact (inHead_plain (d.head.inHead c old)).1
  · exact not_terminator_of_isWord (d.name.2.2 c old)
  · exact list c old
  · exact d.gap.plain c old
  · exact d.replacement.line c old
  · exact d.rest.plain c old

theorem carriage_first (d : Definition) (rest : List Line) :
    ∀ c ∈ (d.carriageText ++ following rest).head?, isTerminator c = true := by
  intro c first
  rw [Definition.carriageText] at first
  split at first
  · cases first
    rfl
  · rw [cut_following rest c first]
    rfl

theorem takeWhile_plain {x : Text} (plain : ∀ c ∈ x, isTerminator c = false) {z : Text}
    (ends : ∀ c ∈ z.head?, isTerminator c = true) :
    (x ++ z).takeWhile (fun c => !isTerminator c) = x ∧
      (x ++ z).dropWhile (fun c => !isTerminator c) = z := by
  have all : ∀ c ∈ x, (!isTerminator c) = true := fun c listed => by simp [plain c listed]
  rw [List.takeWhile_append_of_pos all, List.dropWhile_append_of_pos all]
  cases z with
  | nil => exact ⟨List.append_nil x, rfl⟩
  | cons c z =>
    have stop : ¬(!isTerminator c) = true := by simp [ends c rfl]
    rw [List.takeWhile_cons, List.dropWhile_cons, if_neg stop, if_neg stop, List.append_nil]
    exact ⟨rfl, rfl⟩

theorem runNext_following (rest : List Line) :
    runNext pattern (following rest) = run pattern (textOf rest) := by
  cases rest with
  | nil => rfl
  | cons line rest => rfl

section Headed

variable (headed : ∀ t, defineHead t = none → pattern t = none)

include headed

theorem spanned_headed : ∀ t, defineHead t = none → spanned pattern t = none :=
  fun t none_ => spanned_none (headed t none_)

theorem runNext_carriage (d : Definition) (rest : List Line) :
    runNext pattern (d.carriageText ++ following rest) = run pattern (textOf rest) := by
  rw [Definition.carriageText]
  split
  · have next : nextLine (['\r'] ++ following rest) = some (following rest) := rfl
    rw [runNext, next]
    exact run_quiet_line headed Quiet.nil rest
  · exact runNext_following rest

theorem run_line (d : Definition) (rest : List Line)
    (fails : pattern (d.text ++ following rest) = none) :
    run pattern (d.text ++ following rest) = run pattern (textOf rest) := by
  have next : nextLine (d.text ++ following rest) = nextLine (d.carriageText ++ following rest) := by
    rw [d.text_eq, List.append_assoc, nextLine_append d.core_plain]
  rw [run_none fails, runNext, next, ← runNext, runNext_carriage headed]

end Headed

theorem functionPattern_headed (t : Text) (none_ : defineHead t = none) : functionPattern t = none := by
  rw [functionPattern, definedPattern, none_]
  rfl

theorem objectPattern_headed (t : Text) (none_ : defineHead t = none) : objectPattern t = none := by
  rw [objectPattern, definedPattern, none_]
  rfl

theorem Replacement.first (r : Replacement) {c : Char} {x : Text} (shape : r.text = c :: x) :
    isSpace c = false := by
  have start := skipSpace_trimmed r.trimmed
  have stop := List.head?_dropWhile_not isSpace r.text
  rw [← skipSpace, start, shape] at stop
  simpa using stop

/-- A definition that is not empty and has white space after its parameters is read to its end. -/
theorem functionPattern_read (has : d.params = some p) (some_ : d.replacement.text ≠ [])
    (apart : d.gap.1 ≠ []) : functionPattern (d.core ++ (d.carriageText ++ following rest)) =
      some (⟨d.name.1, p.text, d.replacement.text ++ d.rest.1⟩, d.carriageText ++ following rest) := by
  have opened : opening (d.text ++ following rest) = _ := opening_function has
  rw [d.text_eq, List.append_assoc] at opened
  obtain ⟨c, x, shape⟩ := List.exists_cons_of_ne_nil some_
  have first := d.replacement.first shape
  have skip : skipSpace (d.after rest) =
      d.replacement.text ++ (d.rest.1 ++ (d.carriageText ++ following rest)) := by
    rw [after_eq, skipSpace, List.dropWhile_append_of_pos d.gap.space, shape, List.cons_append,
      List.dropWhile_cons_of_neg (by simp [first])]
  have moves : d.after rest ≠ skipSpace (d.after rest) := by
    intro same
    have length := congrArg List.length (after_eq d rest)
    rw [same, skip, List.length_append] at length
    have positive := List.length_pos_iff.mpr apart
    simp only [List.length_append] at length
    omega
  have plain : ∀ c ∈ d.replacement.text ++ d.rest.1, isTerminator c = false := by
    intro c listed
    rcases List.mem_append.mp listed with old | old
    · exact d.replacement.line c old
    · exact d.rest.plain c old
  obtain ⟨line, left⟩ := takeWhile_plain plain (carriage_first d rest)
  rw [functionPattern_some opened d.name.2.1, lineAfterSpace_some moves (by rw [skip, shape]; simp), skip,
    ← List.append_assoc d.replacement.text, line, left]
  rfl

theorem textOf_cons (line : Line) (lines : List Line) :
    textOf (line :: lines) = line.text ++ following lines := by
  cases lines with
  | nil => exact (List.append_nil _).symm
  | cons next lines => rfl

theorem Definition.core_ne_nil (d : Definition) : d.core ≠ [] := by
  simp [Definition.core, Head.text]

theorem run_read (has : d.params = some p) (some_ : d.replacement.text ≠ []) (apart : d.gap.1 ≠ []) :
    run (spanned functionPattern) (d.text ++ following rest) =
      (⟨d.name.1, p.text, d.replacement.text ++ d.rest.1⟩, d.core) ::
        run (spanned functionPattern) (textOf rest) := by
  have ends : d.core.getLast?.all (fun c => !isTerminator c) = true := by
    cases last : d.core.getLast? with
    | none => rfl
    | some c => simp [d.core_plain c (List.mem_of_getLast? last)]
  rw [d.text_eq, List.append_assoc,
    run_spanned (functionPattern_read has some_ apart) d.core_ne_nil (Or.inl ends),
    runNext_carriage (spanned_headed functionPattern_headed)]

/-! ### White space and the line after it -/

def stretch (y : Text) : Text :=
  y.takeWhile isSpace ++ (skipSpace y).takeWhile fun c => !isTerminator c

def beyond (y : Text) : Text := (skipSpace y).dropWhile fun c => !isTerminator c

theorem stretch_beyond (y : Text) : stretch y ++ beyond y = y := by
  rw [stretch, beyond, List.append_assoc, List.takeWhile_append_dropWhile, skipSpace,
    List.takeWhile_append_dropWhile]

theorem stretch_white (white : ∀ c ∈ x, isSpace c = true) (y : Text) :
    stretch (x ++ y) = x ++ stretch y ∧ beyond (x ++ y) = beyond y := by
  have skip : skipSpace (x ++ y) = skipSpace y := List.dropWhile_append_of_pos white
  rw [stretch, beyond, skip, List.takeWhile_append_of_pos white, List.append_assoc]
  exact ⟨rfl, rfl⟩

theorem stretch_last (more : skipSpace y ≠ []) :
    ∃ before c, stretch y = before ++ [c] ∧ isTerminator c = false := by
  obtain none_ | ⟨line, c, last⟩ := List.eq_nil_or_concat'
    ((skipSpace y).takeWhile fun c => !isTerminator c)
  · exact absurd (firstLine_nil.mp none_) more
  · have inside : c ∈ (skipSpace y).takeWhile fun c => !isTerminator c := by simp [last]
    refine ⟨y.takeWhile isSpace ++ line, c, ?_, by simpa using List.mem_takeWhile_imp inside⟩
    rw [stretch, last, List.append_assoc]

/-- It ends with the first line that is not white. -/
theorem stretch_append (more : skipSpace x ≠ []) (ends : ∀ c ∈ z.head?, isTerminator c = true) :
    stretch (x ++ z) = stretch x ∧ beyond (x ++ z) = beyond x ++ z := by
  have drop : skipSpace (x ++ z) = skipSpace x ++ z := by
    rw [skipSpace, List.dropWhile_append, if_neg (by rwa [List.isEmpty_iff])]
    rfl
  have take : (x ++ z).takeWhile isSpace = x.takeWhile isSpace := by
    have left := List.takeWhile_append_dropWhile (p := isSpace) (l := x ++ z)
    have right := List.takeWhile_append_dropWhile (p := isSpace) (l := x)
    rw [← skipSpace, drop, ← List.append_assoc] at left
    rw [← skipSpace] at right
    exact List.append_cancel_right ((List.append_cancel_right left).trans right.symm)
  have plain : ∀ c ∈ (skipSpace x).takeWhile (fun c => !isTerminator c), isTerminator c = false := by
    intro c listed
    simpa using List.mem_takeWhile_imp listed
  have first : ∀ c ∈ ((skipSpace x).dropWhile (fun c => !isTerminator c) ++ z).head?,
      isTerminator c = true := by
    have stop := List.head?_dropWhile_not (fun c => !isTerminator c) (skipSpace x)
    cases rest : (skipSpace x).dropWhile fun c => !isTerminator c with
    | nil => exact ends
    | cons d r =>
      rintro c ⟨⟩
      rw [rest] at stop
      simpa using stop
  have cut := takeWhile_plain plain first
  rw [← List.append_assoc, List.takeWhile_append_dropWhile] at cut
  rw [stretch, stretch, beyond, beyond, drop, take, cut.1, cut.2]
  exact ⟨rfl, rfl⟩

theorem stretch_plain (plain : ∀ c ∈ x, isTerminator c = false) : stretch x = x := by
  have all : ∀ c ∈ skipSpace x, (!isTerminator c) = true := by
    intro c listed
    simp [plain c ((List.dropWhile_suffix isSpace).subset listed)]
  rw [stretch, List.takeWhile_eq_self_iff.mpr all, skipSpace, List.takeWhile_append_dropWhile]

theorem stretch_subset (x : Text) : ∀ c ∈ stretch x, c ∈ x := by
  intro c listed
  rw [← stretch_beyond x]
  exact List.mem_append_left _ listed

theorem following_first (rest : List Line) : ∀ c ∈ (following rest).head?, isTerminator c = true := by
  intro c first
  rw [cut_following rest c first]
  rfl

/-- A white line and its end belong to the white space before the next one. -/
theorem stretch_line (white : skipSpace x = []) (y : Text) :
    skipSpace (x ++ '\n' :: y) = skipSpace y ∧ stretch (x ++ '\n' :: y) = x ++ '\n' :: stretch y ∧
      beyond (x ++ '\n' :: y) = beyond y := by
  have blank : ∀ c ∈ x ++ ['\n'], isSpace c = true := by
    intro c listed
    rcases mem_snoc.mp listed with old | end_
    · exact skipSpace_nil.mp white c old
    · rw [end_]
      rfl
  have whole : x ++ '\n' :: y = (x ++ ['\n']) ++ y := by rw [List.append_assoc, List.singleton_append]
  obtain ⟨same, left⟩ := stretch_white blank y
  rw [whole, same, left, skipSpace, List.dropWhile_append_of_pos blank]
  exact ⟨rfl, by rw [List.append_assoc, List.singleton_append], rfl⟩

theorem Definition.text_space (d : Definition) : skipSpace d.text ≠ [] := by
  intro white
  have listed : '#' ∈ d.text := by simp [Definition.text, Head.text]
  cases skipSpace_nil.mp white '#' listed

theorem white_plain {line : Line} (white : skipSpace line.text = []) : '\n' ∉ line.text := by
  cases line with
  | definition d => exact absurd white d.text_space
  | other x plain quiet => exact plain

section Headed

variable (headed : ∀ t, defineHead t = none → pattern t = none)

include headed

theorem run_stretch (quiet : Quiet x) (more : skipSpace x ≠ []) (cut : Cut z) :
    run pattern (x ++ z) = runNext pattern (beyond x ++ z) := by
  have pass : execAll pattern true 0 (stretch x ++ (beyond x ++ z)) =
      execAll pattern ((stretch x).getLast?.elim true isTerminator) 0 (beyond x ++ z) := by
    apply execAll_pass
    intro a b parts some_ starts
    apply headed
    have whole : x = a ++ (b ++ beyond x) := by rw [← List.append_assoc, ← parts, stretch_beyond]
    have start : LineStart x (b ++ beyond x) := by
      have from_ : LineStart (a ++ (b ++ beyond x)) (b ++ beyond x) := lineStart_append starts
      rwa [← whole] at from_
    rw [← List.append_assoc, defineHead_cut cut, quiet _ start]
    rfl
  rw [← List.append_assoc, stretch_beyond] at pass
  rw [run, pass, ← execAll_within]
  obtain ⟨before, c, last, plain⟩ := stretch_last more
  rw [last, List.getLast?_concat]
  simp [plain]

theorem run_beyond (lines : List Line) (more : skipSpace (textOf lines) ≠ [])
    (alone : ∀ next ∈ lines.find? (fun line => skipSpace line.text ≠ []), ∀ e, next ≠ .definition e) :
    run pattern (textOf lines) = runNext pattern (beyond (textOf lines)) ∧
      ∀ line ∈ (stretch (textOf lines)).splitOn '\n', defineHead line = none := by
  induction lines with
  | nil => exact absurd rfl more
  | cons line lines ih =>
    rw [textOf_cons] at more ⊢
    by_cases white : skipSpace line.text = []
    · have later : (line :: lines).find? (fun line => skipSpace line.text ≠ []) =
          lines.find? fun line => skipSpace line.text ≠ [] := by
        rw [List.find?_cons_of_neg (by simpa using white)]
      obtain ⟨next, others, rfl⟩ : ∃ next others, lines = next :: others := by
        rcases lines with _ | ⟨next, others⟩
        · rw [following, List.append_nil] at more
          exact absurd white more
        · exact ⟨next, others, rfl⟩
      obtain ⟨skips, same, left⟩ := stretch_line white (textOf (next :: others))
      have here : line.text ++ following (next :: others) =
        line.text ++ '\n' :: textOf (next :: others) := rfl
      rw [here, skips] at more
      rw [later] at alone
      obtain ⟨passed, single⟩ := ih more alone
      have quiet : Quiet line.text := Quiet.white (skipSpace_nil.mp white)
      refine ⟨?_, ?_⟩
      · rw [run_quiet_line headed quiet, passed, here, left]
      · rw [here, same, List.splitOn_append_cons_self_of_not_mem (white_plain white)]
        intro u listed
        rcases List.mem_cons.mp listed with rfl | old
        · exact quiet _ (Or.inl rfl)
        · exact single u old
    · have first : (line :: lines).find? (fun line => skipSpace line.text ≠ []) = some line := by
        rw [List.find?_cons_of_pos (by simpa using white)]
      cases line with
      | definition e => exact absurd rfl (alone _ first e)
      | other x plain quiet =>
        obtain ⟨same, left⟩ := stretch_append (x := x) white (following_first lines)
        refine ⟨?_, ?_⟩
        · rw [show Line.text _ = x from rfl, left]
          exact run_stretch headed quiet white (cut_following lines)
        · rw [show Line.text _ = x from rfl, same]
          have single : (stretch x).splitOn '\n' = [stretch x] :=
            List.splitOn_eq_singleton fun listed => plain (stretch_subset x _ listed)
          rw [single]
          intro line listed
          rw [List.mem_singleton.mp listed]
          apply defineHead_more (y := beyond x)
          rw [stretch_beyond]
          exact quiet x (Or.inl rfl)

end Headed

theorem stretch_definition (lines : List Line) {e : Definition}
    (next : lines.find? (fun line => skipSpace line.text ≠ []) = some (.definition e)) :
    ∃ line ∈ (stretch (textOf lines)).splitOn '\n', defineHead line ≠ none := by
  induction lines with
  | nil => cases next
  | cons line lines ih =>
    rw [textOf_cons]
    by_cases white : skipSpace line.text = []
    · rw [List.find?_cons_of_neg (by simpa using white)] at next
      obtain ⟨second, others, rfl⟩ : ∃ second others, lines = second :: others := by
        rcases lines with _ | ⟨second, others⟩
        · cases next
        · exact ⟨second, others, rfl⟩
      obtain ⟨found, listed, head⟩ := ih next
      have same := (stretch_line white (textOf (second :: others))).2.1
      have here : line.text ++ following (second :: others) =
        line.text ++ '\n' :: textOf (second :: others) := rfl
      rw [here, same, List.splitOn_append_cons_self_of_not_mem (white_plain white)]
      exact ⟨found, List.mem_cons_of_mem _ listed, head⟩
    · rw [List.find?_cons_of_pos (by simpa using white)] at next
      obtain rfl := Option.some.inj next
      have more : skipSpace e.core ≠ [] := by
        intro white
        have listed : '#' ∈ e.core := by simp [Definition.core, Head.text]
        cases skipSpace_nil.mp white '#' listed
      have whole : Line.text (.definition e) ++ following lines =
          e.core ++ (e.carriageText ++ following lines) := by
        rw [show Line.text (.definition e) = e.text from rfl, e.text_eq, List.append_assoc]
      have plain : '\n' ∉ e.core := fun listed => by cases e.core_plain _ listed
      rw [whole, (stretch_append more (carriage_first e lines)).1, stretch_plain e.core_plain,
        List.splitOn_eq_singleton plain]
      refine ⟨e.core, List.mem_singleton_self _, ?_⟩
      rw [Definition.core, defineHead_append]
      exact Option.some_ne_none _

/-! ### Empty definitions -/

theorem Definition.after_white (empty : d.replacement.text = []) (rest : List Line) :
    skipSpace (d.after rest) = skipSpace (following rest) := by
  have carriage : ∀ c ∈ d.carriageText, isSpace c = true := by
    intro c listed
    rw [Definition.carriageText] at listed
    split at listed
    · rw [List.mem_singleton.mp listed]
      rfl
    · cases listed
  rw [after_eq, empty, List.nil_append, skipSpace, List.dropWhile_append_of_pos d.gap.space,
    List.dropWhile_append_of_pos d.rest.space, List.dropWhile_append_of_pos carriage]
  rfl

theorem Definition.text_plain (d : Definition) : '\n' ∉ d.text := by
  rw [d.text_eq]
  intro listed
  rcases List.mem_append.mp listed with old | old
  · cases d.core_plain _ old
  · rw [Definition.carriageText] at old
    split at old
    · cases List.mem_singleton.mp old
    · cases old

/-- An empty definition takes the text that comes next, however many lines below. -/
theorem run_swallow {next : Line} {others : List Line} (has : d.params = some p)
    (empty : d.replacement.text = []) (more : skipSpace (textOf (next :: others)) ≠ []) :
    run (spanned functionPattern) (textOf (.definition d :: next :: others)) =
      (⟨d.name.1, p.text, (skipSpace (textOf (next :: others))).takeWhile fun c => !isTerminator c⟩,
        d.text ++ '\n' :: stretch (textOf (next :: others))) ::
          runNext (spanned functionPattern) (beyond (textOf (next :: others))) := by
  generalize below : textOf (next :: others) = y at more ⊢
  have after : d.after (next :: others) = d.tail ++ '\n' :: y := by
    rw [← below]
    rfl
  have skip : skipSpace (d.after (next :: others)) = skipSpace y := by
    rw [Definition.after_white empty, following, below]
    rfl
  have moves : d.after (next :: others) ≠ skipSpace (d.after (next :: others)) := by
    intro same
    have length := congrArg List.length same
    have short := (List.dropWhile_suffix isSpace (l := y)).length_le
    rw [skip, after, List.length_append, List.length_cons] at length
    rw [← skipSpace] at short
    omega
  have whole : textOf (.definition d :: next :: others) = (d.text ++ '\n' :: stretch y) ++ beyond y := by
    rw [List.append_assoc, List.cons_append, stretch_beyond, ← below]
    rfl
  have opened : opening (textOf (.definition d :: next :: others)) =
      some (d.name.1, p.text, d.after (next :: others)) := by
    rw [textOf_cons]
    exact opening_function has
  have found : functionPattern ((d.text ++ '\n' :: stretch y) ++ beyond y) =
      some (⟨d.name.1, p.text, (skipSpace y).takeWhile fun c => !isTerminator c⟩, beyond y) := by
    rw [← whole, functionPattern_some opened d.name.2.1, lineAfterSpace_some moves (by rwa [skip]), skip]
    rfl
  obtain ⟨before, c, last, plain⟩ := stretch_last more
  have ends : (d.text ++ '\n' :: stretch y).getLast?.all (fun c => !isTerminator c) = true := by
    rw [last, ← List.cons_append, ← List.append_assoc, List.getLast?_concat]
    simp [plain]
  rw [whole, run_spanned found (by simp) (Or.inl ends)]

theorem single_swallow (d : Definition) (x : Text) :
    Single (d.text ++ '\n' :: x) ↔ ∀ line ∈ x.splitOn '\n', defineHead line = none := by
  rw [Single, List.splitOn_append_cons_self_of_not_mem d.text_plain, List.tail_cons]

theorem single_white (plain : '\n' ∉ x) (white : ∀ c ∈ y, isSpace c = true) : Single (x ++ y) := by
  by_cases ends : '\n' ∈ y
  · obtain ⟨line, below, rfl, first⟩ := List.eq_append_cons_of_mem ends
    have apart : '\n' ∉ x ++ line := by
      intro listed
      rcases List.mem_append.mp listed with old | old
      · exact plain old
      · exact first old
    rw [Single, ← List.append_assoc, List.splitOn_append_cons_self_of_not_mem apart, List.tail_cons]
    intro u listed
    have inside := Lines.subset_of_mem_splitOn listed
    exact Quiet.white (fun c old => white c (List.mem_append_right _ (List.mem_cons_of_mem _ (inside old))))
      u (Or.inl rfl)
  · have none_ : '\n' ∉ x ++ y := by
      intro listed
      rcases List.mem_append.mp listed with old | old
      · exact plain old
      · exact ends old
    rw [Single, List.splitOn_eq_singleton none_]
    exact fun u listed => nomatch listed

def Definition.front (d : Definition) : Text := d.head.text ++ (d.name.1 ++ d.list)

theorem front_after (d : Definition) (rest : List Line) :
    d.text ++ following rest = d.front ++ d.after rest := by
  simp only [Definition.text, Definition.front, Definition.after, List.append_assoc]

theorem Definition.front_plain (d : Definition) : '\n' ∉ d.front := by
  intro listed
  refine d.text_plain ?_
  have front : d.text = d.front ++ d.tail := by
    simp only [Definition.text, Definition.front, List.append_assoc]
  rw [front]
  exact List.mem_append_left _ listed

theorem entry_eq (p : Params) (name body : Text) :
    FunctionMatch.entry ⟨name, p.text, body⟩ = some (name, ⟨p.names, trim body⟩) := by
  rw [FunctionMatch.entry]
  simp only [p.paramsOf, p.fixed, Bool.false_eq_true, if_false]

theorem entries_single (p : Params) (name body used : Text) :
    [((⟨name, p.text, body⟩ : FunctionMatch), used)].filterMap (fun m => m.1.entry) =
      [(name, ⟨p.names, trim body⟩)] := by
  rw [List.filterMap_cons_some (by rw [entry_eq]), List.filterMap_nil]

theorem white_fails (white : skipSpace (d.after rest) = []) :
    ∀ u, u <:+ d.after rest → spanned functionPattern u = none := by
  intro u suffix
  apply spanned_headed functionPattern_headed
  exact Quiet.white (fun c listed => skipSpace_nil.mp white c (suffix.subset listed)) u (Or.inl rfl)

theorem run_white (white : skipSpace (d.after rest) = []) :
    run (spanned functionPattern) (textOf rest) = [] := by
  rw [← runNext_following]
  exact runNext_nil fun u suffix => white_fails white u (suffix.trans (List.suffix_append _ _))

/-- At the end of a text an empty definition takes a character of the white space, if one is to spare. -/
theorem run_spare (has : d.params = some p) (white : skipSpace (d.after rest) = []) :
    ∃ ms, run (spanned functionPattern) (textOf (.definition d :: rest)) =
        ms ++ run (spanned functionPattern) (textOf rest) ∧
      ms.filterMap (fun m => m.1.entry) =
        (if ((d.after rest).drop 1).any (fun c => !isTerminator c) then
          some (d.name.1, (⟨p.names, []⟩ : MacroDef)) else none).toList ∧
      ∀ m ∈ ms, Single m.2 := by
  have spaces := skipSpace_nil.mp white
  have opened : opening (d.text ++ following rest) = some (d.name.1, p.text, d.after rest) :=
    opening_function has
  have pattern := functionPattern_some opened d.name.2.1
  have length : (d.after rest).drop ((d.after rest).takeWhile isSpace).length = [] := by
    rw [List.takeWhile_eq_self_iff.mpr spaces, List.drop_length]
  have none_left : ∀ c ∈ (d.after rest).drop ((d.after rest).takeWhile isSpace).length,
      isTerminator c = true := by
    rw [length]
    exact List.forall_mem_nil _
  rw [textOf_cons, show Line.text (.definition d) = d.text from rfl]
  rcases lineAfterSpace_blank none_left with ⟨none_, ends⟩ | ⟨c, left, found, among, plain, -, z, parts⟩
  · rw [none_] at pattern
    have spare : ((d.after rest).drop 1).any (fun c => !isTerminator c) = false := by
      rw [List.any_eq_false]
      intro c listed
      rw [ends c listed]
      exact Bool.false_ne_true
    refine ⟨[], run_line (spanned_headed functionPattern_headed) d rest (spanned_none pattern), ?_,
      List.forall_mem_nil _⟩
    rw [spare]
    rfl
  · rw [found] at pattern
    have spare : ((d.after rest).drop 1).any (fun c => !isTerminator c) = true :=
      List.any_eq_true.mpr ⟨c, among, by simp [plain]⟩
    have whole : d.text ++ following rest = (d.front ++ (z ++ [c])) ++ left := by
      rw [front_after, ← parts]
      simp only [List.append_assoc]
    have inside : ∀ e ∈ z ++ [c], isSpace e = true := by
      intro e listed
      refine spaces e ?_
      rw [← parts, ← List.append_assoc]
      exact List.mem_append_left _ listed
    have ends : (d.front ++ (z ++ [c])).getLast?.all (fun c => !isTerminator c) = true := by
      rw [← List.append_assoc, List.getLast?_concat]
      simp [plain]
    have blank : trim [c] = [] := by
      rw [trim, skipSpace, List.dropWhile_cons_of_pos (inside c (by simp))]
      rfl
    have after : runNext (spanned functionPattern) left = [] := by
      refine runNext_nil fun u suffix => white_fails white u (suffix.trans ⟨z ++ [c], ?_⟩)
      rw [List.append_assoc]
      exact parts
    rw [whole] at pattern ⊢
    refine ⟨[(⟨d.name.1, p.text, [c]⟩, d.front ++ (z ++ [c]))], ?_, ?_, ?_⟩
    · rw [run_spanned pattern (by simp) (Or.inl ends), after, run_white white]
      rfl
    · rw [spare, entries_single, blank]
      rfl
    · intro m listed
      rw [List.mem_singleton.mp listed]
      exact single_white d.front_plain inside

theorem some_following (more : skipSpace (following rest) ≠ []) :
    ∃ next others, rest = next :: others ∧
      skipSpace (following rest) = skipSpace (textOf (next :: others)) := by
  cases rest with
  | nil => exact absurd rfl more
  | cons next others => exact ⟨next, others, rfl, rfl⟩

theorem run_taken (has : d.params = some p) (empty : d.replacement.text = [])
    (more : skipSpace (d.after rest) ≠ []) (alone : Line.Alone rest (.definition d)) :
    ∃ ms, run (spanned functionPattern) (textOf (.definition d :: rest)) =
        ms ++ run (spanned functionPattern) (textOf rest) ∧
      ms.filterMap (fun m => m.1.entry) =
        [(d.name.1, ⟨p.names, trim ((skipSpace (d.after rest)).takeWhile fun c => !isTerminator c)⟩)] ∧
      ∀ m ∈ ms, Single m.2 := by
  rw [Definition.after_white empty] at more ⊢
  obtain ⟨next, others, rfl, skip⟩ := some_following more
  rw [skip] at more ⊢
  have apart := alone (by rw [has]; exact Option.some_ne_none p) empty
  obtain ⟨passed, single⟩ :=
    run_beyond (spanned_headed functionPattern_headed) (next :: others) more apart
  have found := run_swallow has empty more
  rw [← passed] at found
  refine ⟨[_], found, ?_, ?_⟩
  · exact entries_single p _ _ _
  · intro m listed
    rw [List.mem_singleton.mp listed]
    exact (single_swallow d _).mpr single

theorem functionPattern_close (has : d.params = some p) (some_ : d.replacement.text ≠ [])
    (close : d.gap.1 = []) : functionPattern (d.text ++ following rest) = none := by
  have opened : opening (d.text ++ following rest) = some (d.name.1, p.text, d.after rest) :=
    opening_function has
  obtain ⟨c, x, shape⟩ := List.exists_cons_of_ne_nil some_
  have none_ : (d.after rest).takeWhile isSpace = [] := by
    rw [after_eq, close, shape, List.nil_append, List.cons_append]
    exact List.takeWhile_cons_of_neg (by simp [d.replacement.first shape])
  rw [functionPattern_some opened d.name.2.1, none_]
  rfl

theorem run_step (line : Line) (rest : List Line) (alone : line.Alone rest) :
    ∃ ms, run (spanned functionPattern) (textOf (line :: rest)) =
        ms ++ run (spanned functionPattern) (textOf rest) ∧
      ms.filterMap (fun m => m.1.entry) = (line.taken rest).toList ∧ ∀ m ∈ ms, Single m.2 := by
  have headed := spanned_headed functionPattern_headed
  cases line with
  | other x plain quiet =>
    refine ⟨[], ?_, rfl, List.forall_mem_nil _⟩
    rw [textOf_cons]
    exact run_quiet_line headed quiet rest
  | definition d =>
    rw [Line.taken]
    have passed : functionPattern (d.text ++ following rest) = none →
        run (spanned functionPattern) (textOf (.definition d :: rest)) =
          run (spanned functionPattern) (textOf rest) := by
      intro fails
      rw [textOf_cons]
      exact run_line headed d rest (spanned_none fails)
    cases has : d.params with
    | none =>
      have fails : functionPattern (d.text ++ following rest) = none := by
        rw [functionPattern_eq, opening_object has]
        rfl
      exact ⟨[], passed fails, rfl, List.forall_mem_nil _⟩
    | some p =>
      simp only
      by_cases empty : d.replacement.text = []
      · rw [if_neg (not_not.mpr empty)]
        by_cases white : skipSpace (d.after rest) = []
        · rw [if_neg (not_not.mpr white)]
          exact run_spare has white
        · rw [if_pos white]
          exact run_taken has empty white alone
      · rw [if_pos empty]
        by_cases gap : d.gap.1 = []
        · rw [if_pos gap]
          exact ⟨[], passed (functionPattern_close has empty gap), rfl, List.forall_mem_nil _⟩
        · rw [if_neg gap]
          refine ⟨[(⟨d.name.1, p.text, d.replacement.text ++ d.rest.1⟩, d.core)], ?_, ?_, ?_⟩
          · rw [textOf_cons]
            exact run_read has empty gap
          · have none_ : ∀ c ∈ ([] : Text), isSpace c = true := List.forall_mem_nil _
            have tidy : trim (d.replacement.text ++ d.rest.1) = d.replacement.text :=
              trim_pad none_ d.replacement.trimmed d.rest.space
            rw [entries_single, tidy]
            rfl
          · intro m listed
            have plain : '\n' ∉ d.core := fun listed => by cases d.core_plain _ listed
            have single : Single (d.core ++ []) := single_white plain (List.forall_mem_nil _)
            rw [List.append_nil] at single
            rw [List.mem_singleton.mp listed]
            exact single

theorem run_takes (line : Line) (rest : List Line) (other : ¬line.Alone rest) :
    ∃ m ∈ run (spanned functionPattern) (textOf (line :: rest)), ¬Single m.2 := by
  cases line with
  | other x plain quiet => exact absurd trivial other
  | definition d =>
    rw [Line.Alone] at other
    push Not at other
    obtain ⟨has, empty, next, first, e, rfl⟩ := other
    obtain ⟨p, has⟩ := Option.ne_none_iff_exists'.mp has
    obtain ⟨line, listed, head⟩ := stretch_definition rest first
    have more : skipSpace (textOf rest) ≠ [] := by
      intro white
      refine head (Quiet.white ?_ line (Or.inl rfl))
      intro c old
      have inside := stretch_subset _ c (Lines.subset_of_mem_splitOn listed old)
      exact skipSpace_nil.mp white c inside
    cases rest with
    | nil => cases first
    | cons second others =>
      refine ⟨_, by rw [run_swallow has empty more]; exact List.mem_cons_self, ?_⟩
      rw [single_swallow]
      exact fun single => head (single line listed)

/-- What the matches of a text are, if no definition takes another one. -/
theorem run_lines (lines : List Line)
    (alone : ∀ before line rest, lines = before ++ line :: rest → line.Alone rest) :
    (run (spanned functionPattern) (textOf lines)).filterMap (fun m => m.1.entry) = takenFrom lines ∧
      ∀ m ∈ run (spanned functionPattern) (textOf lines), Single m.2 := by
  induction lines with
  | nil => exact ⟨rfl, fun m listed => nomatch listed⟩
  | cons line rest ih =>
    obtain ⟨entries, later⟩ := ih fun before next others parts =>
      alone (line :: before) next others (by rw [parts, List.cons_append])
    obtain ⟨ms, found, taken, single⟩ := run_step line rest (alone [] line rest rfl)
    rw [found, List.filterMap_append, taken, entries]
    refine ⟨rfl, fun m listed => ?_⟩
    rcases List.mem_append.mp listed with old | old
    · exact single m old
    · exact later m old

theorem alone_of_single (lines : List Line)
    (single : ∀ m ∈ run (spanned functionPattern) (textOf lines), Single m.2) :
    ∀ before line rest, lines = before ++ line :: rest → line.Alone rest := by
  induction lines with
  | nil => intro before line rest parts; cases before <;> cases parts
  | cons first lines ih =>
    have here : first.Alone lines := by
      by_contra other
      obtain ⟨m, listed, not_⟩ := run_takes first lines other
      exact not_ (single m listed)
    obtain ⟨ms, found, -, -⟩ := run_step first lines here
    intro before line rest parts
    cases before with
    | nil =>
      obtain ⟨rfl, rfl⟩ := List.cons.inj parts
      exact here
    | cons head before =>
      refine ih (fun m listed => single m ?_) before line rest (List.cons.inj parts).2
      rw [found]
      exact List.mem_append_right ms listed

/-! ### Object-like macros -/

theorem definedPattern_definition (d : Definition) (rest : List Line) :
    definedPattern (d.text ++ following rest) = some (d.name.1, d.list ++ d.after rest) := by
  obtain ⟨word, after⟩ := definition_word d rest
  rw [definedPattern, definition_head]
  change (some (d.name.1 ++ (d.list ++ d.after rest))).bind _ = _
  rw [Option.bind_some, word, after, if_neg d.name.2.1]

def Definition.value (d : Definition) : Text := d.replacement.text ++ (d.rest.1 ++ d.carriageText)

theorem Definition.trim_value (d : Definition) : trim d.value = d.replacement.text := by
  have none_ : ∀ c ∈ ([] : Text), isSpace c = true := List.forall_mem_nil _
  have after : ∀ c ∈ d.rest.1 ++ d.carriageText, isSpace c = true := by
    intro c listed
    rcases List.mem_append.mp listed with old | old
    · exact d.rest.space c old
    · rw [Definition.carriageText] at old
      split at old
      · rw [List.mem_singleton.mp old]
        rfl
      · cases old
  exact trim_pad none_ d.replacement.trimmed after

theorem Definition.text_value (d : Definition) : ∀ c ∈ d.value, c ∈ d.text := by
  intro c listed
  have whole : d.text = d.front ++ (d.gap.1 ++ d.value) := by
    simp only [Definition.text, Definition.front, Definition.tail, Definition.value,
      Definition.carriageText, List.append_assoc]
  rw [whole]
  exact List.mem_append_right _ (List.mem_append_right _ listed)

theorem after_value (d : Definition) (rest : List Line) :
    d.after rest = d.gap.1 ++ (d.value ++ following rest) := by
  rw [after_eq, Definition.value]
  simp only [List.append_assoc]

theorem objectPattern_read (has : d.params = none) (some_ : d.replacement.text ≠ []) :
    objectPattern (d.text ++ following rest) = some ((d.name.1, d.value), following rest) := by
  obtain ⟨c, x, shape⟩ := List.exists_cons_of_ne_nil some_
  have first := d.replacement.first shape
  have blank : ¬isBlank c = true := fun blank => by simp [isSpace_of_isBlank blank] at first
  have list : d.list = [] := by simp [Definition.list, has]
  have value : d.value ++ following rest = c :: (x ++ (d.rest.1 ++ d.carriageText) ++ following rest) := by
    rw [Definition.value, shape, List.cons_append, List.cons_append]
  have skip : skipBlanks (d.after rest) = c :: (x ++ (d.rest.1 ++ d.carriageText) ++ following rest) := by
    rw [after_value, skipBlanks_blanks, value, skipBlanks, List.dropWhile_cons_of_neg blank]
  have moves : d.after rest ≠ c :: (x ++ (d.rest.1 ++ d.carriageText) ++ following rest) := by
    intro same
    have length := congrArg List.length (after_value d rest)
    have positive := List.length_pos_iff.mpr (d.apart has some_)
    rw [same, value, List.length_append] at length
    omega
  have line : ∀ c ∈ d.value, decide (c ≠ '\n') = true := by
    intro c listed
    rw [decide_eq_true_eq]
    rintro rfl
    exact d.text_plain (d.text_value _ listed)
  have stop : (following rest).takeWhile (fun c => decide (c ≠ '\n')) = [] ∧
      (following rest).dropWhile (fun c => decide (c ≠ '\n')) = following rest := by
    cases rest <;> exact ⟨rfl, rfl⟩
  rw [objectPattern_eq, definedPattern_definition, Option.bind_some, list, List.nil_append]
  simp only [skip, moves, first, Bool.false_eq_true, or_self, if_false]
  rw [← value, List.takeWhile_append_of_pos line, List.dropWhile_append_of_pos line, stop.1, stop.2,
    List.append_nil]

/-- An empty definition and one with parameters are no object-like macros. -/
theorem objectPattern_pass (other : d.params ≠ none ∨ d.replacement.text = []) :
    objectPattern (d.text ++ following rest) = none := by
  rw [objectPattern_eq, definedPattern_definition, Option.bind_some]
  cases has : d.params with
  | some p =>
    have list : d.list ++ d.after rest = '(' :: (p.text ++ ')' :: d.after rest) := by
      simp [Definition.list, has]
    have stays : skipBlanks ('(' :: (p.text ++ ')' :: d.after rest)) = '(' :: (p.text ++ ')' :: d.after rest) :=
      rfl
    rw [list, stays]
    simp only [true_or, if_true]
  | none =>
    have empty := other.resolve_left (not_not.mpr has)
    have list : d.list = [] := by simp [Definition.list, has]
    have skip : skipBlanks (d.list ++ d.after rest) = d.carriageText ++ following rest := by
      have stays : skipBlanks (d.carriageText ++ following rest) = d.carriageText ++ following rest := by
        rw [Definition.carriageText]
        split
        · rfl
        · cases rest <;> rfl
      rw [list, List.nil_append, after_eq, empty, List.nil_append, skipBlanks_blanks, skipBlanks_blanks,
        stays]
    rw [skip]
    split
    · rfl
    · next c w shape =>
      have ends := carriage_first d rest c (by rw [shape]; rfl)
      rw [if_pos (Or.inr (isSpace_of_isTerminator ends))]

theorem run_object_line (line : Line) (rest : List Line) :
    ∃ ms, run (spanned objectPattern) (textOf (line :: rest)) =
        ms ++ run (spanned objectPattern) (textOf rest) ∧
      ms.map (fun m => (m.1.1, trim m.1.2)) = line.object.toList ∧ ∀ m ∈ ms, Single m.2 := by
  have headed := spanned_headed objectPattern_headed
  rw [textOf_cons]
  cases line with
  | other x plain quiet =>
    exact ⟨[], run_quiet_line headed quiet rest, rfl, fun m listed => nomatch listed⟩
  | definition d =>
    have passed : d.params ≠ none ∨ d.replacement.text = [] →
        run (spanned objectPattern) (d.text ++ following rest) =
          run (spanned objectPattern) (textOf rest) :=
      fun other => run_line headed d rest (spanned_none (objectPattern_pass other))
    rw [Line.object]
    cases has : d.params with
    | some p =>
      have other : d.params ≠ none := by
        rw [has]
        exact Option.some_ne_none p
      exact ⟨[], passed (Or.inl other), rfl, fun m listed => nomatch listed⟩
    | none =>
      simp only
      by_cases empty : d.replacement.text = []
      · rw [if_pos empty]
        exact ⟨[], passed (Or.inr empty), rfl, fun m listed => nomatch listed⟩
      · rw [if_neg empty]
        have none_ : objectPattern (following rest) = none := by
          apply objectPattern_headed
          cases rest <;> rfl
        have some_ : d.text ≠ [] := fun none_ => d.text_space (by rw [none_]; rfl)
        refine ⟨[((d.name.1, d.value), d.text)], ?_, ?_, ?_⟩
        · rw [show Line.text (.definition d) = d.text from rfl,
            run_spanned (objectPattern_read has empty) some_ (Or.inr none_), runNext_following]
          rfl
        · rw [List.map_singleton, d.trim_value]
          rfl
        · intro m listed
          have single : Single (d.text ++ []) := single_white d.text_plain fun c listed => nomatch listed
          rw [List.append_nil] at single
          rw [List.mem_singleton.mp listed]
          exact single

theorem run_object_lines (lines : List Line) :
    (run (spanned objectPattern) (textOf lines)).map (fun m => (m.1.1, trim m.1.2)) =
        lines.filterMap Line.object ∧
      ∀ m ∈ run (spanned objectPattern) (textOf lines), Single m.2 := by
  induction lines with
  | nil => exact ⟨rfl, fun m listed => nomatch listed⟩
  | cons line rest ih =>
    obtain ⟨entries, later⟩ := ih
    obtain ⟨ms, found, taken, single⟩ := run_object_line line rest
    have here : (line :: rest).filterMap Line.object = line.object.toList ++ rest.filterMap Line.object := by
      rw [List.filterMap_cons]
      cases line.object <;> rfl
    rw [found, List.map_append, taken, entries, here]
    refine ⟨rfl, fun m listed => ?_⟩
    rcases List.mem_append.mp listed with old | old
    · exact single m old
    · exact later m old

/-! ### The tables -/

section Tables

variable {ι : Type} {lines : List Line} {stripped : Text}

theorem last_none {entries : List (Text × ι)} : (∀ name, last entries name = none) ↔ entries = [] := by
  constructor
  · intro none_
    cases entries with
    | nil => rfl
    | cons e entries =>
      have absent := Option.map_eq_none_iff.mp (none_ e.1)
      rw [List.find?_eq_none] at absent
      exact absurd (decide_eq_true rfl) (absent e (List.mem_reverse.mpr List.mem_cons_self))
  · rintro rfl name
    rfl

theorem lookup_functions (has : hasDefine stripped = true) (joined : joinContinuations stripped = textOf lines)
    (name : Text) : InsertionMap.lookup (parseFunctionMacros stripped) name =
      last ((run (spanned functionPattern) (textOf lines)).filterMap fun m => m.1.entry) name := by
  have matches_ : functionMatches stripped = (run (spanned functionPattern) (textOf lines)).map Prod.fst := by
    rw [functionMatches, if_pos has, joined, run, execAll_spanned]
  rw [parseFunctionMacros, lookup_toMap, matches_, List.filterMap_map, last]
  rfl

theorem lookup_objects (has : hasDefine stripped = true) (joined : joinContinuations stripped = textOf lines)
    (name : Text) : InsertionMap.lookup (parseObjectMacros stripped) name =
      last (lines.filterMap Line.object) name := by
  have matches_ : objectMatches stripped = (run (spanned objectPattern) (textOf lines)).map Prod.fst := by
    rw [objectMatches, if_pos has, joined, run, execAll_spanned]
  rw [parseObjectMacros, lookup_toMap, matches_, List.map_map, ← (run_object_lines lines).1, last]
  rfl

theorem tables_none (hasnt : hasDefine stripped = false) (name : Text) :
    InsertionMap.lookup (parseFunctionMacros stripped) name = none ∧
      InsertionMap.lookup (parseObjectMacros stripped) name = none := by
  have functions : functionMatches stripped = [] := by rw [functionMatches, hasnt]; rfl
  have objects : objectMatches stripped = [] := by rw [objectMatches, hasnt]; rfl
  rw [parseFunctionMacros, parseObjectMacros, functions, objects]
  exact ⟨rfl, rfl⟩

theorem spans_eq (pattern : Text → Option (α × Text)) (has : hasDefine stripped = true)
    (joined : joinContinuations stripped = textOf lines) :
    spans pattern stripped = run (spanned pattern) (textOf lines) := by
  rw [spans, if_pos has, joined, run]

theorem spans_none (pattern : Text → Option (α × Text)) (hasnt : hasDefine stripped = false) :
    spans pattern stripped = [] := by
  rw [spans, hasnt]
  rfl

/-- The tables of a text are the definitions on its lines, each read by itself, exactly if the text is
readable. -/
theorem own_iff_readable (joined : joinContinuations stripped = textOf lines) :
    Own lines stripped ↔ Readable lines stripped := by
  cases has : hasDefine stripped with
  | true =>
    have spans := spans_eq functionPattern has joined
    constructor
    · intro own
      have alone := alone_of_single lines fun m listed => own.functionSpans m (by rwa [spans])
      refine ⟨fun _ => alone, fun _ name => ?_, fun hasnt => by rw [has] at hasnt; cases hasnt⟩
      rw [← own.functions name, lookup_functions has joined, (run_lines lines alone).1]
    · intro readable
      have alone := readable.alone has
      obtain ⟨entries, single⟩ := run_lines lines alone
      refine ⟨fun name => ?_, lookup_objects has joined, fun m listed => ?_, fun m listed => ?_⟩
      · rw [lookup_functions has joined, entries, readable.last has]
      · rw [spans] at listed
        exact single m listed
      · rw [spans_eq objectPattern has joined] at listed
        exact (run_object_lines lines).2 m listed
  | false =>
    have none_ := tables_none has
    constructor
    · intro own
      refine ⟨fun yes => ?_, fun yes => ?_, fun _ => ⟨last_none.mp fun name => ?_, last_none.mp fun name => ?_⟩⟩
      · rw [has] at yes
        cases yes
      · rw [has] at yes
        cases yes
      · rw [← own.functions name, (none_ name).1]
      · rw [← own.objects name, (none_ name).2]
    · intro readable
      obtain ⟨functions, objects⟩ := readable.defines has
      refine ⟨fun name => ?_, fun name => ?_, fun m listed => ?_, fun m listed => ?_⟩
      · rw [(none_ name).1, functions]
        rfl
      · rw [(none_ name).2, objects]
        rfl
      · rw [spans_none functionPattern has] at listed
        cases listed
      · rw [spans_none objectPattern has] at listed
        cases listed

end Tables

def noBlanks : Blanks := ⟨[], by decide⟩

def oneBlank : Blanks := ⟨[' '], by decide⟩

/-- `#define F(x)` and a replacement list after a blank. -/
def defines (name : Word) (replacement : Replacement) : Definition where
  head := ⟨noBlanks, noBlanks, oneBlank, List.cons_ne_nil _ _⟩
  name := name
  params := some ⟨noBlanks, [⟨noBlanks, ⟨['x'], by decide⟩, noBlanks⟩]⟩
  gap := oneBlank
  replacement := replacement
  rest := noBlanks
  carriage := false
  apart := fun none_ => nomatch none_

def emptyThenBody : List Line :=
  [.definition (defines ⟨['F'], by decide⟩ ⟨[], rfl, by decide⟩),
    .definition (defines ⟨['G'], by decide⟩ ⟨['x'], by decide, by decide⟩)]

theorem own_iff_readable_body :
    Own [.definition (defines ⟨['F'], by decide⟩ ⟨['x'], by decide, by decide⟩)] "#define F(x) x".toList := by
  refine (own_iff_readable (by decide)).mpr ⟨fun _ => ?_, fun _ name => ?_, fun hasnt => ?_⟩
  · intro before line rest parts
    rcases before with _ | ⟨first, before⟩
    · obtain ⟨rfl, rfl⟩ := List.cons.inj parts
      exact fun _ empty => nomatch empty
    · cases before <;> cases (List.cons.inj parts).2
  · rfl
  · revert hasnt
    decide

/-- The body of the empty macro is the definition of the next one, which is not seen. -/
theorem own_takes_definition : joinContinuations "#define F(x) \n#define G(x) x".toList = textOf emptyThenBody ∧
    ¬Own emptyThenBody "#define F(x) \n#define G(x) x".toList := by
  refine ⟨by decide, fun own => ?_⟩
  have here := own.functions ['G']
  revert here
  decide

end CodeGraph.Resolution.Macros
