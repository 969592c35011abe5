import CodeGraph.Resolution.MacroPatterns

/-!
# The definitions of a text, line by line

A text as logical lines, some of which define a macro, and what the patterns read in it.
-/
namespace CodeGraph.Resolution.Macros

open JsText

/-! ### Lines -/

abbrev Word := {t : Text // t ≠ [] ∧ ∀ c ∈ t, isWord c = true}

structure Param where
  before : Blanks
  name : Word
  after : Blanks

def Param.text (p : Param) : Text := p.before.1 ++ (p.name.1 ++ p.after.1)

/-- A list of parameters, and the blanks that stand for an empty one. -/
structure Params where
  blanks : Blanks
  list : List Param

def Params.text (p : Params) : Text :=
  if p.list = [] then p.blanks.1 else [','].intercalate (p.list.map Param.text)

def Params.names (p : Params) : List Text := p.list.map fun p => p.name.1

structure Replacement where
  text : Text
  trimmed : trim text = text
  line : ∀ c ∈ text, isTerminator c = false

/-- A line that defines a macro, function-like if it has a list of parameters. -/
structure Definition where
  head : Head
  name : Word
  params : Option Params
  gap : Blanks
  replacement : Replacement
  rest : Blanks
  /-- Whether the line ends in CR LF. -/
  carriage : Bool
  apart : params = none → replacement.text ≠ [] → gap.1 ≠ []

def Definition.tail (d : Definition) : Text :=
  d.gap.1 ++ (d.replacement.text ++ (d.rest.1 ++ if d.carriage then ['\r'] else []))

def Definition.list (d : Definition) : Text :=
  match d.params with
  | none => []
  | some p => '(' :: (p.text ++ [')'])

def Definition.text (d : Definition) : Text := d.head.text ++ (d.name.1 ++ (d.list ++ d.tail))

/-- No line of a text begins with `#define`. -/
def Quiet (t : Text) : Prop := ∀ u, LineStart t u → defineHead u = none

inductive Line
  | definition (d : Definition)
  | other (text : Text) (line : '\n' ∉ text) (quiet : Quiet text)

def Line.text : Line → Text
  | .definition d => d.text
  | .other text _ _ => text

def textOf : List Line → Text
  | [] => []
  | [line] => line.text
  | line :: lines => line.text ++ '\n' :: textOf lines

def Line.function : Line → Option (Text × MacroDef)
  | .definition d =>
    match d.params with
    | some p => if d.replacement.text = [] then none else some (d.name.1, ⟨p.names, d.replacement.text⟩)
    | none => none
  | .other _ _ _ => none

def Line.object : Line → Option (Text × Text)
  | .definition d =>
    match d.params with
    | some _ => none
    | none => if d.replacement.text = [] then none else some (d.name.1, d.replacement.text)
  | .other _ _ _ => none

def last {ι : Type} (entries : List (Text × ι)) (name : Text) : Option ι :=
  (entries.reverse.find? (·.1 = name)).map Prod.snd

def spanned {α : Type} (pattern : Text → Option (α × Text)) (t : Text) : Option ((α × Text) × Text) :=
  (pattern t).map fun m => ((m.1, t.take (t.length - m.2.length)), m.2)

/-- The matches of a pattern in a text, if it has definitions. -/
def spans {α : Type} (pattern : Text → Option (α × Text)) (stripped : Text) : List (α × Text) :=
  if hasDefine stripped then execAll (spanned pattern) true 0 (joinContinuations stripped) else []

def Single (used : Text) : Prop := ∀ line ∈ (used.splitOn '\n').tail, defineHead line = none

/-- The tables hold the definitions of the lines, and no definition is read in another one. -/
structure Own (lines : List Line) (stripped : Text) : Prop where
  functions : ∀ name, InsertionMap.lookup (parseFunctionMacros stripped) name =
    last (lines.filterMap Line.function) name
  objects : ∀ name, InsertionMap.lookup (parseObjectMacros stripped) name =
    last (lines.filterMap Line.object) name
  functionSpans : ∀ m ∈ spans functionPattern stripped, Single m.2
  objectSpans : ∀ m ∈ spans objectPattern stripped, Single m.2

def following : List Line → Text
  | [] => []
  | line :: lines => '\n' :: textOf (line :: lines)

def Definition.after (d : Definition) (rest : List Line) : Text := d.tail ++ following rest

/-- What a definition with parameters is taken for: one that is not empty is read only after white
space; for an empty one the next text that is no white space is taken, or at the end of the text a
character of white space before it, if there is one to spare that ends no line. -/
def Line.taken (rest : List Line) : Line → Option (Text × MacroDef)
  | .definition d =>
    match d.params with
    | none => none
    | some p =>
      if d.replacement.text ≠ [] then
        if d.gap.1 = [] then none else some (d.name.1, ⟨p.names, d.replacement.text⟩)
      else if skipSpace (d.after rest) ≠ [] then
        some (d.name.1, ⟨p.names, trim ((skipSpace (d.after rest)).takeWhile fun c => !isTerminator c)⟩)
      else if ((d.after rest).drop 1).any (fun c => !isTerminator c) then some (d.name.1, ⟨p.names, []⟩)
      else none
  | .other _ _ _ => none

def takenFrom : List Line → List (Text × MacroDef)
  | [] => []
  | line :: rest => (line.taken rest).toList ++ takenFrom rest

def Line.Alone (rest : List Line) : Line → Prop
  | .definition d => d.params ≠ none → d.replacement.text = [] →
    ∀ next ∈ rest.find? (fun line => skipSpace line.text ≠ []), ∀ e, next ≠ .definition e
  | .other _ _ _ => True

/-- Where the file counts as one with definitions: no empty definition is right before another, and for
each name what is taken last is what is defined last. Where it does not: nothing is defined. -/
structure Readable (lines : List Line) (stripped : Text) : Prop where
  alone : hasDefine stripped = true → ∀ before line rest, lines = before ++ line :: rest → line.Alone rest
  last : hasDefine stripped = true →
    ∀ name, last (takenFrom lines) name = last (lines.filterMap Line.function) name
  defines : hasDefine stripped = false →
    lines.filterMap Line.function = [] ∧ lines.filterMap Line.object = []

/-! ### Heads of lines -/

variable {α : Type} {pattern : Text → Option (α × Text)} {a : α} {t u v w x y z : Text}

def Cut (z : Text) : Prop := ∀ c ∈ z.head?, c = '\n'

theorem cut_following (lines : List Line) : Cut (following lines) := by
  cases lines with
  | nil => exact fun c first => nomatch first
  | cons line lines => exact fun c first => (Option.some.inj first).symm

theorem skipBlanks_cut (cut : Cut z) (x : Text) : skipBlanks (x ++ z) = skipBlanks x ++ z := by
  have stays : skipBlanks z = z := by
    cases z with
    | nil => rfl
    | cons c z =>
      obtain rfl := cut c rfl
      rfl
  rw [skipBlanks, List.dropWhile_append]
  split
  · next empty =>
    rw [List.isEmpty_iff] at empty
    rw [skipBlanks, empty, ← skipBlanks, stays]
    rfl
  · rfl

theorem isPrefixOf_cut (cut : Cut z) {word : Text} (plain : '\n' ∉ word) (x : Text) :
    word.isPrefixOf (x ++ z) = word.isPrefixOf x := by
  induction word generalizing x with
  | nil => cases x <;> cases z <;> rfl
  | cons d word ih =>
    have other : d ≠ '\n' := fun is => plain (is ▸ List.mem_cons_self)
    cases x with
    | nil =>
      cases z with
      | nil => rfl
      | cons c z =>
        obtain rfl := cut c rfl
        simp [List.isPrefixOf, other]
    | cons c x =>
      rw [List.cons_append, List.isPrefixOf, List.isPrefixOf,
        ih (fun listed => plain (List.mem_cons_of_mem d listed))]

theorem defineHead_cut (cut : Cut z) (x : Text) : defineHead (x ++ z) = (defineHead x).map (· ++ z) := by
  rw [defineHead, defineHead, skipBlanks_cut cut]
  cases shape : skipBlanks x with
  | nil =>
    cases z with
    | nil => rfl
    | cons c z =>
      obtain rfl := cut c rfl
      rfl
  | cons c u =>
    by_cases hash : c = '#'
    · subst hash
      simp only [List.cons_append, skipBlanks_cut cut,
        isPrefixOf_cut cut (show '\n' ∉ define by decide)]
      by_cases starts : define.isPrefixOf (skipBlanks u) = true
      · rw [if_pos starts, if_pos starts]
        obtain ⟨v, whole⟩ := List.isPrefixOf_iff_prefix.mp starts
        have rest : (skipBlanks u).drop 6 = v := by rw [← whole]; rfl
        have rest' : (skipBlanks u ++ z).drop 6 = v ++ z := by
          rw [← whole, List.append_assoc]
          rfl
        rw [rest, rest']
        cases v with
        | nil =>
          cases z with
          | nil => rfl
          | cons c z =>
            obtain rfl := cut c rfl
            rfl
        | cons c v =>
          simp only [List.cons_append]
          split
          · rw [skipBlanks_cut cut]
            rfl
          · rfl
      · rw [if_neg starts, if_neg starts]
        rfl
    · rw [List.cons_append]
      split
      · next same => exact absurd (List.cons.inj same).1 hash
      · split
        · next same => exact absurd (List.cons.inj same).1 hash
        · rfl

theorem defineHead_more (found : defineHead (x ++ y) = none) : defineHead x = none := by
  cases head : defineHead x with
  | none => rfl
  | some u =>
    obtain ⟨h, whole, -⟩ := defineHead_text head
    rw [whole, List.append_assoc, defineHead_append] at found
    cases found

theorem Quiet.nil : Quiet [] := by
  rintro u (rfl | ⟨before, c, parts, -⟩)
  · rfl
  · cases before <;> cases parts

theorem Quiet.white (white : ∀ c ∈ x, isSpace c = true) : Quiet x := by
  intro u start
  cases head : defineHead u with
  | none => rfl
  | some v =>
    obtain ⟨h, whole, -⟩ := defineHead_text head
    have listed : '#' ∈ x := start.suffix.subset (by rw [whole]; simp [Head.text])
    cases white '#' listed

section Headed

variable (headed : ∀ t, defineHead t = none → pattern t = none)

include headed

theorem run_quiet (quiet : Quiet x) (y : Text) : run pattern (x ++ '\n' :: y) = run pattern y := by
  have pass : execAll pattern true 0 (x ++ ['\n'] ++ y) =
      execAll pattern ((x ++ ['\n']).getLast?.elim true isTerminator) 0 y := by
    apply execAll_pass
    intro a b parts some_ starts
    apply headed
    rcases List.eq_nil_or_concat' b with rfl | ⟨b, c, rfl⟩
    · exact absurd rfl some_
    rw [← List.append_assoc] at parts
    obtain ⟨rfl, same⟩ := List.append_inj' parts rfl
    cases same
    have none_ := quiet b (lineStart_append starts)
    have cut : Cut ('\n' :: y) := fun c first => (Option.some.inj first).symm
    rw [List.append_assoc, List.singleton_append, defineHead_cut cut, none_]
    rfl
  rw [List.append_assoc, List.singleton_append] at pass
  rw [run, pass, List.getLast?_concat]
  rfl

theorem run_quiet_end (quiet : Quiet x) : run pattern x = [] := by
  have pass : execAll pattern true 0 (x ++ []) =
      execAll pattern (x.getLast?.elim true isTerminator) 0 [] := by
    apply execAll_pass
    rintro a b rfl - starts
    apply headed
    rw [List.append_nil]
    exact quiet b (lineStart_append starts)
  rw [List.append_nil] at pass
  exact pass

theorem run_quiet_line (quiet : Quiet x) (lines : List Line) :
    run pattern (x ++ following lines) = run pattern (textOf lines) := by
  cases lines with
  | nil => rw [following, List.append_nil, run_quiet_end headed quiet]; rfl
  | cons line lines => exact run_quiet headed quiet _

end Headed

/-! ### The parts of a definition -/

theorem isSpace_of_isBlank {c : Char} (blank : isBlank c = true) : isSpace c = true := by
  have cases : c = ' ' ∨ c = '\t' := by simpa [isBlank] using blank
  rcases cases with rfl | rfl <;> rfl

theorem Blanks.space (b : Blanks) : ∀ c ∈ b.1, isSpace c = true :=
  fun c listed => isSpace_of_isBlank (b.2 c listed)

theorem Blanks.plain (b : Blanks) : ∀ c ∈ b.1, isTerminator c = false :=
  fun c listed => (inHead_plain (by rw [inHead, b.2 c listed, Bool.true_or])).1

theorem isWord_apart {c : Char} (word : isWord c = true) :
    isSpace c = false ∧ c ≠ ',' ∧ c ≠ ')' ∧ c ≠ '.' ∧ isBlank c = false := by
  have space : isSpace c = false := by
    cases space : isSpace c with
    | false => rfl
    | true =>
      rw [isWord_of_isSpace space] at word
      cases word
  refine ⟨space, ?_, ?_, ?_, ?_⟩
  · rintro rfl
    cases word
  · rintro rfl
    cases word
  · rintro rfl
    cases word
  · cases blank : isBlank c with
    | false => rfl
    | true =>
      rw [isSpace_of_isBlank blank] at space
      cases space

theorem trim_word (w : Word) : trim w.1 = w.1 :=
  trim_solid fun c listed => (isWord_apart (w.2.2 c listed)).1

theorem Param.trim (p : Param) : JsText.trim p.text = p.name.1 :=
  trim_pad p.before.space (trim_word p.name) p.after.space

theorem Param.mem {p : Param} {c : Char} (listed : c ∈ p.text) : isBlank c = true ∨ isWord c = true := by
  simp only [Param.text, List.mem_append] at listed
  rcases listed with old | old | old
  · exact Or.inl (p.before.2 c old)
  · exact Or.inr (p.name.2.2 c old)
  · exact Or.inl (p.after.2 c old)

theorem Params.paramsOf (p : Params) : paramsOf p.text = p.names := by
  rw [Macros.paramsOf, Params.text, Params.names]
  split
  · next empty =>
    have comma : ',' ∉ p.blanks.1 := fun listed => by cases p.blanks.2 _ listed
    have blank : trim p.blanks.1 = [] := by
      have pad : trim (p.blanks.1 ++ ([] ++ [])) = [] :=
        trim_pad p.blanks.space rfl fun c listed => nomatch listed
      simpa using pad
    rw [List.splitOn_eq_singleton comma, empty, List.map_singleton, blank]
    rfl
  · next some_ =>
    have plain : ∀ l ∈ p.list.map Param.text, ',' ∉ l := by
      intro l listed comma
      obtain ⟨q, -, rfl⟩ := List.mem_map.mp listed
      rcases Param.mem comma with blank | word
      · cases blank
      · cases word
    rw [List.splitOn_intercalate ',' plain (by simpa using some_), List.map_map, List.filter_eq_self.mpr]
    · exact List.map_congr_left fun q _ => q.trim
    · intro name listed
      obtain ⟨q, -, rfl⟩ := List.mem_map.mp listed
      rw [Function.comp_apply, q.trim]
      simpa using q.name.2.1

theorem mem_intercalate {c s : Char} {parts : List Text} (listed : c ∈ [s].intercalate parts) :
    c = s ∨ ∃ l ∈ parts, c ∈ l := by
  induction parts with
  | nil => cases listed
  | cons l parts ih =>
    cases parts with
    | nil =>
      rw [List.intercalate_singleton] at listed
      exact Or.inr ⟨l, List.mem_cons_self, listed⟩
    | cons m parts =>
      rw [List.intercalate_cons_cons] at listed
      simp only [List.mem_append, List.mem_singleton] at listed
      rcases listed with (old | same) | later
      · exact Or.inr ⟨l, List.mem_cons_self, old⟩
      · exact Or.inl same
      · rcases ih later with same | ⟨n, among, inside⟩
        · exact Or.inl same
        · exact Or.inr ⟨n, List.mem_cons_of_mem l among, inside⟩

theorem Params.closed (p : Params) : ')' ∉ p.text := by
  intro listed
  rw [Params.text] at listed
  split at listed
  · cases p.blanks.2 _ listed
  · rcases mem_intercalate listed with same | ⟨l, among, inside⟩
    · cases same
    · obtain ⟨q, -, rfl⟩ := List.mem_map.mp among
      rcases Param.mem inside with blank | word
      · cases blank
      · cases word

theorem Params.fixed (p : Params) : isVariadic p.names = false := by
  rw [isVariadic, List.any_eq_false]
  intro name listed
  obtain ⟨q, -, rfl⟩ := List.mem_map.mp listed
  intro dots
  have listed : '.' ∈ q.name.1 := (List.isSuffixOf_iff_suffix.mp dots).subset (by decide)
  cases q.name.2.2 _ listed

variable {d : Definition} {p : Params} {rest : List Line}

theorem definition_head (d : Definition) (z : Text) :
    defineHead (d.text ++ z) = some (d.name.1 ++ (d.list ++ (d.tail ++ z))) := by
  have whole : d.text ++ z = d.head.text ++ (d.name.1 ++ (d.list ++ (d.tail ++ z))) := by
    simp only [Definition.text, List.append_assoc]
  obtain ⟨c, word, shape⟩ := List.exists_cons_of_ne_nil d.name.2.1
  have first : ¬isBlank c = true := by
    have apart := isWord_apart (d.name.2.2 c (by rw [shape]; exact List.mem_cons_self))
    simp [apart.2.2.2.2]
  rw [whole, defineHead_append, shape, List.cons_append, skipBlanks, List.dropWhile_cons_of_neg first]

theorem after_first (has : d.params = none) : ∀ c ∈ (d.after rest).head?, isSpace c = true := by
  intro c first
  rw [Definition.after, Definition.tail] at first
  cases gap : d.gap.1 with
  | cons b g =>
    rw [gap] at first
    cases first
    exact d.gap.space c (by rw [gap]; exact List.mem_cons_self)
  | nil =>
    have empty : d.replacement.text = [] := by
      by_contra some_
      exact d.apart has some_ gap
    rw [gap, empty] at first
    cases blanks : d.rest.1 with
    | cons b g =>
      rw [blanks] at first
      cases first
      exact d.rest.space c (by rw [blanks]; exact List.mem_cons_self)
    | nil =>
      rw [blanks] at first
      split at first
      · cases first
        rfl
      · have newline := cut_following rest c first
        rw [newline]
        rfl

theorem definition_word (d : Definition) (rest : List Line) :
    wordAt (d.name.1 ++ (d.list ++ d.after rest)) = d.name.1 ∧
      afterWord (d.name.1 ++ (d.list ++ d.after rest)) = d.list ++ d.after rest := by
  have stop : ∀ c ∈ (d.list ++ d.after rest).head?, isWord c = false := by
    intro c first
    rw [Definition.list] at first
    cases has : d.params with
    | none =>
      rw [has] at first
      exact isWord_of_isSpace (after_first has c first)
    | some p =>
      rw [has] at first
      cases first
      rfl
  exact ⟨wordAt_append d.name.2.2 stop, afterWord_append d.name.2.2 stop⟩

theorem opening_function (has : d.params = some p) :
    opening (d.text ++ following rest) = some (d.name.1, p.text, d.after rest) := by
  obtain ⟨word, after⟩ := definition_word d rest
  rw [opening, definition_head]
  change ((some (d.name.1 ++ (d.list ++ d.after rest))).bind _) = _
  rw [Option.bind_some, word, after]
  have list : d.list ++ d.after rest = '(' :: (p.text ++ ')' :: d.after rest) := by
    simp [Definition.list, has]
  have before : ∀ c ∈ p.text, decide (c ≠ ')') = true := by
    intro c listed
    rw [decide_eq_true_eq]
    rintro rfl
    exact p.closed listed
  have close : (p.text ++ ')' :: d.after rest).dropWhile (fun c => decide (c ≠ ')')) =
      ')' :: d.after rest := by
    rw [List.dropWhile_append_of_pos before]
    rfl
  have inner : (p.text ++ ')' :: d.after rest).takeWhile (fun c => decide (c ≠ ')')) = p.text := by
    rw [List.takeWhile_append_of_pos before]
    exact List.append_nil _
  simp only [list, close, inner]

theorem opening_object (has : d.params = none) : opening (d.text ++ following rest) = none := by
  obtain ⟨word, after⟩ := definition_word d rest
  rw [opening, definition_head]
  change ((some (d.name.1 ++ (d.list ++ d.after rest))).bind _) = _
  rw [Option.bind_some, word, after]
  have list : d.list ++ d.after rest = d.after rest := by simp [Definition.list, has]
  rw [list]
  split
  · next v paren =>
    have space := after_first has '(' (show '(' ∈ (d.after rest).head? by rw [paren]; rfl)
    cases space
  · rfl

end CodeGraph.Resolution.Macros
