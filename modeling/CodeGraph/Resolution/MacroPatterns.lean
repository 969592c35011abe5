import CodeGraph.Foundation.InsertionMap
import CodeGraph.Foundation.JsText

/-!
# The macros of a file, by patterns

`parseFunctionMacros`, `parseObjectMacros` and `parseDefinedNames` run a pattern over the whole text. The
classes `\s` and `[^)]` of the patterns go on over line ends, and where the end of a pattern fails, its
white space is given back.
-/
namespace CodeGraph.Resolution.Macros

open JsText

/-! ### Running a pattern -/

/-- The matches of a pattern that begins with `^`, from the start of a line (`start`) or within one. The
pattern gives what it captures and the text after the match; `skip` characters are still part of the last
match. -/
def execAll {α : Type} (pattern : Text → Option (α × Text)) : Bool → Nat → Text → List α
  | _, _, [] => []
  | _, skip + 1, c :: t => execAll pattern (isTerminator c) skip t
  | start, 0, c :: t =>
    match if start then pattern (c :: t) else none with
    | some (captured, rest) =>
      captured :: execAll pattern (isTerminator c) (t.length - rest.length) t
    | none => execAll pattern (isTerminator c) 0 t

attribute [grind =] execAll

/-- `[ \t]` -/
def isBlank (c : Char) : Bool := c == ' ' || c == '\t'

abbrev Blanks := {t : Text // ∀ c ∈ t, isBlank c = true}

def skipBlanks (t : Text) : Text := t.dropWhile isBlank

def define : Text := ['d', 'e', 'f', 'i', 'n', 'e']

/-- `^[ \t]*#[ \t]*define[ \t]+`: what follows. -/
def defineHead (t : Text) : Option Text :=
  match skipBlanks t with
  | '#' :: u =>
    if define.isPrefixOf (skipBlanks u) then
      match (skipBlanks u).drop 6 with
      | c :: v => if isBlank c then some (skipBlanks v) else none
      | [] => none
    else none
  | _ => none

/-- `(\w+)` after that. -/
def definedPattern (t : Text) : Option (Text × Text) :=
  (defineHead t).bind fun u => if wordAt u = [] then none else some (wordAt u, afterWord u)

/-- `(\w+)[ \t]+(\S[^\n]*)$` after that. -/
def objectPattern (t : Text) : Option ((Text × Text) × Text) :=
  (definedPattern t).bind fun (name, u) =>
    match u with
    | c :: v =>
      match if isBlank c then skipBlanks v else [] with
      | d :: w =>
        if isSpace d then none
        else some ((name, (d :: w).takeWhile (· ≠ '\n')), (d :: w).dropWhile (· ≠ '\n'))
      | [] => none
    | [] => none

/-- `\s+(.+)$` where the white space takes `n` characters or fewer, the most first. -/
def lineAfterSpace (t : Text) : Nat → Option (Text × Text)
  | 0 => none
  | n + 1 =>
    let body := (t.drop (n + 1)).takeWhile fun c => !isTerminator c
    if body = [] then lineAfterSpace t n
    else some (body, (t.drop (n + 1)).dropWhile fun c => !isTerminator c)

structure FunctionMatch where
  name : Text
  params : Text
  body : Text
  deriving DecidableEq, Repr

/-- `(\w+)\(([^)]*)\)\s+(.+)$` after the head. -/
def functionPattern (t : Text) : Option (FunctionMatch × Text) :=
  (definedPattern t).bind fun (name, u) =>
    match u with
    | '(' :: v =>
      match v.dropWhile (· ≠ ')') with
      | _ :: w =>
        (lineAfterSpace w (w.takeWhile isSpace).length).map fun (body, rest) =>
          (⟨name, v.takeWhile (· ≠ ')'), body⟩, rest)
      | [] => none
    | _ => none

/-! ### Tables -/

structure MacroDef where
  params : List Text
  expansion : Text
  deriving DecidableEq, Repr

/-- `text.includes(word)` -/
def includes (text word : Text) : Bool := text.tails.any word.isPrefixOf

def hasDefine (stripped : Text) : Bool :=
  includes stripped ('#' :: define) || includes stripped ('#' :: ' ' :: define)

/-- `stripped.replace(/\\\r?\n/g, ' ')` -/
def joinContinuations : Text → Text
  | [] => []
  | '\\' :: '\n' :: t => ' ' :: joinContinuations t
  | '\\' :: '\r' :: '\n' :: t => ' ' :: joinContinuations t
  | c :: t => c :: joinContinuations t

def paramsOf (params : Text) : List Text :=
  ((params.splitOn ',').map trim).filter fun p => !p.isEmpty

def isVariadic (params : List Text) : Bool := params.any (['.', '.', '.'].isSuffixOf ·)

/-- The definition that a match adds, unless it is variadic. -/
def FunctionMatch.entry (m : FunctionMatch) : Option (Text × MacroDef) :=
  if isVariadic (paramsOf m.params) then none else some (m.name, ⟨paramsOf m.params, trim m.body⟩)

def toMap {ι : Type} (entries : List (Text × ι)) : List (Text × ι) :=
  entries.foldl (fun map e => InsertionMap.assign map e.1 e.2) []

def functionMatches (stripped : Text) : List FunctionMatch :=
  if hasDefine stripped then execAll functionPattern true 0 (joinContinuations stripped) else []

def objectMatches (stripped : Text) : List (Text × Text) :=
  if hasDefine stripped then execAll objectPattern true 0 (joinContinuations stripped) else []

def parseFunctionMacros (stripped : Text) : List (Text × MacroDef) :=
  toMap ((functionMatches stripped).filterMap FunctionMatch.entry)

def parseObjectMacros (stripped : Text) : List (Text × Text) :=
  toMap ((objectMatches stripped).map fun m => (m.1, trim m.2))

def parseDefinedNames (stripped : Text) : List Text :=
  if hasDefine stripped then (execAll definedPattern true 0 stripped).eraseDups else []

variable {ι : Type}

theorem lookup_toMap (entries : List (Text × ι)) (name : Text) :
    InsertionMap.lookup (toMap entries) name =
      (entries.reverse.find? (·.1 = name)).map Prod.snd := by
  induction entries using List.reverseRecOn with
  | nil => rfl
  | append_singleton entries e ih =>
    rw [toMap, List.foldl_append, List.foldl_cons, List.foldl_nil, InsertionMap.lookup_assign,
      ← toMap, ih, List.reverse_append, List.reverse_singleton, List.singleton_append, List.find?_cons]
    by_cases same : name = e.1
    · simp [same]
    · have other : decide (e.1 = name) = false := decide_eq_false fun is => same is.symm
      rw [if_neg same, other]

theorem lookup_toMap_none {entries : List (Text × ι)} {name : Text} :
    InsertionMap.lookup (toMap entries) name = none ↔ ∀ e ∈ entries, e.1 ≠ name := by
  rw [lookup_toMap, Option.map_eq_none_iff, List.find?_eq_none]
  simp

theorem mem_of_lookup_toMap {entries : List (Text × ι)} {name : Text} {value : ι}
    (found : InsertionMap.lookup (toMap entries) name = some value) : (name, value) ∈ entries := by
  rw [lookup_toMap] at found
  obtain ⟨e, last, same⟩ := Option.map_eq_some_iff.mp found
  have named := List.find?_some last
  rw [decide_eq_true_eq] at named
  obtain rfl : e = (name, value) := Prod.ext named same
  exact List.mem_reverse.mp (List.mem_of_find?_eq_some last)

/-! ### From line to line

A pattern that begins with `^` is tried at the starts of lines only, so a run goes from one line to the
next, or from the end of a match to the next line after it. -/

variable {α : Type} {pattern : Text → Option (α × Text)} {a : α} {c : Char} {t u rest used : Text}

def run (pattern : Text → Option (α × Text)) (t : Text) : List α := execAll pattern true 0 t

def runNext (pattern : Text → Option (α × Text)) (t : Text) : List α :=
  match nextLine t with
  | none => []
  | some u => run pattern u

theorem execAll_within (t : Text) : execAll pattern false 0 t = runNext pattern t := by
  induction t with
  | nil => rfl
  | cons c t ih =>
    rw [execAll, runNext, nextLine]
    simp only [Bool.false_eq_true, if_false]
    cases isTerminator c with
    | true => rfl
    | false => exact ih

theorem run_none (fails : pattern t = none) : run pattern t = runNext pattern t := by
  cases t with
  | nil => rfl
  | cons c t =>
    have within : execAll pattern false 0 (c :: t) = runNext pattern (c :: t) := execAll_within (c :: t)
    rw [execAll] at within
    simp only [Bool.false_eq_true, if_false] at within
    rw [← within, run, execAll]
    simp only [if_true, fails]

theorem execAll_skip (start : Bool) (used rest : Text) :
    execAll pattern start used.length (used ++ rest) =
      execAll pattern (used.getLast?.elim start isTerminator) 0 rest := by
  induction used generalizing start with
  | nil => rfl
  | cons c used ih =>
    have step : execAll pattern start (c :: used).length (c :: used ++ rest) =
        execAll pattern (isTerminator c) used.length (used ++ rest) := rfl
    rw [step, ih]
    cases used with
    | nil => rfl
    | cons d used => simp [List.getLast?_cons]

theorem execAll_pass {start : Bool} (quiet : ∀ a b, used = a ++ b → b ≠ [] →
      a.getLast?.elim start isTerminator = true → pattern (b ++ rest) = none) :
    execAll pattern start 0 (used ++ rest) =
      execAll pattern (used.getLast?.elim start isTerminator) 0 rest := by
  induction used generalizing start with
  | nil => rfl
  | cons c used ih =>
    have first : (if start then pattern (c :: (used ++ rest)) else none) = none := by
      cases start with
      | false => rfl
      | true => exact quiet [] (c :: used) rfl (List.cons_ne_nil _ _) rfl
    have later : execAll pattern (isTerminator c) 0 (used ++ rest) =
        execAll pattern (used.getLast?.elim (isTerminator c) isTerminator) 0 rest :=
      ih fun a b parts some_ starts => quiet (c :: a) b (by rw [parts, List.cons_append]) some_ (by
        cases a with
        | nil => exact starts
        | cons d a => rwa [List.getLast?_cons_cons])
    have last : (c :: used).getLast?.elim start isTerminator =
        used.getLast?.elim (isTerminator c) isTerminator := by
      cases used with
      | nil => rfl
      | cons d used => rw [List.getLast?_cons_cons, List.getLast?_cons]; rfl
    rw [List.cons_append, execAll, first, last]
    exact later

/-- After a match the run goes on with the next line, if nothing matches right at its end. -/
theorem run_some (found : pattern (used ++ rest) = some (a, rest)) (some_ : used ≠ [])
    (ends : used.getLast?.all (fun c => !isTerminator c) ∨ pattern rest = none) :
    run pattern (used ++ rest) = a :: runNext pattern rest := by
  cases used with
  | nil => exact absurd rfl some_
  | cons c used =>
    have after : execAll pattern (isTerminator c) used.length (used ++ rest) =
        runNext pattern rest := by
      rw [execAll_skip]
      rcases ends with plain | fails
      · have within : used.getLast?.elim (isTerminator c) isTerminator = false := by
          cases used with
          | nil => simpa using plain
          | cons d used =>
            rw [List.getLast?_cons_cons] at plain
            rw [List.getLast?_cons] at plain ⊢
            simpa using plain
        rw [within, execAll_within]
      · cases used.getLast?.elim (isTerminator c) isTerminator with
        | true => exact run_none fails
        | false => exact execAll_within rest
    have length : (used ++ rest).length - rest.length = used.length := by
      rw [List.length_append, Nat.add_sub_cancel]
    rw [run, List.cons_append, execAll]
    simp only [if_true]
    rw [← List.cons_append, found]
    simp only [length, after]

theorem execAll_mem {start : Bool} {skip : Nat} (listed : a ∈ execAll pattern start skip t) :
    ∃ u rest, pattern u = some (a, rest) := by
  induction t generalizing start skip with
  | nil => cases listed
  | cons c t ih =>
    cases skip with
    | succ skip => exact ih listed
    | zero =>
      rw [execAll] at listed
      split at listed
      · next captured rest found =>
        rcases List.mem_cons.mp listed with rfl | later
        · split at found
          · exact ⟨_, _, found⟩
          · cases found
        · exact ih later
      · exact ih listed

theorem run_mem (listed : a ∈ run pattern t) : ∃ u rest, pattern u = some (a, rest) := execAll_mem listed

theorem run_nil (fails : ∀ u, u <:+ t → pattern u = none) : run pattern t = [] := by
  induction length : t.length using Nat.strongRecOn generalizing t with
  | ind n ih =>
    subst length
    rw [run_none (fails t List.suffix_rfl), runNext]
    cases next : nextLine t with
    | none => rfl
    | some u =>
      have suffix := nextLine_suffix next
      exact ih u.length (nextLine_length next) (fun v later => fails v (later.trans suffix)) rfl

theorem runNext_nil (fails : ∀ u, u <:+ t → pattern u = none) : runNext pattern t = [] := by
  rw [← run_none (fails t List.suffix_rfl)]
  exact run_nil fails

/-! ### The patterns -/

theorem dropWhile_eq {p : Char → Bool} (t : Text) : ∃ used, t = used ++ t.dropWhile p ∧
    used = t.takeWhile p ∧ ∀ c ∈ used, p c = true :=
  ⟨_, List.takeWhile_append_dropWhile.symm, rfl, fun _ listed => List.mem_takeWhile_imp listed⟩

def inHead (c : Char) : Bool := isBlank c || ('#' :: define).contains c

theorem inHead_plain (head : inHead c = true) : isTerminator c = false ∧ c ≠ ')' := by
  rw [inHead, Bool.or_eq_true] at head
  rcases head with blank | listed
  · have cases : c = ' ' ∨ c = '\t' := by simpa [isBlank] using blank
    rcases cases with rfl | rfl <;> decide
  · have all : ∀ c ∈ '#' :: define, isTerminator c = false ∧ c ≠ ')' := by decide
    exact all c (List.contains_iff_mem.mp listed)

structure Head where
  lead : Blanks
  gap : Blanks
  space : Blanks
  some_ : space.1 ≠ []

def Head.text (h : Head) : Text := h.lead.1 ++ '#' :: (h.gap.1 ++ (define ++ h.space.1))

theorem Head.inHead (h : Head) : ∀ c ∈ h.text, inHead c = true := by
  have in_ : ∀ c, isBlank c = true → Macros.inHead c = true :=
    fun c blank => by rw [Macros.inHead, blank, Bool.true_or]
  have word : ∀ c ∈ '#' :: define, Macros.inHead c = true := by decide
  intro d listed
  simp only [Head.text, List.mem_append, List.mem_cons] at listed
  rcases listed with old | rfl | old | old | old
  · exact in_ d (h.lead.2 d old)
  · rfl
  · exact in_ d (h.gap.2 d old)
  · exact word d (List.mem_cons_of_mem _ old)
  · exact in_ d (h.space.2 d old)

theorem defineHead_text (found : defineHead t = some u) :
    ∃ h : Head, t = h.text ++ u ∧ skipBlanks u = u := by
  unfold defineHead at found
  obtain ⟨lead, whole, -, blank⟩ := dropWhile_eq (p := isBlank) t
  split at found
  · next v hash =>
    obtain ⟨gap, inner, -, gaps⟩ := dropWhile_eq (p := isBlank) v
    split at found
    · next starts =>
      obtain ⟨w, split_⟩ := List.isPrefixOf_iff_prefix.mp starts
      have rest : (skipBlanks v).drop 6 = w := by rw [← split_]; rfl
      rw [rest] at found
      split at found
      · next c x =>
        split at found
        · next first =>
          obtain ⟨more, tail, -, blanks⟩ := dropWhile_eq (p := isBlank) x
          cases found
          have spaces : ∀ d ∈ c :: more, isBlank d = true := by
            intro d listed
            rcases List.mem_cons.mp listed with rfl | old
            · exact first
            · exact blanks d old
          refine ⟨⟨⟨lead, blank⟩, ⟨gap, gaps⟩, ⟨c :: more, spaces⟩, List.cons_ne_nil _ _⟩, ?_,
            List.dropWhile_idempotent isBlank x⟩
          have inner : v = gap ++ (define ++ c :: x) := by
            rw [split_]
            exact inner
          have hash : t.dropWhile isBlank = '#' :: v := hash
          have tail : x = more ++ skipBlanks x := tail
          rw [hash, inner] at whole
          conv_lhs => rw [whole, tail]
          simp only [Head.text, List.append_assoc, List.cons_append]
        · cases found
      · cases found
    · cases found
  · cases found

theorem skipBlanks_blanks (b : Blanks) (t : Text) : skipBlanks (b.1 ++ t) = skipBlanks t :=
  List.dropWhile_append_of_pos b.2

theorem defineHead_append (h : Head) (t : Text) : defineHead (h.text ++ t) = some (skipBlanks t) := by
  obtain ⟨c, more, shape⟩ := List.exists_cons_of_ne_nil h.some_
  have first : isBlank c = true := h.space.2 c (by rw [shape]; exact List.mem_cons_self)
  have after : skipBlanks (more ++ t) = skipBlanks t :=
    skipBlanks_blanks ⟨more, fun d listed => h.space.2 d (by rw [shape]; exact List.mem_cons_of_mem c listed)⟩ t
  have hash : skipBlanks (h.text ++ t) = '#' :: (h.gap.1 ++ (define ++ (h.space.1 ++ t))) := by
    rw [Head.text, List.append_assoc, skipBlanks_blanks]
    simp [skipBlanks, isBlank]
  have word : skipBlanks (h.gap.1 ++ (define ++ (h.space.1 ++ t))) = define ++ (c :: (more ++ t)) := by
    rw [skipBlanks_blanks, shape]
    rfl
  have starts : define.isPrefixOf (define ++ (c :: (more ++ t))) = true :=
    List.isPrefixOf_iff_prefix.mpr (List.prefix_append _ _)
  rw [defineHead, hash]
  simp only [word, starts, if_true]
  have rest : (define ++ (c :: (more ++ t))).drop 6 = c :: (more ++ t) := rfl
  simp only [rest, first, if_true, after]

theorem defineHead_some (found : defineHead t = some u) :
    ∃ used, t = used ++ u ∧ used ≠ [] ∧ ∀ c ∈ used, inHead c = true := by
  obtain ⟨h, whole, -⟩ := defineHead_text found
  exact ⟨h.text, whole, by simp [Head.text], h.inHead⟩

theorem isSpace_of_isTerminator (ends : isTerminator c = true) : isSpace c = true := by
  simp only [isTerminator, Bool.or_eq_true, beq_iff_eq] at ends
  rcases ends with ((rfl | rfl) | sep) | sep
  · rfl
  · rfl
  · simp [isSpace, sep]
  · simp [isSpace, sep]

theorem not_terminator_of_isWord (word : isWord c = true) : isTerminator c = false := by
  cases ends : isTerminator c with
  | false => rfl
  | true =>
    rw [isWord_of_isSpace (isSpace_of_isTerminator ends)] at word
    cases word

theorem defineHead_stops (head : defineHead t = some u) : skipBlanks u = u := by
  obtain ⟨h, -, stops⟩ := defineHead_text head
  exact stops

theorem objectPattern_eq (t : Text) : objectPattern t = (definedPattern t).bind fun m =>
    match skipBlanks m.2 with
    | [] => none
    | c :: w =>
      if m.2 = c :: w ∨ isSpace c = true then none
      else some ((m.1, (c :: w).takeWhile (· ≠ '\n')), (c :: w).dropWhile (· ≠ '\n')) := by
  rw [objectPattern]
  congr 1
  funext m
  obtain ⟨name, u⟩ := m
  cases u with
  | nil => rfl
  | cons d v =>
    by_cases blank : isBlank d = true
    · have skips : skipBlanks (d :: v) = skipBlanks v := List.dropWhile_cons_of_pos blank
      simp only [blank, if_true, skips]
      cases rest : skipBlanks v with
      | nil => rfl
      | cons c w =>
        have other : ¬d :: v = c :: w := by
          intro same
          have stop := List.head?_dropWhile_not isBlank v
          rw [← skipBlanks, rest] at stop
          cases same
          simp [blank] at stop
        simp only [other, false_or]
    · have stays : skipBlanks (d :: v) = d :: v := List.dropWhile_cons_of_neg blank
      simp only [blank, stays, true_or, if_true]
      rfl

def opening (t : Text) : Option (Text × Text × Text) :=
  (defineHead t).bind fun u =>
    match afterWord u with
    | '(' :: v =>
      match v.dropWhile (· ≠ ')') with
      | _ :: w => some (wordAt u, v.takeWhile (· ≠ ')'), w)
      | [] => none
    | _ => none

theorem functionPattern_eq (t : Text) : functionPattern t = (opening t).bind fun o =>
    if o.1 = [] then none
    else (lineAfterSpace o.2.2 (o.2.2.takeWhile isSpace).length).map fun line =>
      (⟨o.1, o.2.1, line.1⟩, line.2) := by
  rw [functionPattern, definedPattern, opening]
  cases defineHead t with
  | none => rfl
  | some u =>
    simp only [Option.bind_some]
    by_cases nameless : wordAt u = []
    · rw [if_pos nameless]
      split
      · split
        · simp only [Option.bind_none, Option.bind_some, if_pos nameless]
        · rfl
      · rfl
    · rw [if_neg nameless]
      simp only [Option.bind_some]
      split
      · split
        · simp only [Option.bind_some, if_neg nameless]
        · rfl
      · rfl

theorem functionPattern_some {name params w : Text} (opened : opening t = some (name, params, w)) (named : name ≠ []) :
    functionPattern t = (lineAfterSpace w (w.takeWhile isSpace).length).map fun line =>
      (⟨name, params, line.1⟩, line.2) := by
  rw [functionPattern_eq, opened, Option.bind_some, if_neg named]

theorem opening_some {name params w : Text} (found : opening t = some (name, params, w)) :
    ∃ head, t = head ++ (name ++ '(' :: (params ++ ')' :: w)) ∧ head ≠ [] ∧
      (∀ c ∈ head, inHead c = true) ∧ (∀ c ∈ name, isWord c = true) ∧ ')' ∉ params := by
  obtain ⟨u, head, opened⟩ := Option.bind_eq_some_iff.mp found
  obtain ⟨used, whole, some_, heads⟩ := defineHead_some head
  split at opened
  · next v paren =>
    split at opened
    · next d x close =>
      cases opened
      obtain ⟨list, split_, same, plain⟩ := dropWhile_eq (p := fun c => decide (c ≠ ')')) v
      have closing : d = ')' := by
        have stop := List.head?_dropWhile_not (fun c => decide (c ≠ ')')) v
        rw [close] at stop
        simpa using stop
      refine ⟨used, ?_, some_, heads, fun c listed => List.mem_takeWhile_imp listed, ?_⟩
      · rw [close, closing, same] at split_
        conv_lhs => rw [whole, ← wordAt_append_afterWord u, paren, split_]
      · intro listed
        have other := List.mem_takeWhile_imp listed
        simp at other
    · cases opened
  · cases opened

variable {w : Text}

theorem skipSpace_nil : skipSpace w = [] ↔ ∀ c ∈ w, isSpace c = true := List.dropWhile_eq_nil_iff

theorem firstLine_nil : (skipSpace w).takeWhile (fun c => !isTerminator c) = [] ↔ skipSpace w = [] := by
  constructor
  · intro none_
    cases shape : skipSpace w with
    | nil => rfl
    | cons c x =>
      rw [shape] at none_
      have stop := List.head?_dropWhile_not isSpace w
      rw [← skipSpace, shape] at stop
      have ends : isTerminator c = true := by
        cases ends : isTerminator c with
        | true => rfl
        | false => simp [ends] at none_
      simp [isSpace_of_isTerminator ends] at stop
  · intro none_
    rw [none_]
    rfl

theorem lineAfterSpace_some (moves : w ≠ skipSpace w) (more : skipSpace w ≠ []) :
    lineAfterSpace w (w.takeWhile isSpace).length =
      some ((skipSpace w).takeWhile (fun c => !isTerminator c),
        (skipSpace w).dropWhile fun c => !isTerminator c) := by
  have some_ : w.takeWhile isSpace ≠ [] := by
    intro none_
    refine moves ?_
    conv_lhs => rw [← List.takeWhile_append_dropWhile (p := isSpace) (l := w), none_, List.nil_append]
    rfl
  obtain ⟨n, length⟩ := Nat.exists_eq_succ_of_ne_zero (mt List.length_eq_zero_iff.mp some_)
  have rest : w.drop (n + 1) = skipSpace w := by
    rw [show n + 1 = _ from length.symm]
    conv_lhs => rw [← List.takeWhile_append_dropWhile (p := isSpace) (l := w)]
    rw [List.takeWhile_append_dropWhile, skipSpace]
    conv_lhs => arg 2; rw [← List.takeWhile_append_dropWhile (p := isSpace) (l := w)]
    rw [List.drop_left]
  rw [length, lineAfterSpace, rest]
  simp only [if_neg (mt firstLine_nil.mp more)]

/-- Where only line ends are left, the white space is given back up to the last character before. -/
theorem lineAfterSpace_blank {n : Nat} (ends : ∀ c ∈ w.drop n, isTerminator c = true) :
    (lineAfterSpace w n = none ∧ ∀ c ∈ w.drop 1, isTerminator c = true) ∨
      ∃ c rest, lineAfterSpace w n = some ([c], rest) ∧ c ∈ w.drop 1 ∧ isTerminator c = false ∧
        (∀ d ∈ rest, isTerminator d = true) ∧ [c] ++ rest <:+ w := by
  induction n with
  | zero => exact Or.inl ⟨rfl, fun c listed => ends c (List.mem_of_mem_drop listed)⟩
  | succ n ih =>
    have empty : (w.drop (n + 1)).takeWhile (fun c => !isTerminator c) = [] := by
      cases shape : w.drop (n + 1) with
      | nil => rfl
      | cons c x => rw [List.takeWhile_cons_of_neg (by simp [ends c (by simp [shape])])]
    rw [lineAfterSpace]
    simp only [empty, if_true]
    rcases n with _ | n
    · exact Or.inl ⟨rfl, ends⟩
    cases shape : w.drop (n + 1) with
    | nil =>
      apply ih
      intro c listed
      rw [shape] at listed
      cases listed
    | cons c x =>
      have after : w.drop (n + 1 + 1) = x := by
        rw [← List.drop_drop, shape]
        rfl
      rw [after] at ends
      by_cases end_ : isTerminator c = true
      · apply ih
        intro d listed
        rw [shape] at listed
        rcases List.mem_cons.mp listed with rfl | old
        · exact end_
        · exact ends d old
      · have stops : x.takeWhile (fun c => !isTerminator c) = [] ∧
            x.dropWhile (fun c => !isTerminator c) = x := by
          cases x with
          | nil => exact ⟨rfl, rfl⟩
          | cons d x => simp [ends d List.mem_cons_self]
        have plain : isTerminator c = false := by simpa using end_
        refine Or.inr ⟨c, x, ?_, ?_, plain, ends, ?_⟩
        · rw [lineAfterSpace, shape]
          simp only [List.takeWhile_cons, List.dropWhile_cons, plain, Bool.not_false, if_true, stops,
            List.cons_ne_nil, if_false]
        · have here : c ∈ w.drop (n + 1) := by simp [shape]
          rw [Nat.add_comm, ← List.drop_drop] at here
          exact List.mem_of_mem_drop here
        · have suffix := List.drop_suffix (n + 1) w
          rwa [shape] at suffix

end CodeGraph.Resolution.Macros
