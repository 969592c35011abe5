import CodeGraph.Extraction.CppScans

/-!
# Where the two scanners agree

A source whose tokens both scanners read to the same end has the same identifiers and directives in
both.
-/
namespace CodeGraph.Extraction.CppScans

open Scanning Text

def identifiers (s : JsString) (reads : List Read) : List MacroMethods.Word :=
  reads.filterMap fun r => if r.kind = .word then some ⟨slice s r.start r.stop, r.start, r.stop⟩ else none

def directiveStarts (reads : List Read) : List Nat :=
  reads.filterMap fun r => if r.kind = .directive then some r.start else none

structure Agree (s : JsString) : Prop where
  words : ∀ names : JsString → Bool, (MacroMethods.cppCodeScan s (some names)).2 =
    (identifiers s (BraceScopes.reads s)).filter fun w => names w.name
  directives : ∀ names, (MacroMethods.cppCodeScan s names).1.map MacroMethods.Directive.start =
    directiveStarts (BraceScopes.reads s)

/-- No group of a number's word characters begins with a letter, and its separators follow one. -/
def Plain (s : JsString) (i e : Nat) : Prop :=
  ∀ k c, i ≤ k → k < e → s[k]? = some c →
    (MacroMethods.isWordStart c = true → i < k ∧ s[k - 1]?.any MacroMethods.isWordChar = true) ∧
    (c = SINGLE → s[k - 1]?.any MacroMethods.isWordChar = true)

structure Other (s : JsString) (i : Nat) (c : UInt16) : Prop where
  newline : c ≠ NEWLINE
  blank : isBlank c = false
  lineComment : ¬(c = SLASH ∧ s[i + 1]? = some SLASH)
  blockComment : ¬(c = SLASH ∧ s[i + 1]? = some STAR)
  string : c ≠ DOUBLE
  character : c ≠ SINGLE
  number : ¬(isDigit c = true ∨ (c = DOT ∧ s[i + 1]?.any isDigit = true))
  word : BraceScopes.isWordStart c = false

/-- From a place on, each token has the same end for both scanners. The flags say whether a directive
may begin for the one and for the other; `start` is where the word begins that ends right here. -/
inductive Alike (s : JsString) : Bool → Bool → Option Nat → Nat → Prop
  | done {l m : Bool} {start : Option Nat} {i : Nat} (beyond : s.length ≤ i) : Alike s l m start i
  | newline {l m : Bool} {start : Option Nat} {i : Nat} (here : s[i]? = some NEWLINE)
      (rest : Alike s true true none (i + 1)) : Alike s l m start i
  | blank {l m : Bool} {start : Option Nat} {i : Nat} {c : UInt16} (here : s[i]? = some c)
      (blank : isBlank c = true) (rest : Alike s l m none (i + 1)) : Alike s l m start i
  | lineComment {l m : Bool} {start : Option Nat} {i : Nat} (here : s[i]? = some SLASH)
      (second : s[i + 1]? = some SLASH) (rest : Alike s l m none (lineCommentEnd s (i + 2))) :
      Alike s l m start i
  | blockComment {l m : Bool} {start : Option Nat} {i : Nat} (here : s[i]? = some SLASH)
      (second : s[i + 1]? = some STAR) (rest : Alike s l m none (blockCommentEnd s i (lt_length here))) :
      Alike s l m start i
  | directive {start : Option Nat} {i : Nat} (here : s[i]? = some HASH)
      (same : MacroMethods.directiveEnd s i = BraceScopes.directiveEnd s i)
      (rest : Alike s true true none (BraceScopes.directiveEnd s i)) : Alike s true true start i
  | string {l m : Bool} {start : Option Nat} {i : Nat} (here : s[i]? = some DOUBLE)
      (same : MacroMethods.literalEnd s start i (lt_length here) =
        BraceScopes.literalEnd s start i (lt_length here))
      (rest : Alike s false false none (BraceScopes.literalEnd s start i (lt_length here))) :
      Alike s l m start i
  | character {l m : Bool} {start : Option Nat} {i : Nat} (here : s[i]? = some SINGLE)
      (apart : s[i - 1]?.any MacroMethods.isWordChar = true → 0 < i → start ≠ none)
      (same : MacroMethods.quotedEnd s i (lt_length here) = BraceScopes.quotedEnd s i (lt_length here))
      (rest : Alike s false false none (BraceScopes.quotedEnd s i (lt_length here))) : Alike s l m start i
  | number {l m : Bool} {start : Option Nat} {i : Nat} {c : UInt16} (here : s[i]? = some c)
      (begins : isDigit c = true ∨ (c = DOT ∧ s[i + 1]?.any isDigit = true))
      (plain : Plain s i (BraceScopes.numberEnd s i))
      (rest : Alike s false false none (BraceScopes.numberEnd s i)) : Alike s l m start i
  | word {l m : Bool} {start : Option Nat} {i : Nat} {c : UInt16} (here : s[i]? = some c)
      (begins : MacroMethods.isWordStart c = true)
      (same : MacroMethods.wordEnd s i = BraceScopes.wordEnd s i)
      (rest : Alike s false false (some i) (BraceScopes.wordEnd s i)) : Alike s l m start i
  | other {l m : Bool} {start : Option Nat} {i : Nat} {c : UInt16} (here : s[i]? = some c)
      (is : Other s i c) (hash : c = HASH → l = false ∧ m = false)
      (rest : Alike s false false none (i + 1)) : Alike s l m start i

/-- A source of such tokens: behind a byte-order mark, which only the scanner of braces passes over, a
directive may not begin for the other one. -/
def AllAlike (s : JsString) : Prop :=
  if s[0]? = some MARK then Alike s true false none 1 else Alike s true true none 0

variable {s : JsString} {i k first : Nat} {c : UInt16} {names : Option (JsString → Bool)}

def BraceScopes.readsFrom (s : JsString) (state : BraceScopes.State) (i : From first) : List Read :=
  rounds s.length (fun (state : BraceScopes.State) i =>
    match here : s[i.1]? with
    | none => .stop state.reads
    | some c =>
      let (kind, j) := BraceScopes.readAt s state.lineStart state.word i c here
      .go (state.after kind i j) j) (fun state _ => state.reads) state i

def MacroMethods.scanFrom (s : JsString) (names : Option (JsString → Bool)) (state : MacroMethods.State)
    (i : From first) : List MacroMethods.Directive × List MacroMethods.Word :=
  rounds s.length (fun (state : MacroMethods.State) i =>
    match here : s[i.1]? with
    | none => .stop (state.directives, state.words)
    | some c =>
      let (kind, j) := MacroMethods.readAt s state.lineStart state.word i c here
      .go (state.after s names kind i j) j) (fun state _ => (state.directives, state.words)) state i

theorem BraceScopes.readsFrom_done {state : BraceScopes.State} {i : From first} (beyond : s.length ≤ i) :
    BraceScopes.readsFrom s state i = state.reads := by
  rw [BraceScopes.readsFrom, rounds, if_neg (Nat.not_lt.mpr beyond)]

theorem BraceScopes.readsFrom_step {state : BraceScopes.State} {i : From first} {kind : Kind} {j : After i.1}
    (here : s[i.1]? = some c) (reads : BraceScopes.readAt s state.lineStart state.word i c here = (kind, j)) :
    BraceScopes.readsFrom s state i =
      BraceScopes.readsFrom s (state.after kind i j) ⟨j, i.2.trans (Nat.le_of_succ_le j.2)⟩ := by
  rw [BraceScopes.readsFrom, rounds, if_pos (lt_length here)]
  split
  · next state' j' later went =>
    split at went
    · next none_ =>
      rw [here] at none_
      cases none_
    · next d there =>
      obtain rfl : c = d := Option.some.inj (here.symm.trans there)
      rw [reads] at went
      cases went
      rfl
  · next result went =>
    split at went
    · next none_ =>
      rw [here] at none_
      cases none_
    · cases went

theorem MacroMethods.scanFrom_done {state : MacroMethods.State} {i : From first} (beyond : s.length ≤ i) :
    MacroMethods.scanFrom s names state i = (state.directives, state.words) := by
  rw [MacroMethods.scanFrom, rounds, if_neg (Nat.not_lt.mpr beyond)]

theorem MacroMethods.scanFrom_step {state : MacroMethods.State} {i : From first} {kind : Kind}
    {j : After i.1} (here : s[i.1]? = some c)
    (reads : MacroMethods.readAt s state.lineStart state.word i c here = (kind, j)) :
    MacroMethods.scanFrom s names state i =
      MacroMethods.scanFrom s names (state.after s names kind i j) ⟨j, i.2.trans (Nat.le_of_succ_le j.2)⟩ := by
  rw [MacroMethods.scanFrom, rounds, if_pos (lt_length here)]
  split
  · next state' j' later went =>
    split at went
    · next none_ =>
      rw [here] at none_
      cases none_
    · next d there =>
      obtain rfl : c = d := Option.some.inj (here.symm.trans there)
      rw [reads] at went
      cases went
      rfl
  · next result went =>
    split at went
    · next none_ =>
      rw [here] at none_
      cases none_
    · cases went

theorem isBlank_apart (blank : isBlank c = true) : c ≠ NEWLINE := by
  rintro rfl
  revert blank
  decide

theorem word_of_word (word : MacroMethods.isWordChar c = true) : BraceScopes.isWordChar c = true := by
  simp only [MacroMethods.isWordChar, MacroMethods.isWordStart, Bool.or_eq_true] at word
  simp only [BraceScopes.isWordChar, BraceScopes.isWordStart, isDigit, Bool.or_eq_true]
  rcases word with ((small | large) | line) | digit
  · exact Or.inl (Or.inl (Or.inl (Or.inl (Or.inl small))))
  · exact Or.inl (Or.inl (Or.inl (Or.inl (Or.inr large))))
  · exact Or.inl (Or.inl (Or.inl (Or.inr line)))
  · exact Or.inr digit

def inNumber (c : UInt16) : Bool :=
  BraceScopes.isWordChar c || c == DOT || c == SINGLE || c == 43 || c == 45

structure Solid (c : UInt16) : Prop where
  newline : c ≠ NEWLINE
  blank : isBlank c = false
  slash : c ≠ SLASH
  hash : c ≠ HASH
  string : c ≠ DOUBLE

theorem solid_of_inNumber (number : inNumber c = true) : Solid c := by
  have apart : ∀ d, inNumber d = false → c ≠ d := by
    rintro d none_ rfl
    rw [number] at none_
    cases none_
  refine ⟨apart NEWLINE (by decide), ?_, apart SLASH (by decide), apart HASH (by decide),
    apart DOUBLE (by decide)⟩
  cases blank : isBlank c with
  | false => rfl
  | true =>
    simp only [isBlank, Bool.or_eq_true, beq_iff_eq] at blank
    rcases blank with (((rfl | rfl) | rfl) | rfl) | rfl <;> exact absurd number (by decide)

theorem inNumber_of_word (word : BraceScopes.isWordChar c = true) : inNumber c = true := by
  rw [inNumber, word]
  rfl

theorem not_single_of_word (word : BraceScopes.isWordChar c = true) : c ≠ SINGLE := by
  rintro rfl
  revert word
  decide

/-! ### What the scanner of braces reads -/

section Braces

variable {l : Bool} {word : Option (Nat × Nat)}

theorem BraceScopes.readAt_newline (here : s[i]? = some NEWLINE) :
    BraceScopes.readAt s l word i NEWLINE here = (.newline, next i) := by
  rw [BraceScopes.readAt, if_pos rfl]

theorem BraceScopes.readAt_blank (here : s[i]? = some c) (blank : isBlank c = true) :
    BraceScopes.readAt s l word i c here = (.blank, next i) := by
  rw [BraceScopes.readAt, if_neg (isBlank_apart blank), if_pos blank]

theorem BraceScopes.readAt_lineComment (here : s[i]? = some SLASH) (second : s[i + 1]? = some SLASH) :
    BraceScopes.readAt s l word i SLASH here =
      (.comment, ⟨lineCommentEnd s (i + 2), Nat.le_of_succ_le (lineCommentEnd s (i + 2)).2⟩) := by
  rw [BraceScopes.readAt, if_neg (by decide), if_neg (by decide), if_pos ⟨rfl, second⟩]

theorem BraceScopes.readAt_blockComment (here : s[i]? = some SLASH) (second : s[i + 1]? = some STAR) :
    BraceScopes.readAt s l word i SLASH here = (.comment, blockCommentEnd s i (lt_length here)) := by
  have other : ¬(SLASH = SLASH ∧ s[i + 1]? = some SLASH) := by
    rintro ⟨-, slash⟩
    rw [second] at slash
    cases slash
  rw [BraceScopes.readAt, if_neg (by decide), if_neg (by decide), if_neg other, if_pos ⟨rfl, second⟩]

theorem BraceScopes.readAt_directive (here : s[i]? = some HASH) :
    BraceScopes.readAt s true word i HASH here = (.directive, BraceScopes.directiveEnd s i) := by
  have slash : ∀ d, ¬(HASH = SLASH ∧ s[i + 1]? = some d) := fun d is => absurd is.1 (by decide)
  rw [BraceScopes.readAt, if_neg (by decide), if_neg (by decide), if_neg (slash _), if_neg (slash _),
    if_pos ⟨rfl, rfl⟩]

theorem BraceScopes.readAt_string (here : s[i]? = some DOUBLE) :
    BraceScopes.readAt s l word i DOUBLE here =
      (.literal, BraceScopes.literalEnd s (prefixAt word i) i (lt_length here)) := by
  have slash : ∀ d, ¬(DOUBLE = SLASH ∧ s[i + 1]? = some d) := fun d is => absurd is.1 (by decide)
  rw [BraceScopes.readAt, if_neg (by decide), if_neg (by decide), if_neg (slash _), if_neg (slash _),
    if_neg (fun is => absurd is.1 (by decide)), if_pos rfl]

theorem BraceScopes.readAt_character (here : s[i]? = some SINGLE) :
    BraceScopes.readAt s l word i SINGLE here = (.literal, BraceScopes.quotedEnd s i (lt_length here)) := by
  have slash : ∀ d, ¬(SINGLE = SLASH ∧ s[i + 1]? = some d) := fun d is => absurd is.1 (by decide)
  rw [BraceScopes.readAt, if_neg (by decide), if_neg (by decide), if_neg (slash _), if_neg (slash _),
    if_neg (fun is => absurd is.1 (by decide)), if_neg (by decide), if_pos rfl]

theorem BraceScopes.readAt_solid (here : s[i]? = some c) (solid : Solid c) (single : c ≠ SINGLE) :
    BraceScopes.readAt s l word i c here =
      if isDigit c = true ∨ (c = DOT ∧ s[i + 1]?.any isDigit = true) then (.number, BraceScopes.numberEnd s i)
      else if BraceScopes.isWordStart c = true then (.word, BraceScopes.wordEnd s i) else (.other, next i) := by
  have slash : ∀ d, ¬(c = SLASH ∧ s[i + 1]? = some d) := fun d is => solid.slash is.1
  have blank : ¬isBlank c = true := by simp [solid.blank]
  rw [BraceScopes.readAt, if_neg solid.newline, if_neg blank, if_neg (slash _), if_neg (slash _),
    if_neg (fun is => solid.hash is.1), if_neg solid.string, if_neg single]

theorem BraceScopes.readAt_other (here : s[i]? = some c) (is : Other s i c) (hash : c = HASH → l = false) :
    BraceScopes.readAt s l word i c here = (.other, next i) := by
  have blank : ¬isBlank c = true := by simp [is.blank]
  have line : ¬(c = HASH ∧ l = true) := by
    rintro ⟨same, start⟩
    rw [hash same] at start
    cases start
  rw [BraceScopes.readAt, if_neg is.newline, if_neg blank, if_neg is.lineComment, if_neg is.blockComment,
    if_neg line, if_neg is.string, if_neg is.character, if_neg is.number, if_neg (by simp [is.word])]

end Braces

theorem indexOf_step (here : s[i]? = some c) (other : c ≠ NEWLINE) :
    (indexOf s [NEWLINE] i).map Subtype.val = (indexOf s [NEWLINE] (i + 1)).map Subtype.val := by
  obtain ⟨inside, is⟩ := List.getElem?_eq_some_iff.mp here
  have drop : s.drop i = c :: s.drop (i + 1) := by rw [List.drop_eq_getElem_cons inside, is]
  have not_ : ¬[NEWLINE].isPrefixOf (c :: s.drop (i + 1)) = true := by
    simp [List.isPrefixOf, Ne.symm other]
  rw [indexOf, drop, indexAfter, if_neg not_, Option.map_map, indexOf]
  rfl

theorem le_max_length (s : JsString) (first : Nat) : first ≤ max first s.length := Nat.le_max_left _ _

def lineRound (s : JsString) (first : Nat) (at_ : From first) : Round Unit (From first) at_.1 :=
  match indexOf s [NEWLINE] at_ with
  | none => .stop ⟨max first s.length, le_max_length s first⟩
  | some ⟨nl, later⟩ =>
    if continued s nl then .go () ⟨nl + 1, From.succ later⟩ else .stop ⟨nl, From.upto later⟩

theorem lineCommentEnd_eq : lineCommentEnd s i =
    rounds s.length (fun () at_ => lineRound s i at_) (fun () at_ => at_) () ⟨i, Nat.le_refl i⟩ := rfl

/-- Where the search began does not matter further on. -/
theorem line_rounds {f g : Nat} (k : Nat) (left : f ≤ k) (right : g ≤ k) (within : k ≤ s.length) :
    (rounds s.length (fun () at_ => lineRound s f at_) (fun () at_ => at_) () ⟨k, left⟩).1 =
      (rounds s.length (fun () at_ => lineRound s g at_) (fun () at_ => at_) () ⟨k, right⟩).1 := by
  induction length : s.length - k using Nat.strongRecOn generalizing k with
  | ind n ih =>
    rw [rounds, rounds]
    by_cases below : k < s.length
    · rw [if_pos below, if_pos below]
      simp only [lineRound]
      cases found : indexOf s [NEWLINE] k with
      | none =>
        simp only
        omega
      | some at_ =>
        obtain ⟨nl, later⟩ := at_
        have starts : nl + 1 ≤ s.length := startsAt_length (indexOf_starts found) (List.cons_ne_nil _ _)
        simp only
        by_cases goes : continued s nl = true
        · simp only [goes, if_true]
          exact ih (s.length - (nl + 1)) (by omega) (nl + 1) _ _ starts rfl
        · simp only [goes, if_false, Bool.false_eq_true]
    · rw [if_neg below, if_neg below]

theorem lineCommentEnd_slashes (first : s[i]? = some SLASH) (second : s[i + 1]? = some SLASH) :
    (lineCommentEnd s i).1 = (lineCommentEnd s (i + 2)).1 := by
  have same := (indexOf_step first (by decide)).trans (indexOf_step second (by decide))
  have inside := lt_length second
  rw [lineCommentEnd_eq, lineCommentEnd_eq, rounds, rounds, if_pos (by omega : i < s.length)]
  simp only [lineRound]
  cases found : indexOf s [NEWLINE] (i + 2) with
  | none =>
    rw [found] at same
    rw [Option.map_eq_none_iff.mp same]
    by_cases below : i + 2 < s.length
    · rw [if_pos below]
      simp only
      omega
    · rw [if_neg below]
      simp only
      omega
  | some at_ =>
    obtain ⟨nl, later⟩ := at_
    rw [found] at same
    obtain ⟨⟨nl', later'⟩, found', is⟩ := Option.map_eq_some_iff.mp same
    obtain rfl : nl' = nl := is
    have starts : nl' + 1 ≤ s.length := startsAt_length (indexOf_starts found) (List.cons_ne_nil _ _)
    rw [if_pos (by omega : i + 2 < s.length), found']
    simp only
    by_cases goes : continued s nl' = true
    · simp only [goes, if_true]
      exact line_rounds (nl' + 1) _ _ starts
    · simp only [goes, if_false, Bool.false_eq_true]

/-! ### What the scanner of words reads -/

section Words

variable {m : Bool} {word : Option (Nat × Nat)}

theorem MacroMethods.readAt_newline (here : s[i]? = some NEWLINE) :
    MacroMethods.readAt s m word i NEWLINE here = (.newline, next i) := by
  rw [MacroMethods.readAt, if_pos rfl]

theorem MacroMethods.readAt_blank (here : s[i]? = some c) (blank : isBlank c = true) :
    MacroMethods.readAt s m word i c here = (.blank, next i) := by
  rw [MacroMethods.readAt, if_neg (isBlank_apart blank), if_pos blank]

theorem MacroMethods.readAt_lineComment (here : s[i]? = some SLASH) (second : s[i + 1]? = some SLASH) :
    MacroMethods.readAt s m word i SLASH here =
      (.comment, ⟨lineCommentEnd s (i + 2), Nat.le_of_succ_le (lineCommentEnd s (i + 2)).2⟩) := by
  have behind := (lineCommentEnd s (i + 2)).2
  have ends : max (i + 1) (lineCommentEnd s i).1 = (lineCommentEnd s (i + 2)).1 := by
    rw [lineCommentEnd_slashes here second]
    omega
  rw [MacroMethods.readAt, if_neg (by decide), if_neg (by decide), if_pos ⟨rfl, second⟩]
  exact congrArg _ (Subtype.ext ends)

theorem MacroMethods.readAt_blockComment (here : s[i]? = some SLASH) (second : s[i + 1]? = some STAR) :
    MacroMethods.readAt s m word i SLASH here = (.comment, blockCommentEnd s i (lt_length here)) := by
  have other : ¬(SLASH = SLASH ∧ s[i + 1]? = some SLASH) := by
    rintro ⟨-, slash⟩
    rw [second] at slash
    cases slash
  rw [MacroMethods.readAt, if_neg (by decide), if_neg (by decide), if_neg other, if_pos ⟨rfl, second⟩]

theorem MacroMethods.readAt_directive (here : s[i]? = some HASH) :
    MacroMethods.readAt s true word i HASH here = (.directive, MacroMethods.directiveEnd s i) := by
  have slash : ∀ d, ¬(HASH = SLASH ∧ s[i + 1]? = some d) := fun d is => absurd is.1 (by decide)
  rw [MacroMethods.readAt, if_neg (by decide), if_neg (by decide), if_neg (slash _), if_neg (slash _),
    if_pos ⟨rfl, rfl⟩]

theorem MacroMethods.readAt_string (here : s[i]? = some DOUBLE) :
    MacroMethods.readAt s m word i DOUBLE here =
      (.literal, MacroMethods.literalEnd s (prefixAt word i) i (lt_length here)) := by
  have slash : ∀ d, ¬(DOUBLE = SLASH ∧ s[i + 1]? = some d) := fun d is => absurd is.1 (by decide)
  rw [MacroMethods.readAt, if_neg (by decide), if_neg (by decide), if_neg (slash _), if_neg (slash _),
    if_neg (fun is => absurd is.1 (by decide)), if_pos rfl]

theorem MacroMethods.readAt_character (here : s[i]? = some SINGLE) :
    MacroMethods.readAt s m word i SINGLE here = if MacroMethods.separates s word i then (.other, next i)
      else (.literal, MacroMethods.quotedEnd s i (lt_length here)) := by
  have slash : ∀ d, ¬(SINGLE = SLASH ∧ s[i + 1]? = some d) := fun d is => absurd is.1 (by decide)
  rw [MacroMethods.readAt, if_neg (by decide), if_neg (by decide), if_neg (slash _), if_neg (slash _),
    if_neg (fun is => absurd is.1 (by decide)), if_neg (by decide), if_pos rfl]

theorem MacroMethods.readAt_solid (here : s[i]? = some c) (solid : Solid c) (single : c ≠ SINGLE) :
    MacroMethods.readAt s m word i c here =
      if MacroMethods.isWordChar c = true then
        if MacroMethods.isWordStart c = true then (.word, MacroMethods.wordEnd s i)
        else (.number, MacroMethods.wordEnd s i)
      else (.other, next i) := by
  have slash : ∀ d, ¬(c = SLASH ∧ s[i + 1]? = some d) := fun d is => solid.slash is.1
  have blank : ¬isBlank c = true := by simp [solid.blank]
  rw [MacroMethods.readAt, if_neg solid.newline, if_neg blank, if_neg (slash _), if_neg (slash _),
    if_neg (fun is => solid.hash is.1), if_neg solid.string, if_neg single]

theorem MacroMethods.readAt_other (here : s[i]? = some c) (is : Other s i c) (hash : c = HASH → m = false) :
    MacroMethods.readAt s m word i c here = (.other, next i) := by
  have blank : ¬isBlank c = true := by simp [is.blank]
  have line : ¬(c = HASH ∧ m = true) := by
    rintro ⟨same, start⟩
    rw [hash same] at start
    cases start
  have word : ¬MacroMethods.isWordChar c = true := by
    intro word
    have either := word_of_word word
    rw [BraceScopes.isWordChar, is.word, Bool.false_or] at either
    exact is.number (Or.inl either)
  rw [MacroMethods.readAt, if_neg is.newline, if_neg blank, if_neg is.lineComment, if_neg is.blockComment,
    if_neg line, if_neg is.string, if_neg is.character, if_neg word]

end Words

def Digits (s : JsString) (i e : Nat) : Prop :=
  ∀ q, i < q → q < e → ∃ c, s[q]? = some c ∧ inNumber c = true

theorem BraceScopes.numberEnd_spec (s : JsString) (i : Nat) :
    Digits s i (BraceScopes.numberEnd s i) ∧
      ∀ c, s[(BraceScopes.numberEnd s i).1]? = some c → BraceScopes.isWordChar c = false := by
  have longer : ∀ {k c}, Digits s i k → s[k]? = some c → inNumber c = true → Digits s i (k + 1) := by
    intro k c old here number q after before
    by_cases last : q = k
    · exact ⟨c, by rw [last, here], number⟩
    · exact old q after (by omega)
  apply scan_spec (fun () k => Digits s i k) fun e : After i =>
    Digits s i e ∧ ∀ c, s[e.1]? = some c → BraceScopes.isWordChar c = false
  · rintro - k - old
    split
    · next none_ => exact ⟨old, fun c here => by rw [none_] at here; cases here⟩
    · next d here =>
      split
      · next number =>
        refine longer old here ?_
        rw [inNumber]
        simp only [Bool.or_eq_true] at number ⊢
        exact Or.inl (Or.inl (Or.inl number))
      · next other =>
        have stop : BraceScopes.isWordChar d = false := by
          cases word : BraceScopes.isWordChar d with
          | false => rfl
          | true => simp [word] at other
        split
        · next separator =>
          obtain ⟨rfl, follows⟩ := separator
          obtain ⟨e, there, word⟩ := (Option.any_eq_true _ _).mp follows
          exact longer (longer old here rfl) there (inNumber_of_word word)
        · split
          · next sign =>
            refine longer old here ?_
            rcases sign.1 with rfl | rfl <;> rfl
          · refine ⟨old, fun c there => ?_⟩
            rw [here] at there
            cases there
            exact stop
  · rintro - k beyond old
    refine ⟨old, fun c here => ?_⟩
    exact absurd (lt_length here) (Nat.not_lt.mpr beyond)
  · intro q after before
    exact absurd before (by omega)

/-- A group of word characters ends where none follows. -/
theorem MacroMethods.wordEnd_spec (s : JsString) (k : Nat) :
    (∀ q, k < q → q < (MacroMethods.wordEnd s k).1 →
        ∃ c, s[q]? = some c ∧ MacroMethods.isWordChar c = true) ∧
      ∀ c, s[(MacroMethods.wordEnd s k).1]? = some c → MacroMethods.isWordChar c = false := by
  have stop : (MacroMethods.wordEnd s k).1 =
    k + 1 + ((s.drop (k + 1)).takeWhile MacroMethods.isWordChar).length := rfl
  have ends := List.head?_dropWhile_not MacroMethods.isWordChar (s.drop (k + 1))
  have all : ∀ c ∈ (s.drop (k + 1)).takeWhile MacroMethods.isWordChar, MacroMethods.isWordChar c = true :=
    fun c listed => List.mem_takeWhile_imp listed
  have places : ∀ q, k < q → s[q]? = ((s.drop (k + 1)).takeWhile MacroMethods.isWordChar ++
      (s.drop (k + 1)).dropWhile MacroMethods.isWordChar)[q - (k + 1)]? := by
    intro q after
    rw [List.takeWhile_append_dropWhile, List.getElem?_drop]
    congr 1
    omega
  rw [stop]
  generalize (s.drop (k + 1)).takeWhile MacroMethods.isWordChar = word at all places ⊢
  generalize (s.drop (k + 1)).dropWhile MacroMethods.isWordChar = rest at ends places
  constructor
  · intro q after before
    have inside : q - (k + 1) < word.length := by omega
    rw [places q after, List.getElem?_append_left inside, List.getElem?_eq_getElem inside]
    exact ⟨_, rfl, all _ (List.getElem_mem inside)⟩
  · intro c here
    rw [places _ (by omega), Nat.add_sub_cancel_left, List.getElem?_append_right (Nat.le_refl _), Nat.sub_self,
      ← List.head?_eq_getElem?] at here
    rw [here] at ends
    simpa using ends

theorem prefixAt_later {word : Option (Nat × Nat)} (old : ∀ p ∈ word, p.2 ≤ i) (later : i < k) :
    prefixAt word k = none := by
  cases word with
  | none => rfl
  | some p =>
    have stop := old p rfl
    rw [prefixAt, if_neg (by omega)]

theorem MacroMethods.scanFrom_number {e : Nat} (here : s[i]? = some c) (number : inNumber c = true)
    (single : c ≠ SINGLE) (digits : Digits s i e)
    (stop : ∀ d, s[e]? = some d → MacroMethods.isWordChar d = false) (plain : Plain s i e)
    (state : MacroMethods.State) (old : ∀ p ∈ state.word, p.2 ≤ i) (k : From first) (after : i ≤ k.1)
    (before : k.1 ≤ e) (calm : k.1 = e → state.lineStart = false)
    (group : ∀ d, s[k.1]? = some d → MacroMethods.isWordChar d = true →
      k.1 = i ∨ s[k.1 - 1]?.any MacroMethods.isWordChar = false) :
    MacroMethods.scanFrom s names state k =
      MacroMethods.scanFrom s names { state with lineStart := false } ⟨e, k.2.trans before⟩ := by
  induction length : e - k.1 using Nat.strongRecOn generalizing k state with
  | ind n ih =>
    by_cases last : k.1 = e
    · have quiet : { state with lineStart := false } = state := by
        rw [← calm last]
      rw [quiet]
      congr 1
      exact Subtype.ext last
    · obtain ⟨d, there, inside⟩ : ∃ d, s[k.1]? = some d ∧ inNumber d = true := by
        by_cases first_ : k.1 = i
        · exact ⟨c, by rw [first_, here], number⟩
        · exact digits k.1 (by omega) (by omega)
      have solid := solid_of_inNumber inside
      obtain ⟨letter, separator⟩ := plain k.1 d after (by omega) there
      have onward : MacroMethods.isWordChar d = false → MacroMethods.scanFrom s names
          { state with lineStart := false } ⟨k.1 + 1, k.2.trans (Nat.le_succ _)⟩ =
            MacroMethods.scanFrom s names { state with lineStart := false } ⟨e, k.2.trans before⟩ := by
        intro none_
        have within : k.1 + 1 ≤ e := by omega
        refine ih (e - (k.1 + 1)) (by omega) { state with lineStart := false } old ⟨k.1 + 1, _⟩
          (Nat.le_succ_of_le after) within (fun _ => rfl) (fun _ _ _ => Or.inr ?_) rfl
        rw [Nat.add_sub_cancel, there, Option.any_some, none_]
      by_cases quote : d = SINGLE
      · subst quote
        have apart : i < k.1 := by
          refine lt_of_le_of_ne after fun same => single ?_
          rw [← same, here] at there
          exact Option.some.inj there
        have separates : MacroMethods.separates s state.word k.1 = true := by
          rw [MacroMethods.separates, prefixAt_later old apart, separator rfl]
          simp only [Option.isNone_none, Bool.and_true, decide_eq_true_eq]
          omega
        have reads : MacroMethods.readAt s state.lineStart state.word _ _ there = _ :=
          MacroMethods.readAt_character there
        rw [if_pos separates] at reads
        rw [MacroMethods.scanFrom_step there reads]
        exact onward (by decide)
      · have reads : MacroMethods.readAt s state.lineStart state.word _ _ there = _ :=
          MacroMethods.readAt_solid there solid quote
        by_cases word : MacroMethods.isWordChar d = true
        · have digit : ¬MacroMethods.isWordStart d = true := by
            intro starts
            obtain ⟨behind, previous⟩ := letter starts
            rcases group d there word with first_ | none_
            · omega
            · rw [previous] at none_
              cases none_
          rw [if_pos word, if_neg digit] at reads
          obtain ⟨run, ends⟩ := MacroMethods.wordEnd_spec s k.1
          have within : (MacroMethods.wordEnd s k.1).1 ≤ e := by
            by_contra beyond
            obtain ⟨x, at_, is⟩ := run e (by omega) (by omega)
            rw [stop x at_] at is
            cases is
          have later := (MacroMethods.wordEnd s k.1).2
          rw [MacroMethods.scanFrom_step there reads]
          exact ih (e - (MacroMethods.wordEnd s k.1).1) (by omega) { state with lineStart := false } old
            ⟨(MacroMethods.wordEnd s k.1).1, k.2.trans (Nat.le_of_succ_le later)⟩ (by simp only; omega) within
            (fun _ => rfl) (fun x at_ is => by rw [ends x at_] at is; cases is) rfl
        · rw [if_neg word] at reads
          rw [MacroMethods.scanFrom_step there reads]
          exact onward (by simpa using word)

/-! ### Both at one place -/

/-- The states of both at a place that they come to with the same tokens behind. -/
structure Level (s : JsString) (l m : Bool) (start : Option Nat) (i : Nat) (one : BraceScopes.State)
    (two : MacroMethods.State) : Prop where
  line : one.lineStart = l
  line' : two.lineStart = m
  old : ∀ p ∈ one.word, p.2 ≤ i
  old' : ∀ p ∈ two.word, p.2 ≤ i
  /-- The scanner of braces also keeps numbers, which are no prefix of a raw string. -/
  word : prefixAt one.word i = start ∨
    start = none ∧ ∃ a, prefixAt one.word i = some a ∧ RAW_STRING_PREFIX (slice s a i) = false
  word' : prefixAt two.word i = start

def Same (s : JsString) (names : Option (JsString → Bool)) (one : BraceScopes.State)
    (two : MacroMethods.State) (reads : List Read)
    (found : List MacroMethods.Directive × List MacroMethods.Word) : Prop :=
  ∃ more directives words, reads = one.reads ++ more ∧
    found = (two.directives ++ directives, two.words ++ words) ∧
    directives.map MacroMethods.Directive.start = directiveStarts more ∧
    ∀ f, names = some f → words = (identifiers s more).filter fun w => f w.name

variable {l m : Bool} {start : Option Nat} {one : BraceScopes.State} {two : MacroMethods.State}

theorem Same.step {kind : Kind} {j : Nat} {reads : List Read}
    {found : List MacroMethods.Directive × List MacroMethods.Word}
    (later : Same s names (one.after kind i j) (two.after s names kind i j) reads found) :
    Same s names one two reads found := by
  obtain ⟨more, directives, words, rfl, rfl, starts, found⟩ := later
  refine ⟨⟨kind, i, j⟩ :: more,
    (if kind = .directive then [⟨i, slice s i j⟩] else []) ++ directives,
    (if kind = .word ∧ names.any (· (slice s i j)) then [⟨slice s i j, i, j⟩] else []) ++ words, ?_, ?_, ?_, ?_⟩
  · rw [show (one.after kind i j).reads = one.reads ++ [⟨kind, i, j⟩] from rfl, List.append_assoc,
      List.singleton_append]
  · have there : (two.after s names kind i j).directives =
      if kind = .directive then two.directives ++ [⟨i, slice s i j⟩] else two.directives := rfl
    have among : (two.after s names kind i j).words = if kind = .word ∧ names.any (· (slice s i j)) then
      two.words ++ [⟨slice s i j, i, j⟩] else two.words := rfl
    rw [there, among]
    congr 1
    · split
      · rw [List.append_assoc]
      · rfl
    · split
      · rw [List.append_assoc]
      · rfl
  · rw [List.map_append, starts, directiveStarts, directiveStarts, List.filterMap_cons]
    by_cases is : kind = .directive
    · simp [is]
    · simp [is]
  · intro f are
    rw [found f are, identifiers, identifiers, List.filterMap_cons, are]
    by_cases is : kind = .word
    · by_cases named : f (slice s i j) = true
      · simp [is, named]
      · simp [is, named]
    · simp [is]

theorem Same.number {j : Nat} {reads : List Read}
    {found : List MacroMethods.Directive × List MacroMethods.Word}
    (later : Same s names (one.after .number i j) { two with lineStart := false } reads found) :
    Same s names one two reads found := by
  obtain ⟨more, directives, words, rfl, rfl, starts, found⟩ := later
  refine ⟨⟨.number, i, j⟩ :: more, directives, words, ?_, rfl, ?_, ?_⟩
  · rw [show (one.after .number i j).reads = one.reads ++ [⟨.number, i, j⟩] from rfl, List.append_assoc,
      List.singleton_append]
  · rw [starts]
    rfl
  · intro f are
    rw [found f are]
    rfl

theorem raw_first {t : JsString} (raw : RAW_STRING_PREFIX t = true) :
    ∀ c ∈ t.head?, isDigit c = false ∧ c ≠ DOT := by
  have all : ∀ t ∈ ["R", "u8R", "uR", "UR", "LR"].map utf16, ∀ c ∈ t.head?, isDigit c = false ∧ c ≠ DOT := by
    decide
  exact all t (by simpa [RAW_STRING_PREFIX] using raw)

theorem Level.next_ {j : Nat} (level : Level s l m start i one two)
    (names : Option (JsString → Bool)) (kind : Kind) (later : i < j) (number : kind ≠ .number) (word : kind ≠ .word) :
    Level s (one.after kind i j).lineStart (two.after s names kind i j).lineStart none j
      (one.after kind i j) (two.after s names kind i j) := by
  have words : (one.after kind i j).word = one.word := by
    cases kind <;> first | rfl | exact absurd rfl number | exact absurd rfl word
  have words' : (two.after s names kind i j).word = two.word := if_neg word
  refine ⟨rfl, rfl, ?_, ?_, Or.inl ?_, ?_⟩
  · rw [words]
    exact fun p is => (level.old p is).trans (Nat.le_of_lt later)
  · rw [words']
    exact fun p is => (level.old' p is).trans (Nat.le_of_lt later)
  · rw [words]
    exact prefixAt_later level.old later
  · rw [words']
    exact prefixAt_later level.old' later

theorem Level.literalEnd (level : Level s l m start i one two) (here : i < s.length) :
    BraceScopes.literalEnd s (prefixAt one.word i) i here = BraceScopes.literalEnd s start i here := by
  rcases level.word with same | ⟨rfl, a, there, plain⟩
  · rw [same]
  · have raw : ¬(i - a ≤ 3 ∧ RAW_STRING_PREFIX (slice s a i) = true) := by simp [plain]
    rw [there, BraceScopes.literalEnd, BraceScopes.literalEnd]
    exact if_neg raw

theorem Level.number {j : Nat} (level : Level s l m start i one two) (here : s[i]? = some c)
    (begins : isDigit c = true ∨ (c = DOT ∧ s[i + 1]?.any isDigit = true)) (later : i < j) :
    Level s false false none j (one.after .number i j) { two with lineStart := false } := by
  refine ⟨rfl, rfl, ?_, ?_, Or.inr ⟨rfl, i, if_pos rfl, ?_⟩, prefixAt_later level.old' later⟩
  · rintro p ⟨⟩
    exact Nat.le_refl j
  · exact fun p is => (level.old' p is).trans (Nat.le_of_lt later)
  · cases raw : RAW_STRING_PREFIX (slice s i j) with
    | false => rfl
    | true =>
      have first : (slice s i j).head? = some c := by
        rw [List.head?_eq_getElem?, slice_getElem? (by omega), Nat.add_zero, here]
      obtain ⟨digit, dot⟩ := raw_first raw c (by rw [first]; rfl)
      rcases begins with is | is
      · rw [digit] at is
        cases is
      · exact absurd is.1 dot

theorem Level.word_ (one : BraceScopes.State) (two : MacroMethods.State)
    (names : Option (JsString → Bool)) (i j : Nat) :
    Level s false false (some i) j (one.after .word i j) (two.after s names .word i j) := by
  refine ⟨rfl, rfl, ?_, ?_, Or.inl (if_pos rfl), if_pos rfl⟩
  · rintro p ⟨⟩
    exact Nat.le_refl j
  · rintro p ⟨⟩
    exact Nat.le_refl j

theorem wordStart_apart (starts : MacroMethods.isWordStart c = true) :
    ¬(isDigit c = true ∨ (c = DOT ∧ s[i + 1]?.any isDigit = true)) := by
  simp only [MacroMethods.isWordStart, Bool.or_eq_true, Bool.and_eq_true, decide_eq_true_eq, beq_iff_eq] at starts
  rintro (digit | ⟨rfl, -⟩)
  · simp only [isDigit, Bool.and_eq_true, decide_eq_true_eq, UInt16.le_iff_toNat_le] at digit starts
    rcases starts with (small | large) | rfl
    · have low : 97 ≤ c.toNat := small.1
      have high : c.toNat ≤ 57 := digit.2
      omega
    · have low : 65 ≤ c.toNat := large.1
      have high : c.toNat ≤ 57 := digit.2
      omega
    · exact absurd digit (by decide)
  · revert starts
    decide

theorem Alike.same (alike : Alike s l m start i) {f g : Nat} (left : f ≤ i) (right : g ≤ i)
    (level : Level s l m start i one two) : Same s names one two (BraceScopes.readsFrom s one ⟨i, left⟩)
      (MacroMethods.scanFrom s names two ⟨i, right⟩) := by
  induction alike generalizing one two with
  | done beyond =>
    rw [BraceScopes.readsFrom_done beyond, MacroMethods.scanFrom_done beyond]
    refine ⟨[], [], [], ?_, ?_, rfl, fun _ _ => rfl⟩
    · rw [List.append_nil]
    · rw [List.append_nil, List.append_nil]
  | newline here rest ih =>
    rw [BraceScopes.readsFrom_step here (BraceScopes.readAt_newline here),
      MacroMethods.scanFrom_step here (MacroMethods.readAt_newline here)]
    exact (ih _ _ (level.next_ names .newline (Nat.lt_succ_self _) (by decide) (by decide))).step
  | blank here blank rest ih =>
    obtain rfl := level.line
    obtain rfl := level.line'
    rw [BraceScopes.readsFrom_step here (BraceScopes.readAt_blank here blank),
      MacroMethods.scanFrom_step here (MacroMethods.readAt_blank here blank)]
    exact (ih _ _ (level.next_ names .blank (Nat.lt_succ_self _) (by decide) (by decide))).step
  | @lineComment l m start i here second rest ih =>
    obtain rfl := level.line
    obtain rfl := level.line'
    rw [BraceScopes.readsFrom_step here (BraceScopes.readAt_lineComment here second),
      MacroMethods.scanFrom_step here (MacroMethods.readAt_lineComment here second)]
    have later := (lineCommentEnd s (i + 2)).2
    exact (ih _ _ (level.next_ names .comment (Nat.lt_of_succ_lt later) (by decide) (by decide))).step
  | blockComment here second rest ih =>
    obtain rfl := level.line
    obtain rfl := level.line'
    rw [BraceScopes.readsFrom_step here (BraceScopes.readAt_blockComment here second),
      MacroMethods.scanFrom_step here (MacroMethods.readAt_blockComment here second)]
    exact (ih _ _ (level.next_ names .comment (blockCommentEnd s _ _).2 (by decide) (by decide))).step
  | directive here same rest ih =>
    have reads : BraceScopes.readAt s one.lineStart one.word _ HASH here =
        (.directive, BraceScopes.directiveEnd s _) := by
      rw [level.line]
      exact BraceScopes.readAt_directive here
    have reads' : MacroMethods.readAt s two.lineStart two.word _ HASH here =
        (.directive, BraceScopes.directiveEnd s _) := by
      rw [level.line', ← same]
      exact MacroMethods.readAt_directive here
    have next := level.next_ names .directive (BraceScopes.directiveEnd s _).2 (by decide) (by decide)
    rw [show (one.after .directive _ _).lineStart = true from level.line,
      show (two.after s names .directive _ _).lineStart = true from level.line'] at next
    rw [BraceScopes.readsFrom_step here reads, MacroMethods.scanFrom_step here reads']
    exact (ih _ _ next).step
  | string here same rest ih =>
    have reads : BraceScopes.readAt s one.lineStart one.word _ _ here = _ :=
      BraceScopes.readAt_string here
    have reads' : MacroMethods.readAt s two.lineStart two.word _ _ here = _ :=
      MacroMethods.readAt_string here
    rw [level.literalEnd] at reads
    rw [level.word', same] at reads'
    rw [BraceScopes.readsFrom_step here reads, MacroMethods.scanFrom_step here reads']
    exact (ih _ _ (level.next_ names .literal (BraceScopes.literalEnd s _ _ _).2 (by decide) (by decide))).step
  | @character l m start i here apart same rest ih =>
    have none_ : ¬MacroMethods.separates s two.word i = true := by
      rw [MacroMethods.separates, level.word', Bool.and_eq_true, Bool.and_eq_true]
      rintro ⟨⟨after, word⟩, empty⟩
      exact apart word (of_decide_eq_true after) (Option.isNone_iff_eq_none.mp empty)
    have reads' : MacroMethods.readAt s two.lineStart two.word _ _ here = _ :=
      MacroMethods.readAt_character here
    rw [if_neg none_, same] at reads'
    rw [BraceScopes.readsFrom_step here (BraceScopes.readAt_character here),
      MacroMethods.scanFrom_step here reads']
    exact (ih _ _ (level.next_ names .literal (BraceScopes.quotedEnd s _ _).2 (by decide) (by decide))).step
  | @number l m start i c here begins plain rest ih =>
    have inside : inNumber c = true ∧ c ≠ SINGLE := by
      rcases begins with digit | ⟨rfl, -⟩
      · have word : BraceScopes.isWordChar c = true := by rw [BraceScopes.isWordChar, digit, Bool.or_true]
        exact ⟨inNumber_of_word word, not_single_of_word word⟩
      · exact ⟨rfl, by decide⟩
    obtain ⟨digits, stop⟩ := BraceScopes.numberEnd_spec s i
    have later := (BraceScopes.numberEnd s i).2
    have reads : BraceScopes.readAt s one.lineStart one.word _ _ here = _ :=
      BraceScopes.readAt_solid here
      (solid_of_inNumber inside.1) inside.2
    rw [if_pos begins] at reads
    have ends : ∀ d, s[(BraceScopes.numberEnd s i).1]? = some d → MacroMethods.isWordChar d = false := by
      intro d there
      cases word : MacroMethods.isWordChar d with
      | false => rfl
      | true =>
        have none_ := stop d there
        rw [word_of_word word] at none_
        cases none_
    rw [BraceScopes.readsFrom_step here reads, MacroMethods.scanFrom_number here inside.1 inside.2 digits ends
      plain two level.old' ⟨i, right⟩ (Nat.le_refl i) (Nat.le_of_lt later) (fun same => by simp only at same; omega)
      (fun _ _ _ => Or.inl rfl)]
    exact (ih _ _ (level.number here begins later)).number
  | @word l m start i c here begins same rest ih =>
    have word : MacroMethods.isWordChar c = true := by rw [MacroMethods.isWordChar, begins, Bool.true_or]
    have word' : BraceScopes.isWordChar c = true := word_of_word word
    have digit := wordStart_apart (s := s) (i := i) begins
    have starts : BraceScopes.isWordStart c = true := by
      rw [BraceScopes.isWordChar, Bool.or_eq_true] at word'
      exact word'.resolve_right fun is => digit (Or.inl is)
    have solid := solid_of_inNumber (inNumber_of_word word')
    have reads : BraceScopes.readAt s one.lineStart one.word _ _ here = _ :=
      BraceScopes.readAt_solid here solid
      (not_single_of_word word')
    have reads' : MacroMethods.readAt s two.lineStart two.word _ _ here = _ :=
      MacroMethods.readAt_solid here solid
      (not_single_of_word word')
    rw [if_neg digit, if_pos starts] at reads
    rw [if_pos word, if_pos begins, same] at reads'
    rw [BraceScopes.readsFrom_step here reads, MacroMethods.scanFrom_step here reads']
    exact (ih _ _ (Level.word_ one two names i _)).step
  | other here is hash rest ih =>
    rw [BraceScopes.readsFrom_step here (BraceScopes.readAt_other here is fun same => level.line.trans (hash same).1),
      MacroMethods.scanFrom_step here (MacroMethods.readAt_other here is fun same => level.line'.trans (hash same).2)]
    exact (ih _ _ (level.next_ names .other (Nat.lt_succ_self _) (by decide) (by decide))).step

theorem MacroMethods.readAt_mark (here : s[0]? = some MARK) :
    MacroMethods.readAt s true none 0 MARK here = (.other, next 0) := by
  have slash : ∀ d, ¬(MARK = SLASH ∧ s[0 + 1]? = some d) := fun d is => absurd is.1 (by decide)
  rw [MacroMethods.readAt, if_neg (by decide), if_neg (by decide), if_neg (slash _), if_neg (slash _),
    if_neg (fun is => absurd is.1 (by decide)), if_neg (by decide), if_neg (by decide), if_neg (by decide)]

theorem BraceScopes.reads_eq {first : Nat} (is : (if s[0]? = some MARK then 1 else 0) = first) :
    BraceScopes.reads s = BraceScopes.readsFrom s ⟨true, none, []⟩ (⟨first, Nat.le_refl first⟩ : From first) := by
  subst is
  rfl

theorem AllAlike.same (alike : AllAlike s) (names : Option (JsString → Bool)) :
    Same s names ⟨true, none, []⟩ ⟨true, none, [], []⟩ (BraceScopes.reads s)
      (MacroMethods.cppCodeScan s names) := by
  have whole : MacroMethods.cppCodeScan s names =
    MacroMethods.scanFrom s names ⟨true, none, [], []⟩ (⟨0, Nat.le_refl 0⟩ : From 0) := rfl
  have none_ : ∀ p ∈ (none : Option (Nat × Nat)), p.2 ≤ 0 := fun p is => nomatch is
  rw [AllAlike] at alike
  rw [whole]
  split at alike
  · next mark =>
    have level : Level s true false none 1 ⟨true, none, []⟩
        (MacroMethods.State.after s names ⟨true, none, [], []⟩ .other 0 1) :=
      ⟨rfl, rfl, fun p is => (none_ p is).trans (Nat.zero_le 1), fun p is => (none_ p is).trans (Nat.zero_le 1),
        Or.inl rfl, rfl⟩
    rw [MacroMethods.scanFrom_step mark (MacroMethods.readAt_mark mark), BraceScopes.reads_eq (if_pos mark)]
    exact alike.same (Nat.le_refl 1) (Nat.zero_le 1) level
  · next none_mark =>
    rw [BraceScopes.reads_eq (if_neg none_mark)]
    exact alike.same (Nat.le_refl 0) (Nat.le_refl 0) ⟨rfl, rfl, none_, none_, Or.inl rfl, rfl⟩

end CodeGraph.Extraction.CppScans
