import CodeGraph.Extraction.PascalPreparse

/-!
# What the words are written over

Each word that the scan of a Pascal source writes lies on one line inside the keyword or directive
that it is written over.
-/
namespace CodeGraph.Extraction.PascalPreparse

open Scanning Text

variable {s : JsString} {i e k : Nat} {ranges : List Range} {words : List Word}

inductive Over (s : JsString) : Word → Prop where
  | record {i : Nat} (keyword : lowerWordAt s i = utf16 "record" ∨ lowerWordAt s i = utf16 "packed") :
      Over s ⟨i, i + 6, utf16 "string"⟩
  | lastField {i : Nat} (keyword : lowerWordAt s i = utf16 "end") : Over s ⟨i, i + 3, [CH_SEMI]⟩
  | reraise {i : Nat} (keyword : lowerWordAt s i = utf16 "raise") : Over s ⟨i, i + 5, [CH_SEMI]⟩
  | opening (d : Directive s) (line : onOneLine s d.start 5 = true) :
      Over s ⟨d.start, d.stop, utf16 "begin"⟩
  | alternative (d : Directive s) : Over s ⟨d.start, d.stop, [CH_SEMI]⟩
  | closing (d : Directive s) (kind : conditionalKind s d.start = .close) (semi : Bool) :
      Over s ⟨d.start, d.stop, if semi then utf16 "end;" else utf16 "end"⟩

theorem wordEnd_part {q : Nat} (below : i + q < wordEnd s i) : identPartAt s (i + q) = true := by
  have inside : q < ((s.drop i).takeWhile isIdentPart).length := Nat.add_lt_add_iff_left.mp below
  have starts : startsAt s ((s.drop i).takeWhile isIdentPart) i = true :=
    startsAt_iff.mpr (List.takeWhile_prefix _)
  have part := List.mem_takeWhile_imp (List.getElem_mem inside)
  rw [identPartAt, startsAt_getElem? starts inside, List.getElem?_eq_getElem inside]
  exact part

theorem lowerWordAt_eq {word : JsString} (read : lowerWordAt s i = word) (some_ : word ≠ []) :
    identStartAt s i = true ∧ (wordEnd s (i + 1) : Nat) = i + word.length ∧
      toLowerCase (slice s i (wordEnd s (i + 1))) = word := by
  rw [lowerWordAt] at read
  split at read
  next starts =>
    refine ⟨starts, ?_, read⟩
    have within : (wordEnd s (i + 1) : Nat) ≤ s.length := wordEnd_le (identStartAt_lt starts)
    have later := (wordEnd s (i + 1)).2
    rw [← read, toLowerCase, List.length_map, slice_length within]
    omega
  next => exact absurd read.symm some_

theorem lowerWordAt_word {word : JsString} (starts : identStartAt s i = true)
    (read : toLowerCase (slice s i (wordEnd s (i + 1))) = word) : lowerWordAt s i = word := by
  rw [lowerWordAt, if_pos starts, read]

/-! ### Units of a line -/

def Line (s : JsString) (start length : Nat) : Prop :=
  ∀ q < length, ∃ c, s[start + q]? = some c ∧ isBreak c = false

theorem Line.mono {start m n : Nat} (line : Line s start n) (le : m ≤ n) : Line s start m :=
  fun q below => line q (by omega)

theorem isBreak_of_start {c : UInt16} (start : isIdentStart c = true) : isBreak c = false := by
  rw [Bool.eq_false_iff]
  intro break_
  have lines : c = CH_LF ∨ c = CH_CR := by simpa [isBreak] using break_
  rcases lines with rfl | rfl <;> exact absurd start (by decide)

theorem isBreak_of_part {c : UInt16} (part : isIdentPart c = true) : isBreak c = false := by
  rw [Bool.eq_false_iff]
  intro break_
  have lines : c = CH_LF ∨ c = CH_CR := by simpa [isBreak] using break_
  rcases lines with rfl | rfl <;> exact absurd part (by decide)

theorem unit_of_any {p : UInt16 → Bool} (any : s[i]?.any p = true) :
    ∃ c, s[i]? = some c ∧ p c = true := by
  cases here : s[i]? with
  | none =>
    rw [here] at any
    cases any
  | some c =>
    rw [here] at any
    exact ⟨c, rfl, any⟩

theorem line_of_word {word : JsString} (read : lowerWordAt s i = word) (some_ : word ≠ []) :
    Line s i word.length := by
  obtain ⟨starts, stop, -⟩ := lowerWordAt_eq read some_
  intro q below
  cases q with
  | zero =>
    obtain ⟨c, here, start⟩ := unit_of_any starts
    exact ⟨c, here, isBreak_of_start start⟩
  | succ q =>
    have inside : i + 1 + q < wordEnd s (i + 1) := by omega
    obtain ⟨c, here, part⟩ := unit_of_any (wordEnd_part inside)
    exact ⟨c, by rwa [show i + (q + 1) = i + 1 + q by omega], isBreak_of_part part⟩

/-- The name of a directive that closes a group lies on one line with its brace. -/
theorem line_of_closing (d : Directive s) (kind : conditionalKind s d.start = .close) :
    Line s d.start 7 := by
  have isLetter {c : UInt16} (letter : (97 ≤ c ||| 32 && c ||| 32 ≤ 122) = true) : isBreak c = false := by
    rw [Bool.eq_false_iff]
    intro break_
    have lines : c = CH_LF ∨ c = CH_CR := by simpa [isBreak] using break_
    rcases lines with rfl | rfl <;> exact absurd letter (by decide)
  let letters := (s.drop (d.start + 2)).takeWhile fun c => 97 ≤ c ||| 32 && c ||| 32 ≤ 122
  have name : toLowerCase letters ∈ ["endif", "ifend"].map utf16 := by
    rw [conditionalKind] at kind
    split_ifs at kind with _ _ closes
    exact closes
  have length : letters.length = 5 := by
    rw [← List.length_map lowerUnit, ← toLowerCase]
    simp only [List.map_cons, List.map_nil, List.mem_cons, List.not_mem_nil, or_false] at name
    rcases name with is | is <;> rw [is] <;> rfl
  have starts : startsAt s letters (d.start + 2) = true := startsAt_iff.mpr (List.takeWhile_prefix _)
  intro q below
  match q with
  | 0 => exact ⟨_, d.brace, rfl⟩
  | 1 => exact ⟨_, d.dollar, rfl⟩
  | q + 2 =>
    have inside : q < letters.length := by omega
    have letter := List.mem_takeWhile_imp (List.getElem_mem inside)
    refine ⟨letters[q], ?_, isLetter letter⟩
    rw [show d.start + (q + 2) = d.start + 2 + q by omega, startsAt_getElem? starts inside,
      List.getElem?_eq_getElem inside]

structure Fits (s : JsString) (w : Word) : Prop where
  inside : w.stop ≤ s.length
  text : ∀ c ∈ w.text, isBreak c = false
  line : w.start + w.text.length ≤ w.stop → Line s w.start w.text.length

theorem texts_clean : ∀ text ∈ [utf16 "string", [CH_SEMI], utf16 "begin", utf16 "end;", utf16 "end"],
    ∀ c ∈ text, isBreak c = false := by decide

theorem Over.fits {w : Word} (beyond : Over s w) : Fits s w := by
  cases beyond with
  | @record i keyword =>
    have line : Line s i 6 := by
      rcases keyword with read | read <;> exact line_of_word read (by decide)
    have last : i + 5 < s.length := by
      obtain ⟨c, here, -⟩ := line 5 (by decide)
      exact lt_length here
    exact ⟨last, texts_clean (utf16 "string") (by decide), fun _ => line⟩
  | @lastField i keyword =>
    have line : Line s i 3 := line_of_word keyword (by decide)
    have last : i + 2 < s.length := by
      obtain ⟨c, here, -⟩ := line 2 (by decide)
      exact lt_length here
    exact ⟨last, texts_clean [CH_SEMI] (by decide), fun _ => line.mono (Nat.le_add_left 1 _)⟩
  | @reraise i keyword =>
    have line : Line s i 5 := line_of_word keyword (by decide)
    have last : i + 4 < s.length := by
      obtain ⟨c, here, -⟩ := line 4 (by decide)
      exact lt_length here
    exact ⟨last, texts_clean [CH_SEMI] (by decide), fun _ => line.mono (Nat.le_add_left 1 _)⟩
  | opening d line =>
    refine ⟨d.within, texts_clean (utf16 "begin") (by decide), fun room q below => ?_⟩
    have inside : d.start + q < s.length := by
      have within := d.within
      have five : (utf16 "begin").length = 5 := rfl
      simp only [five] at room below
      omega
    have clean := List.all_eq_true.mp line q (List.mem_range.mpr below)
    rw [List.getElem?_eq_getElem inside] at clean ⊢
    exact ⟨_, rfl, by simpa using clean⟩
  | alternative d =>
    refine ⟨d.within, texts_clean [CH_SEMI] (by decide), fun _ q below => ?_⟩
    have zero : q = 0 := Nat.lt_one_iff.mp below
    subst zero
    exact ⟨_, d.brace, rfl⟩
  | closing d kind semi =>
    have clean : ∀ c ∈ if semi then utf16 "end;" else utf16 "end", isBreak c = false := by
      cases semi <;> exact texts_clean _ (by decide)
    have short : (if semi then utf16 "end;" else utf16 "end").length ≤ 7 := by cases semi <;> decide
    exact ⟨d.within, clean, fun _ => (line_of_closing d kind).mono short⟩

/-! ### The words of the scan -/

theorem wordBefore_reads {word : String} (found : wordBefore s i word = some k) :
    lowerWordAt s k = utf16 word := by
  rw [wordBefore] at found
  simpa using (Option.filter_eq_some_iff.mp found).2

theorem recordEnd_reads {close : After i} (ends : recordEnd s i = some close) :
    ∃ j, lowerWordAt s j = utf16 "end" ∧ (close : Nat) = j + 3 := by
  have reads : ∀ close, recordEnd s i = some close → ∃ j, lowerWordAt s j = utf16 "end" ∧
      (close : Nat) = j + 3 := by
    rw [recordEnd]
    apply scan_spec (fun _ _ => True) (fun found : Option (After i) => ∀ close, found = some close →
      ∃ j, lowerWordAt s j = utf16 "end" ∧ (close : Nat) = j + 3)
    · intro r ⟨j, _⟩ _ _
      dsimp only
      split
      next => trivial
      next =>
        split
        next starts =>
          split
          next =>
            split
            next word =>
              split
              next =>
                intro close is
                cases is
                have read := lowerWordAt_word starts word
                exact ⟨j, read, (lowerWordAt_eq read (by decide)).2.1⟩
              next => trivial
            next =>
              split
              next => trivial
              next =>
                split
                next => exact fun _ none_ => nomatch none_
                next => trivial
          next => trivial
        next => split_ifs <;> first | trivial | exact fun _ none_ => nomatch none_
    · exact fun _ _ _ _ _ none_ => nomatch none_
    · trivial
  exact reads close ends

theorem scanAnonymousRecord_words (keyword : lowerWordAt s i = utf16 "record")
    (beyond : ∀ w ∈ words, Over s w) : ∀ w ∈ (scanAnonymousRecord s i e ranges words).2.2, Over s w := by
  have at_ : lowerWordAt s ((wordBefore s (tokenEndBefore s i) "packed").getD i) = utf16 "record" ∨
      lowerWordAt s ((wordBefore s (tokenEndBefore s i) "packed").getD i) = utf16 "packed" := by
    cases packed : wordBefore s (tokenEndBefore s i) "packed" with
    | none => exact Or.inl keyword
    | some k => exact Or.inr (wordBefore_reads packed)
  rw [scanAnonymousRecord]
  split
  · exact beyond
  · dsimp only
    split
    · exact beyond
    · split
      next => exact beyond
      next close later ends =>
        obtain ⟨j, read, stop⟩ := recordEnd_reads ends
        change close = j + 3 at stop
        subst stop
        split
        · exact beyond
        · split
          · intro w listed
            rcases mem_snoc.mp listed with earlier | last
            · rcases mem_snoc.mp earlier with old | new
              · exact beyond w old
              · rw [new]
                exact .record at_
            · rw [last]
              exact .lastField read
          · exact forall_snoc beyond (.record at_)

theorem scanRaise_words {f : Found} (keyword : lowerWordAt s i = utf16 "raise") (stop : e = i + 5)
    (beyond : ∀ w ∈ f.words, Over s w) : ∀ w ∈ (scanRaise s i e f).words, Over s w := by
  rw [scanRaise]
  generalize skipTrivia s e = following
  obtain ⟨following, -⟩ := following
  dsimp only
  split_ifs
  · exact beyond
  · intro w listed
    rcases mem_snoc.mp listed with old | new
    · exact beyond w old
    · rw [new, stop]
      exact .reraise keyword
  · exact beyond

theorem scanLabel_words {f : Found} (beyond : ∀ w ∈ f.words, Over s w) :
    ∀ w ∈ (scanLabel s i e f).words, Over s w := by
  rw [scanLabel]
  split_ifs <;> exact beyond

theorem scanWord_words {f : Found} {groups : {gs : List (ConditionalGroup s) // Ordered gs}}
    (starts : identStartAt s i = true) (beyond : ∀ w ∈ f.words, Over s w) :
    ∀ w ∈ (scanWord s groups i (wordEnd s (i + 1)) f).1.words, Over s w := by
  rw [scanWord]
  dsimp only
  generalize sized : (if 6 ≤ (wordEnd s (i + 1) : Nat) - i ∧ (wordEnd s (i + 1) : Nat) - i ≤ 11 then
    toLowerCase (slice s i (wordEnd s (i + 1))) else []) = word
  split
  · exact beyond
  · split
    · exact beyond
    · split
      next record =>
        have read : toLowerCase (slice s i (wordEnd s (i + 1))) = utf16 "record" := by
          rw [record] at sized
          split_ifs at sized
          · exact sized
          · cases sized
        exact scanAnonymousRecord_words (lowerWordAt_word starts read) beyond
      next =>
        split
        · exact beyond
        · dsimp only
          split
          next raise =>
            have read := lowerWordAt_word starts raise.2
            exact scanRaise_words read (lowerWordAt_eq read (by decide)).2.1 beyond
          next => exact scanLabel_words beyond

theorem scanSource_words (groups : {gs : List (ConditionalGroup s) // Ordered gs}) :
    ∀ w ∈ (scanSource s groups).words, Over s w := by
  apply scan_spec (fun (f : Found) _ => ∀ w ∈ f.words, Over s w)
    (fun f : Found => ∀ w ∈ f.words, Over s w)
  · intro f ⟨i, _⟩ _ beyond
    dsimp only
    split
    next k _ =>
      have kept : ∀ w ∈ (scanCommentOrString s groups i k f).words, Over s w := by
        rw [scanCommentOrString]
        repeat' split
        all_goals exact beyond
      exact kept
    next =>
      split
      next starts => exact scanWord_words starts beyond
      next =>
        split
        · exact beyond
        · split
          · exact beyond
          · split <;> exact beyond
  · exact fun _ _ _ beyond => beyond
  · exact fun w none_ => nomatch none_

theorem alternativeWords_over {g : ConditionalGroup s} (line : onOneLine s g.opening.start 5 = true)
    {semi : Bool} : ∀ w ∈ alternativeWords g semi, Over s w := by
  intro w listed
  rcases mem_snoc.mp listed with earlier | last
  · rcases List.mem_append.mp earlier with first | middle
    · rw [List.mem_singleton.mp first]
      exact .opening g.opening line
    · obtain ⟨d, -, rfl⟩ := List.mem_map.mp middle
      exact .alternative d
  · rw [last]
    exact .closing g.closing g.closes semi

theorem wrapAlternativeStatements_words {groups : List (ConditionalGroup s)}
    {label : List (Nat × Bool)} (beyond : ∀ w ∈ words, Over s w) :
    ∀ w ∈ wrapAlternativeStatements s groups label ranges words, Over s w := by
  rw [wrapAlternativeStatements]
  apply List.foldlRecOn groups _ (motive := fun words => ∀ w ∈ words, Over s w) beyond
  intro words beyond g _
  split
  · exact beyond
  · split
    · exact beyond
    · dsimp only
      split
      · exact beyond
      next wraps =>
        have line : onOneLine s g.opening.start 5 = true := by
          simp only [not_or, Bool.not_eq_true', Bool.not_eq_false] at wraps
          exact wraps.2.2.2
        split
        · exact beyond
        · intro w listed
          rcases List.mem_append.mp listed with old | new
          · exact beyond w old
          · exact alternativeWords_over line w new

theorem words_over (s : JsString) : ∀ w ∈ (editsOf s).2, Over s w := by
  rw [editsOf]
  split_ifs
  · exact scanSource_words _
  · exact scanSource_words _
  · exact wrapAlternativeStatements_words (scanSource_words _)

end CodeGraph.Extraction.PascalPreparse
