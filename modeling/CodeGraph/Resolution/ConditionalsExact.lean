import CodeGraph.Resolution.Conditionals
import CodeGraph.Foundation.Lines

/-!
# Which lines `evalConditionals` keeps

It keeps the lines in the arms that it follows: in each group one arm, chosen by the first condition
alone. So it drops what the preprocessor may keep where that is in another arm.
-/
namespace CodeGraph.Resolution.Conditionals

open JsText

variable {κ : Type} {defined : Text → Bool} {truth : κ → Bool} {t line text keyword rest name : Text}
  {lines : List Text} {stack : List Frame} {arms : List Arm} {tree : Lines κ}

/-! ### Patterns -/

theorem afterKeyword_some (found : afterKeyword keyword t = some rest) :
    ∃ r, t = '#' :: r ∧ skipSpace r = keyword ++ rest := by
  unfold afterKeyword at found
  split at found
  · next r =>
    split at found
    · next starts =>
      cases found
      obtain ⟨rest, split⟩ := List.isPrefixOf_iff_prefix.mp starts
      refine ⟨r, rfl, ?_⟩
      rw [← split, List.drop_left]
    · cases found
  · cases found

theorem nameAfterSpace_some (found : nameAfterSpace rest = some name) :
    ∀ c ∈ rest.head?, isWord c = false := by
  unfold nameAfterSpace at found
  split at found
  · cases found
  · split at found
    · next c rest space =>
      rintro d ⟨⟩
      exact isWord_of_isSpace space
    · cases found

theorem exprAfterSpace_some {expr : Text} (found : exprAfterSpace rest = some expr) :
    ∀ c ∈ rest.head?, isWord c = false := by
  unfold exprAfterSpace at found
  split at found
  · cases found
  · split at found
    · next c rest space =>
      rintro d ⟨⟩
      exact isWord_of_isSpace space
    · cases found

theorem directiveWord_of_afterKeyword (word : ∀ c ∈ keyword, isWord c = true)
    (found : afterKeyword keyword (trim line) = some rest)
    (stop : ∀ c ∈ rest.head?, isWord c = false) : directiveWord line = keyword := by
  obtain ⟨r, is, split⟩ := afterKeyword_some found
  rw [directiveWord, is]
  simp only [split, wordAt_append word stop]

def Directive.word : Directive → Text
  | .ifdef _ => ['i', 'f', 'd', 'e', 'f']
  | .ifndef _ => ['i', 'f', 'n', 'd', 'e', 'f']
  | .ifExpr _ => ['i', 'f']
  | .elif => ['e', 'l', 'i', 'f']
  | .else_ => ['e', 'l', 's', 'e']
  | .endif => ['e', 'n', 'd', 'i', 'f']

theorem Directive.word_mem (directive : Directive) : directive.word ∈ conditionals := by
  cases directive <;> simp [word, conditionals]

theorem Directive.word_isWord (directive : Directive) :
    ∀ c ∈ directive.word, isWord c = true := by
  have all : ∀ keyword ∈ conditionals, ∀ c ∈ keyword, isWord c = true := by decide
  exact all _ directive.word_mem

theorem atBoundary_stop (boundary : atBoundary rest = true) :
    ∀ c ∈ rest.head?, isWord c = false := by
  intro c first
  rw [atBoundary, Option.mem_def.mp first] at boundary
  simpa using boundary

theorem directiveWord_of_any (word : ∀ c ∈ keyword, isWord c = true)
    (found : (afterKeyword keyword (trim line)).any atBoundary = true) :
    directiveWord line = keyword := by
  cases after : afterKeyword keyword (trim line) with
  | none =>
    rw [after] at found
    cases found
  | some rest =>
    rw [after, Option.any_some] at found
    exact directiveWord_of_afterKeyword word after (atBoundary_stop found)

theorem read_keyword {directive : Directive} (found : read (trim line) = some directive) :
    directiveWord line = directive.word := by
  have word := directive.word_isWord
  unfold read at found
  split at found
  · next name some_ =>
    cases found
    obtain ⟨rest, after, named⟩ := Option.bind_eq_some_iff.mp some_
    exact directiveWord_of_afterKeyword word after (nameAfterSpace_some named)
  · split at found
    · next name some_ =>
      cases found
      obtain ⟨rest, after, named⟩ := Option.bind_eq_some_iff.mp some_
      exact directiveWord_of_afterKeyword word after (nameAfterSpace_some named)
    · split at found
      · next expr some_ =>
        cases found
        obtain ⟨rest, after, captured⟩ := Option.bind_eq_some_iff.mp some_
        exact directiveWord_of_afterKeyword word after (exprAfterSpace_some captured)
      · split at found
        · next ends =>
          cases found
          exact directiveWord_of_any word ends
        · split at found
          · next ends =>
            cases found
            exact directiveWord_of_any word ends
          · split at found
            · next ends =>
              cases found
              exact directiveWord_of_any word ends
            · cases found

theorem Plain.read (plain : Plain line) : read (trim line) = none := by
  cases found : Conditionals.read (trim line) with
  | none => rfl
  | some directive =>
    have listed := directive.word_mem
    rw [← read_keyword found] at listed
    exact absurd listed plain

/-! ### Frames -/

inductive Frames : List Frame → List Arm → Prop where
  | nil : Frames [] []
  | cons {frame : Frame} {arm : Arm} {stack : List Frame} {arms : List Arm}
    (rest : Frames stack arms) (parent : frame.parentActive = arms.all followed)
    (active : frame.active = (arms.all followed && followed arm))
    (taken : frame.taken = (arm.1 != some false || arm.2 != 0)) :
    Frames (frame :: stack) (arm :: arms)

theorem Frames.activeNow (frames : Frames stack arms) : activeNow stack = arms.all followed := by
  cases frames with
  | nil => rfl
  | cons rest parent active taken =>
    rw [Conditionals.activeNow, active, List.all_cons, Bool.and_comm]

theorem Frames.push (frames : Frames stack arms) (value : Option Bool) :
    Frames (push stack (value.getD true)) ((value, 0) :: arms) := by
  have first : followed (value, 0) = value.getD true := by
    rcases value with _ | _ | _ <;> rfl
  refine .cons frames frames.activeNow ?_ ?_
  · rw [frames.activeNow, first]
  · rcases value with _ | _ | _ <;> rfl

theorem Frames.nextArm (frames : Frames stack arms) :
    Frames (nextArm stack) (arms.modifyHead fun arm => (arm.1, arm.2 + 1)) := by
  cases frames with
  | nil => exact .nil
  | @cons frame arm stack arms rest parent active taken =>
    have next : followed (arm.1, arm.2 + 1) = !(arm.1 != some false || arm.2 != 0) := by
      obtain ⟨value, before⟩ := arm
      rcases value with _ | _ | _ <;> simp [followed, bne]
    refine .cons rest parent ?_ ?_
    · rw [parent, taken, next]
    · simp

theorem evalLine_spec (frames : Frames stack arms) (line : Text) :
    Frames (evalLine defined stack line).1 (armsAfter defined arms line) ∧
      (evalLine defined stack line).2 =
        if read (trim line) = none ∧ arms.all followed then line else [] := by
  unfold evalLine armsAfter
  cases is : read (trim line) with
  | none =>
    refine ⟨frames, ?_⟩
    simp only [frames.activeNow, true_and]
  | some directive =>
    refine ⟨?_, by cases directive <;> rfl⟩
    cases directive with
    | ifdef name => exact frames.push (some (defined name))
    | ifndef name => exact frames.push (some (!defined name))
    | ifExpr expr => exact frames.push (condDefined defined expr)
    | elif => exact frames.nextArm
    | else_ => exact frames.nextArm
    | endif =>
      cases frames with
      | nil => exact .nil
      | cons rest _ _ _ => exact rest

def outcome (defined : Text → Bool) (arms : List Arm) (lines : List Text) : List Text :=
  List.zipWith (fun line arms => if read (trim line) = none ∧ arms.all followed then line else [])
    lines (armsOf defined arms lines)

theorem evalLines_eq (frames : Frames stack arms) (lines : List Text) :
    evalLines defined stack lines = outcome defined arms lines := by
  induction lines generalizing stack arms with
  | nil => rfl
  | cons line lines ih =>
    obtain ⟨after, out⟩ : Frames (evalLine defined stack line).1 (armsAfter defined arms line) ∧ _ :=
      evalLine_spec frames line
    rw [evalLines, ih after, out]
    rfl

theorem armsOf_length (arms : List Arm) (lines : List Text) :
    (armsOf defined arms lines).length = lines.length := by
  induction lines generalizing arms with
  | nil => rfl
  | cons line lines ih => rw [armsOf, List.length_cons, List.length_cons, ih]

theorem outcome_length (arms : List Arm) (lines : List Text) :
    (outcome defined arms lines).length = lines.length := by
  rw [outcome, List.length_zipWith, armsOf_length, Nat.min_self]

theorem outcome_getElem? {i : Nat} {around : List Arm} (here : lines[i]? = some line)
    (there : (armsOf defined arms lines)[i]? = some around) :
    (outcome defined arms lines)[i]? =
      some (if read (trim line) = none ∧ around.all followed then line else []) := by
  rw [outcome, List.getElem?_zipWith, here, there]

theorem arms_at {i : Nat} (here : lines[i]? = some line) :
    ∃ around, (armsOf defined arms lines)[i]? = some around := by
  have inside := (List.getElem?_eq_some_iff.mp here).1
  have same : (armsOf defined arms lines).length = lines.length := armsOf_length arms lines
  rw [← same] at inside
  exact ⟨_, List.getElem?_eq_getElem inside⟩

/-! ### Texts without a group -/

theorem skipSpace_append {gap : Text} (spaces : Spaces gap) (text : Text) :
    skipSpace (gap ++ text) = skipSpace text :=
  List.dropWhile_append_of_pos spaces

theorem skipSpace_of_head (solid : ∀ c ∈ text.head?, isSpace c = false) :
    skipSpace text = text := by
  cases text with
  | nil => rfl
  | cons c text => exact List.dropWhile_cons_of_neg (by simp [solid c rfl])

/-- The opening of a group begins as an `#if` does. -/
theorem Opens.starts {condition : Condition κ} (opens : Opens line condition) :
    ∃ before rest, Spaces before ∧ trim line = '#' :: (before ++ 'i' :: 'f' :: rest) := by
  cases opens with
  | ifdef keyed _ _ =>
    obtain ⟨spaces, -, -, -, -, is⟩ := keyed
    exact ⟨_, _, spaces, by rw [is]; simp only [List.cons_append, List.append_assoc]; rfl⟩
  | ifndef keyed _ _ =>
    obtain ⟨spaces, -, -, -, -, is⟩ := keyed
    exact ⟨_, _, spaces, by rw [is]; simp only [List.cons_append, List.append_assoc]; rfl⟩
  | ifExpr keyed _ =>
    obtain ⟨spaces, -, -, -, -, is⟩ := keyed
    exact ⟨_, _, spaces, by rw [is]; simp only [List.cons_append, List.append_assoc]; rfl⟩

theorem infix_of_line (listed : line ∈ text.splitOn '\n') : line <:+: text := by
  induction text using Lines.induction '\n' with
  | part xs none_ =>
    rw [List.splitOn_eq_singleton none_, List.mem_singleton] at listed
    rw [listed]
  | lines first xs none_ ih =>
    rw [List.splitOn_append_cons_self_of_not_mem none_] at listed
    rcases List.mem_cons.mp listed with rfl | later
    · exact ⟨[], '\n' :: xs, by rw [List.nil_append]⟩
    · exact (ih later).trans ((List.suffix_cons '\n' xs).trans (List.suffix_append _ _)).isInfix

theorem hasIf_of_opens {condition : Condition κ} (listed : line ∈ text.splitOn '\n')
    (opens : Opens line condition) : hasIf text = true := by
  obtain ⟨before, rest, spaces, is⟩ := opens.starts
  obtain ⟨front, back, whole⟩ := (trim_inside line).trans (infix_of_line listed)
  rw [hasIf, List.any_eq_true]
  refine ⟨trim line ++ back, ?_, ?_⟩
  · rw [List.mem_tails, ← whole, List.append_assoc]
    exact List.suffix_append _ _
  · have reads : skipSpace (before ++ 'i' :: 'f' :: rest ++ back) = 'i' :: 'f' :: (rest ++ back) := by
      rw [List.append_assoc, skipSpace_append spaces]
      exact skipSpace_of_head (by rintro c ⟨⟩; rfl)
    rw [is, List.cons_append, afterKeyword, reads, if_pos (by rfl)]
    rfl

theorem plain_of_no_group : ∀ tree : Lines κ,
    (∀ line ∈ tree.texts, ∀ condition : Condition κ, ¬ Opens line condition) →
      ∀ line ∈ tree.texts, Plain line
  | .done, _ => nofun
  | .line text plain rest, none_ => by
    intro line listed
    rcases List.mem_cons.mp listed with rfl | later
    · exact plain
    · have none_later : ∀ line ∈ rest.texts, ∀ condition : Condition κ, ¬ Opens line condition :=
        fun line after => none_ line (List.mem_cons_of_mem _ after)
      exact plain_of_no_group rest none_later line later
  | .group opening condition opens body arms rest, none_ =>
    absurd opens (none_ opening List.mem_cons_self condition)

theorem outcome_plain (plain : ∀ line ∈ lines, Plain line) : outcome defined [] lines = lines := by
  induction lines with
  | nil => rfl
  | cons line lines ih =>
    have first := (plain line List.mem_cons_self).read
    have rest := ih fun line listed => plain line (List.mem_cons_of_mem _ listed)
    have after : armsAfter defined [] line = [] := by rw [armsAfter, first]
    rw [outcome, armsOf, List.zipWith_cons_cons, if_pos ⟨first, rfl⟩, after]
    exact congrArg (line :: ·) rest

theorem evalConditionals_lines (split : text.splitOn '\n' = tree.texts) :
    (evalConditionals text defined).splitOn '\n' = outcome defined [] (text.splitOn '\n') := by
  cases some_ : hasIf text with
  | false =>
    rw [evalConditionals, some_]
    symm
    apply outcome_plain
    rw [split]
    apply plain_of_no_group
    intro line listed condition opens
    rw [← split] at listed
    rw [hasIf_of_opens listed opens] at some_
    cases some_
  | true =>
    rw [evalConditionals, some_, if_pos rfl, evalLines_eq .nil]
    apply List.splitOn_intercalate
    · intro out listed
      obtain ⟨i, hi, rfl⟩ := List.getElem_of_mem listed
      have inside : i < (text.splitOn '\n').length := by rwa [outcome_length] at hi
      have here := List.getElem?_eq_getElem inside
      obtain ⟨around, there⟩ : ∃ around, (armsOf defined [] _)[_]? = some around := arms_at here
      have is := outcome_getElem? here there
      rw [List.getElem?_eq_getElem hi] at is
      rw [Option.some.inj is]
      split
      · exact Lines.not_mem_of_mem_splitOn (List.getElem_mem inside)
      · exact List.not_mem_nil
    · intro empty
      have none_ := congrArg List.length empty
      rw [outcome_length] at none_
      exact List.splitOn_ne_nil '\n' text (List.length_eq_zero_iff.mp none_)

def KeptPlain (line : Text) (kept : Bool) : Prop := kept = true → Plain line

theorem keptPlain_false (line : Text) : KeptPlain line false := nofun

mutual

theorem Lines.keeps_plain (active : Bool) : ∀ tree : Lines κ,
    List.Forall₂ KeptPlain tree.texts (tree.keeps defined truth active)
  | .done => .nil
  | .line _ plain rest => .cons (fun _ => plain) (rest.keeps_plain active)
  | .group opening _ _ body arms rest =>
    .cons (keptPlain_false opening) (List.rel_append (body.keeps_plain _)
      (List.rel_append (arms.keeps_plain active _) (rest.keeps_plain active)))

theorem Arms.keeps_plain (active taken : Bool) : ∀ arms : Arms κ,
    List.Forall₂ KeptPlain arms.texts (arms.keeps defined truth active taken)
  | .endif text _ => .cons (keptPlain_false text) .nil
  | .elif text _ _ body arms =>
    .cons (keptPlain_false text) (List.rel_append (body.keeps_plain _) (arms.keeps_plain active _))
  | .else_ text _ body closing _ =>
    .cons (keptPlain_false text) (List.rel_append (body.keeps_plain _)
      (.cons (keptPlain_false closing) .nil))

end

theorem keeps_at {active kept : Bool} {i : Nat}
    (is : (tree.keeps defined truth active)[i]? = some kept) :
    ∃ line, tree.texts[i]? = some line ∧ (kept = true → Plain line) := by
  have all : List.Forall₂ KeptPlain tree.texts (tree.keeps defined truth active) := tree.keeps_plain active
  obtain ⟨inside, rfl⟩ := List.getElem?_eq_some_iff.mp is
  have here : i < tree.texts.length := by rwa [all.length_eq]
  exact ⟨_, List.getElem?_eq_getElem here, (List.forall₂_iff_get.mp all).2 i here inside⟩

/-- `evalConditionals` keeps what it may not drop if and only if the arms that it follows hold that. -/
theorem evalConditionals_faithful_iff (tree : Lines κ) (text : Text) (defined : Text → Bool)
    (split : text.splitOn '\n' = tree.texts) :
    Faithful tree text defined ↔ Followed tree text defined := by
  have out : (evalConditionals text defined).splitOn _ = _ := evalConditionals_lines split
  constructor
  · intro faithful
    refine ⟨?_, ?_⟩
    · intro truth i line arms here some_ around keeps
      have kept := faithful.kept truth i line here keeps
      rw [out, outcome_getElem? here around] at kept
      by_contra dropped
      rw [if_neg fun both => dropped both.2] at kept
      exact some_ (Option.some.inj kept).symm
    · intro simple truth i line arms here some_ plain around keeps followed
      have dropped := faithful.dropped simple truth i keeps
      rw [out, outcome_getElem? here around, if_pos ⟨plain, followed⟩] at dropped
      exact some_ (Option.some.inj dropped)
  · intro follows
    refine ⟨?_, ?_, ?_⟩
    · rw [out, List.forall₂_iff_get]
      refine ⟨(outcome_length [] _).symm, ?_⟩
      intro i here there
      have at_ := List.getElem?_eq_getElem here
      obtain ⟨around, those⟩ : ∃ around, (armsOf defined [] _)[_]? = some around := arms_at at_
      have is := outcome_getElem? at_ those
      rw [List.getElem?_eq_getElem there] at is
      simp only [List.get_eq_getElem, Option.some.inj is]
      split
      · exact .inl rfl
      · exact .inr rfl
    · intro truth i line here keeps
      obtain ⟨around, there⟩ : ∃ around, (armsOf defined [] _)[_]? = some around := arms_at here
      rw [out, outcome_getElem? here there]
      by_cases empty : line = []
      · rw [empty, ite_self]
      · have followed := follows.kept truth i line around here empty there keeps
        obtain ⟨same, is, plain⟩ := keeps_at keeps
        rw [← split, here] at is
        cases is
        rw [if_pos ⟨(plain rfl).read, followed⟩]
    · intro simple truth i keeps
      obtain ⟨line, here, -⟩ := keeps_at keeps
      rw [← split] at here
      obtain ⟨around, there⟩ : ∃ around, (armsOf defined [] _)[_]? = some around := arms_at here
      rw [out, outcome_getElem? here there]
      by_cases empty : line = []
      · rw [empty, ite_self]
      · rw [if_neg]
        rintro ⟨plain, followed⟩
        exact follows.dropped simple truth i line around here empty plain there keeps followed

/-- The lines `#ifdef A`, `x` and `#endif`. -/
def ifdefLines : Lines Unit :=
  .group ['#', 'i', 'f', 'd', 'e', 'f', ' ', 'A'] (.isDefined ['A'])
    (@Opens.ifdef Unit _ ['A'] [] (@Keyed.mk _ _ _ [] [' '] (by decide) (by decide) (by decide)
      (by decide) (by decide) (by decide)) (by decide) (by decide))
    (.line ['x'] (by decide) .done) (.endif ['#', 'e', 'n', 'd', 'i', 'f'] (by decide)) .done

theorem evalConditionals_faithful_iff_ifdef :
    Faithful ifdefLines (List.intercalate ['\n'] ifdefLines.texts) (fun _ => true) ↔
      Followed ifdefLines (List.intercalate ['\n'] ifdefLines.texts) (fun _ => true) :=
  evalConditionals_faithful_iff _ _ _ (by decide)

/-- The lines `#if A`, `#else`, `x` and `#endif`. -/
def elseLines : Lines Unit :=
  .group ['#', 'i', 'f', ' ', 'A'] (.other ())
    (.ifExpr (@Keyed.mk _ ['A'] _ [] [' '] (by decide) (by decide) (by decide) (by decide) (by decide)
      (by decide)) (.other (by rintro name ⟨⟩) (by rintro name ⟨⟩)))
    .done
    (.else_ ['#', 'e', 'l', 's', 'e'] (by decide) (.line ['x'] (by decide) .done)
      ['#', 'e', 'n', 'd', 'i', 'f'] (by decide)) .done

/-- What follows the `#else` of a condition that is beyond the patterns is dropped. -/
theorem evalConditionals_drops_else : ¬ ∀ (tree : Lines Unit) (text : Text) (defined : Text → Bool),
    text.splitOn '\n' = tree.texts → Faithful tree text defined := by
  intro all
  have faithful := all elseLines (List.intercalate ['\n'] elseLines.texts) (fun _ => false) (by decide)
  have kept := faithful.kept (fun _ => false) 2 ['x'] (by decide) (by decide)
  revert kept
  decide

end CodeGraph.Resolution.Conditionals
