import CodeGraph.Resolution.StripText

/-! Each scanner decides alike on a text and on what its stripper makes of it. -/
namespace CodeGraph.Resolution

open Blanking Text

private theorem blankUnit_cases (u : UInt16) : blankUnit u = NEWLINE ∨ blankUnit u = SPACE := by
  unfold blankUnit
  split
  · next same => exact .inl same
  · exact .inr rfl

private theorem solid {c : UInt16} (line : c ≠ NEWLINE) (space : c ≠ SPACE) (u : UInt16) :
    blankUnit u ≠ c := by
  rcases blankUnit_cases u with same | same
  · exact fun eq => line (eq.symm.trans same)
  · exact fun eq => space (eq.symm.trans same)

private theorem quote_solid {c : UInt16} (quote : c = DQUOTE ∨ c = SQUOTE) (u : UInt16) :
    blankUnit u ≠ c := by
  rcases quote with rfl | rfl
  · exact solid (by decide) (by decide) u
  · exact solid (by decide) (by decide) u

private theorem newline_kept {v : UInt16} (unit : v = NEWLINE ∨ v = blankUnit NEWLINE) :
    v = NEWLINE := unit.elim id id

private theorem quoted_keeps {quote : UInt16} {breaks : Bool} {rest rest' : JsString}
    (overlay : Overlay blankUnit rest rest')
    (agree : rest'.take (quoted quote breaks rest) = rest.take (quoted quote breaks rest)) :
    quoted quote breaks rest' = quoted quote breaks rest := by
  induction rest using quoted.induct quote breaks generalizing rest' with
  | case1 =>
    cases overlay
    rfl
  | case2 =>
    rcases overlay with _ | ⟨unit, _ | _⟩
    simp only [quoted, if_true, List.take_succ_cons, List.cons.injEq] at agree
    rw [agree.1]
  | case3 u other line =>
    rcases overlay with _ | ⟨unit, _ | _⟩
    rw [line.2] at unit ⊢
    rw [newline_kept unit]
  | case4 u other inside =>
    rcases overlay with _ | ⟨unit, _ | _⟩
    simp only [quoted, if_neg other, if_neg inside, List.take_succ_cons, List.cons.injEq] at agree
    rw [agree.1]
  | case5 v rest =>
    rcases overlay with _ | ⟨unit, _ | ⟨second, tail⟩⟩
    simp only [quoted, if_true, List.take_succ_cons, List.cons.injEq] at agree
    simp only [agree.1, quoted, if_true]
  | case6 v rest other ih =>
    rcases overlay with _ | ⟨unit, _ | ⟨second, tail⟩⟩
    simp only [quoted, if_neg other, if_true, Nat.add_comm 2, List.take_succ_cons,
      List.cons.injEq] at agree
    simp only [agree.1, quoted, if_neg other, if_true, ih tail agree.2.2]
  | case7 u v rest other plain line =>
    -- The literal ends before its newline, which is no part of the token.
    rcases overlay with _ | ⟨unit, _ | ⟨second, tail⟩⟩
    rw [line.2] at unit
    have same := (newline_kept unit).trans line.2.symm
    simp only [same, quoted, if_neg other, if_neg plain, if_pos line]
  | case8 u v rest other plain inside ih =>
    rcases overlay with _ | ⟨unit, _ | ⟨second, tail⟩⟩
    simp only [quoted, if_neg other, if_neg plain, if_neg inside, Nat.add_comm 1,
      List.take_succ_cons, List.cons.injEq] at agree
    simp only [agree.1, quoted, if_neg other, if_neg plain, if_neg inside,
      ih (List.Forall₂.cons second tail) agree.2]

private theorem rawLength_keeps {rest rest' : JsString} (overlay : Overlay blankUnit rest rest')
    (agree : rest'.take (rawLength rest) = rest.take (rawLength rest)) :
    rawLength rest' = rawLength rest := by
  induction overlay with
  | nil => rfl
  | @cons u v rest rest' unit tail ih =>
    by_cases close : u = BACKTICK
    · simp only [rawLength, if_pos close, List.take_succ_cons, List.cons.injEq] at agree
      simp only [rawLength, agree.1, if_pos close]
    · simp only [rawLength, if_neg close, Nat.add_comm 1, List.take_succ_cons,
        List.cons.injEq] at agree
      simp only [rawLength, agree.1, if_neg close, ih agree.2]

/-! ### Lengths of comments -/

private theorem lineLength_positive {c : UInt16} (other : c ≠ NEWLINE) (rest : JsString) :
    0 < lineLength (c :: rest) := by
  rw [lineLength, List.takeWhile_cons_of_pos (by simpa using other), List.length_cons]
  exact Nat.succ_pos _

private theorem lineLength_le (rest : JsString) : lineLength rest ≤ rest.length :=
  (List.takeWhile_sublist _).length_le

private theorem tripleQuoted_le (quote : UInt16) (rest : JsString) :
    tripleQuoted quote rest ≤ rest.length := by
  induction rest using tripleQuoted.induct quote with
  | case1 => exact Nat.le_refl _
  | case2 u => exact Nat.le_refl _
  | case3 v rest ih =>
    simp only [tripleQuoted, if_true, List.length_cons]
    omega
  | case4 u v rest other close =>
    obtain ⟨third, _⟩ := List.getElem?_eq_some_iff.mp close.2.2
    simp only [tripleQuoted, if_neg other, if_pos close, List.length_cons]
    omega
  | case5 u v rest other inside ih =>
    simp only [tripleQuoted, if_neg other, if_neg inside, List.length_cons] at ih ⊢
    omega

private theorem blockLength_le (rest : JsString) : blockLength rest ≤ rest.length := by
  induction rest with
  | nil => exact Nat.le_refl _
  | cons u rest ih =>
    rw [blockLength, List.length_cons]
    split
    · next close =>
      obtain ⟨second, _⟩ := List.getElem?_eq_some_iff.mp close.2
      omega
    · omega

private theorem nestedLength_le (depth : Nat) (rest : JsString) :
    nestedLength depth rest ≤ rest.length := by
  induction depth, rest using nestedLength.induct with
  | case1 rest => simp [nestedLength]
  | case2 depth => exact Nat.le_refl _
  | case3 depth u => exact Nat.le_refl _
  | case4 depth u v rest opens ih =>
    simp only [nestedLength, if_pos opens, List.length_cons]
    omega
  | case5 depth u v rest other close ih =>
    simp only [nestedLength, if_neg other, if_pos close, List.length_cons]
    omega
  | case6 depth u v rest other inside ih =>
    simp only [nestedLength, if_neg other, if_neg inside, List.length_cons] at ih ⊢
    omega

private theorem indexOf_le {pattern rest : JsString} {k : Nat}
    (found : indexOf pattern rest = some k) : k + pattern.length ≤ rest.length := by
  induction rest generalizing k with
  | nil =>
    rw [indexOf] at found
    split at found
    · next empty =>
      cases found
      rw [empty]
      exact Nat.le_refl _
    · cases found
  | cons u rest ih =>
    rw [indexOf] at found
    split at found
    · next starts =>
      cases found
      rw [Nat.zero_add]
      exact (List.isPrefixOf_iff_prefix.mp starts).length_le
    · obtain ⟨j, later, rfl⟩ := Option.map_eq_some_iff.mp found
      have := ih later
      rw [List.length_cons]
      omega

private theorem rubyBlock_le (rest : JsString) : rubyBlock rest ≤ rest.length := by
  induction rest with
  | nil => exact Nat.le_refl _
  | cons u rest ih =>
    rw [rubyBlock, List.length_cons]
    generalize (rest.takeWhile fun v => v = SPACE ∨ v = TAB).length = indent
    split
    · next close =>
      have starts := (List.isPrefixOf_iff_prefix.mp close.2).length_le
      have line := lineLength_le (rest.drop (indent + END.length))
      rw [List.length_drop] at starts line
      have length : END.length = 4 := rfl
      omega
    · omega

private theorem stable_unit {round : Unit → JsString → Token Unit} (forward : Forward round)
    (keeps : ∀ c rest rest', Overlay blankUnit rest rest' → (round () (c :: rest)).kind ≠ .blank →
      rest'.take ((round () (c :: rest)).length - 1) =
        rest.take ((round () (c :: rest)).length - 1) → round () (c :: rest') = round () (c :: rest))
    (blanks : ∀ c rest, c = NEWLINE ∨ c = SPACE → round () (c :: rest) = ⟨.plain, 1, ()⟩) :
    Stable round blankUnit :=
  Stable.ofCons forward.progress (fun _ => keeps)
    (fun _ u rest => ⟨(), blanks _ rest (blankUnit_cases u)⟩) fun _ _ _ _ _ => .inr fun _ _ => rfl

private theorem literal_keeps {quote : UInt16} {breaks : Bool} {rest rest' : JsString}
    (overlay : Overlay blankUnit rest rest')
    (agree : rest'.take (1 + quoted quote breaks rest - 1) =
      rest.take (1 + quoted quote breaks rest - 1)) :
    quoted quote breaks rest' = quoted quote breaks rest :=
  quoted_keeps overlay (by rwa [Nat.add_sub_cancel_left] at agree)

private theorem absent {rest rest' : JsString} (overlay : Overlay blankUnit rest rest') {c : UInt16}
    (line : c ≠ NEWLINE) (space : c ≠ SPACE) {i : Nat} (other : rest[i]? ≠ some c) :
    rest'[i]? ≠ some c := fun found => other (overlay.solid (solid line space) found)

theorem pythonRound_forward : Forward pythonRound where
  progress := by
    intro _ c rest
    rw [pythonRound]
    split
    · exact Nat.add_pos_left (by decide) _
    · split
      · exact Nat.add_pos_left Nat.one_pos _
      · split
        · next hash => exact lineLength_positive (by rw [hash]; decide) rest
        · exact Nat.one_pos
  within := by
    intro _ c rest kind
    rw [pythonRound] at kind ⊢
    split
    · next triple =>
      obtain ⟨third, _⟩ := List.getElem?_eq_some_iff.mp triple.2.2
      have more := tripleQuoted_le c (rest.drop 2)
      rw [List.length_drop] at more
      simp only
      omega
    · next single =>
      rw [if_neg single] at kind
      split
      · next quote =>
        rw [if_pos quote] at kind
        cases kind
      · split
        · exact lineLength_le (c :: rest)
        · exact Nat.succ_le_succ (Nat.zero_le _)

theorem pythonRound_stable : Stable pythonRound blankUnit := by
  refine stable_unit pythonRound_forward (fun c rest rest' overlay kept agree => ?_) ?_
  · by_cases quote : c = DQUOTE ∨ c = SQUOTE
    · by_cases triple : rest[0]? = some c ∧ rest[1]? = some c
      · exact absurd (by simp [pythonRound, quote, triple]) kept
      · have still : ¬ (rest'[0]? = some c ∧ rest'[1]? = some c) := fun found => triple
          ⟨overlay.solid (quote_solid quote) found.1, overlay.solid (quote_solid quote) found.2⟩
        have before : pythonRound () (c :: rest) = ⟨.literal, 1 + quoted c true rest, ()⟩ := by
          rw [pythonRound, if_neg (fun all => triple all.2), if_pos quote]
        rw [before] at agree ⊢
        rw [pythonRound, if_neg (fun all => still all.2), if_pos quote, literal_keeps overlay agree]
    · by_cases hash : c = HASH
      · refine absurd ?_ kept
        rw [pythonRound, if_neg (fun all => quote all.1), if_neg quote, if_pos hash]
      · simp [pythonRound, quote, hash]
  · rintro c rest (rfl | rfl) <;> simp [pythonRound, NEWLINE, SPACE, DQUOTE, SQUOTE, HASH]

/-! ### Scanners with block and line comments -/

private theorem slash_apart : SLASH ≠ STAR ∧ SLASH ≠ HASH ∧ SLASH ≠ DQUOTE ∧ SLASH ≠ SQUOTE ∧
    SLASH ≠ BACKTICK := by decide

/-- A slash that opens no comment opens none when the text is stripped. -/
private theorem slash_keeps {rest rest' : JsString} (overlay : Overlay blankUnit rest rest')
    (star : rest[0]? ≠ some STAR) (slash : rest[0]? ≠ some SLASH) :
    rest'[0]? ≠ some STAR ∧ rest'[0]? ≠ some SLASH :=
  ⟨absent overlay (by decide) (by decide) star, absent overlay (by decide) (by decide) slash⟩

theorem cStyleRound_forward (allow : Bool) : Forward (cStyleRound allow) where
  progress := by
    intro _ c rest
    rw [cStyleRound]
    split
    · cases indexOf [STAR, SLASH] (rest.drop 1) with
      | none => exact Nat.add_pos_left Nat.one_pos _
      | some k => exact Nat.succ_pos _
    · split
      · cases indexOf [NEWLINE] (rest.drop 1) with
        | none => exact Nat.add_pos_left Nat.one_pos _
        | some k => exact Nat.add_pos_left (by decide) _
      · split
        · exact Nat.add_pos_left Nat.one_pos _
        · exact Nat.one_pos
  within := by
    intro _ c rest kind
    rw [cStyleRound] at kind ⊢
    split
    · cases found : indexOf [STAR, SLASH] (rest.drop 1) with
      | none => exact Nat.le_of_eq (Nat.add_comm _ _)
      | some k =>
        have bound := indexOf_le found
        rw [List.length_drop] at bound
        simp only [List.length_cons, List.length_nil, Option.elim_some] at bound ⊢
        omega
    · next block =>
      rw [if_neg block] at kind
      split
      · cases found : indexOf [NEWLINE] (rest.drop 1) with
        | none => exact Nat.le_of_eq (Nat.add_comm _ _)
        | some k =>
          have bound := indexOf_le found
          rw [List.length_drop] at bound
          simp only [List.length_cons, List.length_nil, Option.elim_some] at bound ⊢
          omega
      · next line =>
        rw [if_neg line] at kind
        split at kind <;> cases kind

theorem cStyleRound_stable (allow : Bool) : Stable (cStyleRound allow) blankUnit := by
  refine stable_unit (cStyleRound_forward allow) (fun c rest rest' overlay kept agree => ?_) ?_
  · by_cases slash : c = SLASH
    · subst slash
      by_cases star : rest[0]? = some STAR
      · exact absurd (by simp [cStyleRound, star]) kept
      · by_cases line : rest[0]? = some SLASH
        · exact absurd (by simp [cStyleRound, line, slash_apart]) kept
        · obtain ⟨star', line'⟩ := slash_keeps overlay star line
          simp [cStyleRound, star, line, star', line', slash_apart]
    · by_cases quote : c = DQUOTE ∨ (allow ∧ c = SQUOTE) ∨ c = BACKTICK
      · have before : cStyleRound allow () (c :: rest) =
            ⟨.literal, 1 + quoted c (c ≠ BACKTICK) rest, ()⟩ := by
          rw [cStyleRound, if_neg (fun all => slash all.1), if_neg (fun all => slash all.1),
            if_pos quote]
        rw [before] at agree ⊢
        rw [cStyleRound, if_neg (fun all => slash all.1), if_neg (fun all => slash all.1),
          if_pos quote, literal_keeps overlay agree]
      · simp [cStyleRound, slash, quote]
  · rintro c rest (rfl | rfl) <;>
      simp [cStyleRound, NEWLINE, SPACE, SLASH, DQUOTE, SQUOTE, BACKTICK]

theorem phpRound_forward : Forward phpRound where
  progress := by
    intro _ c rest
    rw [phpRound]
    split
    · exact Nat.add_pos_left (by decide) _
    · split
      · next line => exact lineLength_positive (by rw [line.1]; decide) rest
      · split
        · next hash => exact lineLength_positive (by rw [hash]; decide) rest
        · split
          · exact Nat.add_pos_left Nat.one_pos _
          · exact Nat.one_pos
  within := by
    intro _ c rest kind
    rw [phpRound] at kind ⊢
    split
    · next block =>
      obtain ⟨second, _⟩ := List.getElem?_eq_some_iff.mp block.2
      have more := blockLength_le (rest.drop 1)
      rw [List.length_drop] at more
      simp only
      omega
    · next block =>
      rw [if_neg block] at kind
      split
      · exact lineLength_le (c :: rest)
      · next line =>
        rw [if_neg line] at kind
        split
        · exact lineLength_le (c :: rest)
        · next hash =>
          rw [if_neg hash] at kind
          split at kind <;> cases kind

theorem phpRound_stable : Stable phpRound blankUnit := by
  refine stable_unit phpRound_forward (fun c rest rest' overlay kept agree => ?_) ?_
  · by_cases slash : c = SLASH
    · subst slash
      by_cases star : rest[0]? = some STAR
      · exact absurd (by simp [phpRound, star]) kept
      · by_cases line : rest[0]? = some SLASH
        · exact absurd (by simp [phpRound, line, slash_apart]) kept
        · obtain ⟨star', line'⟩ := slash_keeps overlay star line
          simp [phpRound, star, line, star', line', slash_apart]
    · by_cases hash : c = HASH
      · refine absurd ?_ kept
        rw [phpRound, if_neg (fun all => slash all.1), if_neg (fun all => slash all.1), if_pos hash]
      · by_cases quote : c = DQUOTE ∨ c = SQUOTE ∨ c = BACKTICK
        · have before : phpRound () (c :: rest) = ⟨.literal, 1 + quoted c true rest, ()⟩ := by
            rw [phpRound, if_neg (fun all => slash all.1), if_neg (fun all => slash all.1),
              if_neg hash, if_pos quote]
          rw [before] at agree ⊢
          rw [phpRound, if_neg (fun all => slash all.1), if_neg (fun all => slash all.1),
            if_neg hash, if_pos quote, literal_keeps overlay agree]
        · simp [phpRound, slash, hash, quote]
  · rintro c rest (rfl | rfl) <;>
      simp [phpRound, NEWLINE, SPACE, SLASH, HASH, DQUOTE, SQUOTE, BACKTICK]

theorem goRound_forward : Forward goRound where
  progress := by
    intro _ c rest
    rw [goRound]
    split
    · exact Nat.add_pos_left (by decide) _
    · split
      · next line => exact lineLength_positive (by rw [line.1]; decide) rest
      · split
        · exact Nat.add_pos_left Nat.one_pos _
        · split
          · exact Nat.add_pos_left Nat.one_pos _
          · split
            · exact Nat.add_pos_left Nat.one_pos _
            · exact Nat.one_pos
  within := by
    intro _ c rest kind
    rw [goRound] at kind ⊢
    split
    · next block =>
      obtain ⟨second, _⟩ := List.getElem?_eq_some_iff.mp block.2
      have more := blockLength_le (rest.drop 1)
      rw [List.length_drop] at more
      simp only
      omega
    · next block =>
      rw [if_neg block] at kind
      split
      · exact lineLength_le (c :: rest)
      · next line =>
        rw [if_neg line] at kind
        split at kind
        · cases kind
        · split at kind
          · cases kind
          · split at kind <;> cases kind

theorem goRound_stable : Stable goRound blankUnit := by
  refine stable_unit goRound_forward (fun c rest rest' overlay kept agree => ?_) ?_
  · by_cases slash : c = SLASH
    · subst slash
      by_cases star : rest[0]? = some STAR
      · exact absurd (by simp [goRound, star]) kept
      · by_cases line : rest[0]? = some SLASH
        · exact absurd (by simp [goRound, line, slash_apart]) kept
        · obtain ⟨star', line'⟩ := slash_keeps overlay star line
          simp [goRound, star, line, star', line', slash_apart]
    · have block (rest : JsString) : ¬ (c = SLASH ∧ rest[0]? = some STAR) := fun all => slash all.1
      have line (rest : JsString) : ¬ (c = SLASH ∧ rest[0]? = some SLASH) := fun all => slash all.1
      simp only [goRound, if_neg (block rest), if_neg (line rest), if_neg (block rest'),
        if_neg (line rest')] at agree ⊢
      by_cases tick : c = BACKTICK
      · simp only [if_pos tick, Nat.add_sub_cancel_left] at agree ⊢
        rw [rawLength_keeps overlay agree]
      · by_cases double : c = DQUOTE
        · simp only [if_neg tick, if_pos double] at agree ⊢
          rw [literal_keeps overlay agree]
        · by_cases single : c = SQUOTE
          · simp only [if_neg tick, if_neg double, if_pos single] at agree ⊢
            rw [literal_keeps overlay agree]
          · simp [tick, double, single]
  · rintro c rest (rfl | rfl) <;> simp [goRound, NEWLINE, SPACE, SLASH, DQUOTE, SQUOTE, BACKTICK]

theorem rustRound_forward : Forward rustRound where
  progress := by
    intro _ c rest
    rw [rustRound]
    split
    · exact Nat.add_pos_left (by decide) _
    · split
      · next line => exact lineLength_positive (by rw [line.1]; decide) rest
      · split
        · exact Nat.add_pos_left Nat.one_pos _
        · split
          · exact Nat.add_pos_left Nat.one_pos _
          · exact Nat.one_pos
  within := by
    intro _ c rest kind
    rw [rustRound] at kind ⊢
    split
    · next block =>
      obtain ⟨second, _⟩ := List.getElem?_eq_some_iff.mp block.2
      have more := nestedLength_le 1 (rest.drop 1)
      rw [List.length_drop] at more
      simp only
      omega
    · next block =>
      rw [if_neg block] at kind
      split
      · exact lineLength_le (c :: rest)
      · next line =>
        rw [if_neg line] at kind
        split at kind
        · cases kind
        · split at kind <;> cases kind

theorem rustRound_stable : Stable rustRound blankUnit := by
  refine stable_unit rustRound_forward (fun c rest rest' overlay kept agree => ?_) ?_
  · by_cases slash : c = SLASH
    · subst slash
      by_cases star : rest[0]? = some STAR
      · exact absurd (by simp [rustRound, star]) kept
      · by_cases line : rest[0]? = some SLASH
        · exact absurd (by simp [rustRound, line, slash_apart]) kept
        · obtain ⟨star', line'⟩ := slash_keeps overlay star line
          simp [rustRound, star, line, star', line', slash_apart]
    · have block (rest : JsString) : ¬ (c = SLASH ∧ rest[0]? = some STAR) := fun all => slash all.1
      have line (rest : JsString) : ¬ (c = SLASH ∧ rest[0]? = some SLASH) := fun all => slash all.1
      simp only [rustRound, if_neg (block rest), if_neg (line rest), if_neg (block rest'),
        if_neg (line rest')] at agree ⊢
      by_cases double : c = DQUOTE
      · simp only [if_pos double] at agree ⊢
        rw [literal_keeps overlay agree]
      · by_cases single : c = SQUOTE
        · simp only [if_neg double, if_pos single] at agree ⊢
          rw [literal_keeps overlay agree]
        · simp [double, single]
  · rintro c rest (rfl | rfl) <;> simp [rustRound, NEWLINE, SPACE, SLASH, DQUOTE, SQUOTE]

theorem erlangRound_forward : Forward erlangRound where
  progress := by
    intro _ c rest
    rw [erlangRound]
    split
    · exact Nat.add_pos_left Nat.one_pos _
    · split
      · exact Nat.succ_pos _
      · split
        · next percent => exact lineLength_positive (by rw [percent]; decide) rest
        · exact Nat.one_pos
  within := by
    intro _ c rest kind
    rw [erlangRound] at kind ⊢
    split at kind
    · cases kind
    · next quote =>
      rw [if_neg quote]
      split at kind
      · cases kind
      · next dollar =>
        rw [if_neg dollar]
        split
        · exact lineLength_le (c :: rest)
        · exact Nat.succ_le_succ (Nat.zero_le _)

theorem erlangRound_stable : Stable erlangRound blankUnit := by
  refine stable_unit erlangRound_forward (fun c rest rest' overlay kept agree => ?_) ?_
  · by_cases quote : c = DQUOTE ∨ c = SQUOTE
    · simp only [erlangRound, if_pos quote] at agree ⊢
      rw [literal_keeps overlay agree]
    · by_cases dollar : c = DOLLAR
      · -- The token has at least the unit behind the dollar, so that unit is the same.
        have first : rest'[0]? = rest[0]? := by
          simp only [erlangRound, if_neg quote, if_pos dollar] at agree
          have units := congrArg (·[0]?) agree
          rwa [List.getElem?_take_of_lt (by omega), List.getElem?_take_of_lt (by omega)] at units
        simp only [erlangRound, if_neg quote, if_pos dollar, first]
      · by_cases percent : c = PERCENT
        · refine absurd ?_ kept
          rw [erlangRound, if_neg quote, if_neg dollar, if_pos percent]
        · simp [erlangRound, quote, dollar, percent]
  · rintro c rest (rfl | rfl) <;>
      simp [erlangRound, NEWLINE, SPACE, DQUOTE, SQUOTE, DOLLAR, PERCENT]

private theorem lineLength_drop (rest : JsString) :
    rest.drop (lineLength rest) = [] ∨ ∃ more, rest.drop (lineLength rest) = NEWLINE :: more := by
  induction rest with
  | nil => exact .inl rfl
  | cons u rest ih =>
    by_cases line : u = NEWLINE
    · exact .inr ⟨rest, by simp [lineLength, line]⟩
    · have skip : lineLength (u :: rest) = lineLength rest + 1 := by
        simp [lineLength, line]
      rw [skip, List.drop_succ_cons]
      exact ih

private theorem rubyBlock_drop (rest : JsString) :
    rest.drop (rubyBlock rest) = [] ∨ ∃ more, rest.drop (rubyBlock rest) = NEWLINE :: more := by
  induction rest with
  | nil => exact .inl rfl
  | cons u rest ih =>
    rw [rubyBlock]
    generalize (rest.takeWhile fun v => v = SPACE ∨ v = TAB).length = indent
    split
    · have line := lineLength_drop (rest.drop (indent + END.length))
      rw [List.drop_drop] at line
      have shape : 1 + indent + END.length + lineLength (rest.drop (indent + END.length)) =
          indent + END.length + lineLength (rest.drop (indent + END.length)) + 1 := by omega
      rw [shape, List.drop_succ_cons]
      exact line
    · rw [Nat.add_comm 1, List.drop_succ_cons]
      exact ih

theorem rubyRound_forward : Forward rubyRound where
  progress := by
    intro state c rest
    rw [rubyRound]
    split
    · exact Nat.add_pos_left (by decide) _
    · split
      · exact Nat.add_pos_left Nat.one_pos _
      · split
        · next hash => exact lineLength_positive (by rw [hash]; decide) rest
        · split
          · exact Nat.one_pos
          · split <;> exact Nat.one_pos
  within := by
    intro state c rest kind
    rw [rubyRound] at kind ⊢
    split
    · next block =>
      have starts := (List.isPrefixOf_iff_prefix.mp block.2.2).length_le
      have more := rubyBlock_le ((c :: rest).drop BEGIN.length)
      rw [List.length_drop] at more
      rw [List.length_cons] at starts more
      simp only
      omega
    · next block =>
      rw [if_neg block] at kind
      split
      · next quote =>
        rw [if_pos quote] at kind
        cases kind
      · next quote =>
        rw [if_neg quote] at kind
        split
        · exact lineLength_le (c :: rest)
        · next hash =>
          rw [if_neg hash] at kind
          split at kind
          · cases kind
          · split at kind <;> cases kind

private theorem rubyRound_newline (state : Bool) (rest : JsString) :
    rubyRound state (NEWLINE :: rest) = ⟨.plain, 1, true⟩ := by
  simp [rubyRound, NEWLINE, EQUALS, DQUOTE, SQUOTE, HASH]

private theorem rubyRound_blank {state : Bool} {rest : JsString}
    (kind : (rubyRound state rest).kind = .blank) :
    rest.drop (rubyRound state rest).length = [] ∨
      ∃ more, rest.drop (rubyRound state rest).length = NEWLINE :: more := by
  cases rest with
  | nil => exact .inl List.drop_nil
  | cons c rest =>
    rw [rubyRound] at kind ⊢
    split
    · have block := rubyBlock_drop ((c :: rest).drop BEGIN.length)
      rwa [List.drop_drop] at block
    · next block =>
      rw [if_neg block] at kind
      split
      · next quote =>
        rw [if_pos quote] at kind
        cases kind
      · next quote =>
        rw [if_neg quote] at kind
        split
        · exact lineLength_drop (c :: rest)
        · next hash =>
          rw [if_neg hash] at kind
          split at kind
          · cases kind
          · split at kind <;> cases kind

private theorem begin_keeps {c : UInt16} {rest rest' : JsString}
    (overlay : Overlay blankUnit rest rest') (other : ¬ BEGIN.isPrefixOf (c :: rest) = true) :
    ¬ BEGIN.isPrefixOf (c :: rest') = true := by
  intro starts
  refine other (Overlay.solid_prefix (List.Forall₂.cons (.inl rfl) overlay) ?_ starts)
  have clean : ∀ u ∈ BEGIN, u ≠ NEWLINE ∧ u ≠ SPACE := by simp [BEGIN, NEWLINE, SPACE]
  exact fun u member => solid (clean u member).1 (clean u member).2

theorem rubyRound_stable : Stable rubyRound blankUnit := by
  refine Stable.ofCons rubyRound_forward.progress (fun state c rest rest' overlay kept agree => ?_)
    (fun state u rest => ?_) (fun state rest tail' kind overlay => ?_)
  · by_cases block : state = true ∧ c = EQUALS ∧ BEGIN.isPrefixOf (c :: rest) = true
    · refine absurd ?_ kept
      rw [rubyRound, if_pos block]
    · have block' : ¬ (state = true ∧ c = EQUALS ∧ BEGIN.isPrefixOf (c :: rest') = true) := by
        rintro ⟨atStart, equals, starts⟩
        exact begin_keeps overlay (fun before => block ⟨atStart, equals, before⟩) starts
      simp only [rubyRound, if_neg block, if_neg block'] at agree kept ⊢
      by_cases quote : c = DQUOTE ∨ c = SQUOTE
      · simp only [if_pos quote] at agree ⊢
        rw [literal_keeps overlay agree]
      · by_cases hash : c = HASH
        · simp only [if_neg quote, if_pos hash] at kept
          exact (kept rfl).elim
        · simp only [if_neg quote, if_neg hash]
  · rcases blankUnit_cases u with line | space
    · exact ⟨true, by rw [line, rubyRound_newline]⟩
    · refine ⟨state, ?_⟩
      simp [space, rubyRound, SPACE, NEWLINE, EQUALS, DQUOTE, SQUOTE, HASH]
  · rcases rubyRound_blank kind with none_ | ⟨more, newline⟩
    · rw [none_] at overlay
      exact .inl (List.eq_nil_of_length_eq_zero overlay.length_eq)
    · rw [newline] at overlay
      cases overlay with
      | cons unit tail =>
        right
        intro s s'
        rw [newline_kept unit, rubyRound_newline, rubyRound_newline]

end CodeGraph.Resolution
