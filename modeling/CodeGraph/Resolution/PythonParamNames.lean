import CodeGraph.Foundation.Utf8
import CodeGraph.Resolution.PythonParamPieces

/-!
# The names that a parameter list gives

Every parameter gives its name, and every lambda outside brackets the names after its first.
-/
namespace CodeGraph.Resolution.PythonParams

open RustText AsciiBytes

variable {classes : WordClasses} {c : Char}

theorem blank_cases (blank : isBlank c = true) : c = ' ' ∨ c = '\t' ∨ c = '\x0c' := by
  rw [isBlank, Bool.or_eq_true, Bool.or_eq_true, beq_iff_eq, beq_iff_eq, beq_iff_eq] at blank
  exact or_assoc.mp blank

theorem blank_facts (blank : isBlank c = true) :
    isWhitespace c = true ∧ isPlain c = true ∧ c ≠ '*' := by
  rcases blank_cases blank with rfl | rfl | rfl
  · decide
  · decide
  · decide

theorem blank_word (blank : isBlank c = true) : classes.word c = false := by
  rcases blank_cases blank with rfl | rfl | rfl
  · exact (classes.word_ascii _ (by decide)).trans (by decide)
  · exact (classes.word_ascii _ (by decide)).trans (by decide)
  · exact (classes.word_ascii _ (by decide)).trans (by decide)

theorem ident_facts (inside : inIdent c = true) :
    isWhitespace c = false ∧ isPlain c = true ∧ c ≠ '*' := by
  by_cases ascii : IsAscii c
  · revert inside
    exact forall_ascii (P := fun c => inIdent c = true →
      isWhitespace c = false ∧ isPlain c = true ∧ c ≠ '*') (by decide +kernel) ascii
  · have big : ¬c.toNat < 0x80 := ascii
    rw [inIdent, if_neg big, Bool.not_eq_true'] at inside
    have other {d : Char} (small : IsAscii d) : c ≠ d := fun same => ascii (same ▸ small)
    refine ⟨inside, ?_, other (by decide)⟩
    have signs : ∀ d ∈ ['(', '[', '{', ')', ']', '}', ','], c ≠ d := by
      intro d mem
      exact other ((by decide : ∀ d ∈ ['(', '[', '{', ')', ']', '}', ','], IsAscii d) d mem)
    simp only [List.forall_mem_cons] at signs
    simp [isPlain, isOpen, isClose, signs]

theorem Gap.plain (gap : Gap) : ∀ c ∈ gap.text, isPlain c = true :=
  fun c mem => (blank_facts (gap.blank c mem)).2.1

theorem Gap.white (gap : Gap) : ∀ c ∈ gap.text, isWhitespace c = true :=
  fun c mem => (blank_facts (gap.blank c mem)).1

theorem stop_word (stop : c = ':' ∨ c = '=') : classes.word c = false := by
  rcases stop with rfl | rfl
  · exact (classes.word_ascii _ (by decide)).trans (by decide)
  · exact (classes.word_ascii _ (by decide)).trans (by decide)

/-! ### The head of a parameter -/

theorem after_word (gap : Gap) {t : List Char} (stops : Stops t) :
    (gap.text ++ t).takeWhile classes.word = [] := by
  cases found : gap.text with
  | nil =>
    rcases stops with rfl | ⟨c, rest, rfl, stop⟩
    · rfl
    · rw [List.nil_append, List.takeWhile_cons_of_neg]
      rw [stop_word stop]
      nofun
  | cons d rest =>
    rw [List.cons_append, List.takeWhile_cons_of_neg]
    rw [blank_word (gap.blank d (found ▸ List.mem_cons_self))]
    nofun

theorem nameAt_after (gap : Gap) (ident : Ident) {t : List Char} (stops : Stops t) :
    nameAt classes (ident.text ++ (gap.text ++ t)) = nameAt classes ident.text := by
  obtain ⟨c, cs, shape⟩ := List.exists_cons_of_ne_nil ident.ne_nil
  have same : (cs ++ (gap.text ++ t)).takeWhile classes.word = cs.takeWhile classes.word := by
    rw [List.takeWhile_append, after_word gap stops, List.append_nil]
    split
    next all => exact (List.takeWhile_prefix _).eq_of_length all |>.symm
    next => rfl
  rw [shape, List.cons_append, nameAt, nameAt, same]

theorem trimStart_solid {t : List Char} (solid : isWhitespace c = false) :
    trimStart (c :: t) = c :: t := by
  rw [trimStart, List.dropWhile_cons_of_neg]
  rw [solid]
  exact Bool.false_ne_true

theorem Stops.trimStart_eq {t : List Char} (stops : Stops t) : trimStart t = t := by
  rcases stops with rfl | ⟨c, rest, rfl, rfl | rfl⟩
  · rfl
  · exact trimStart_solid (by decide)
  · exact trimStart_solid (by decide)

theorem nameAt_stops {t : List Char} (stops : Stops t) : nameAt classes (trimStart t) = none := by
  rw [stops.trimStart_eq]
  rcases stops with rfl | ⟨c, rest, rfl, stop⟩
  · rfl
  · rw [nameAt, stop_word stop]
    rfl

def Head.seen (classes : WordClasses) (head : Head) : Option (List Char) :=
  head.binds.bind (nameAt classes)

theorem Gap.trimStart_eq (gap : Gap) {c : Char} (solid : isWhitespace c = false) (t : List Char) :
    trimStart (gap.text ++ c :: t) = c :: t :=
  trimStart_append gap.white solid

theorem Gap.trimStart_append (gap : Gap) (t : List Char) :
    trimStart (gap.text ++ t) = trimStart t := by
  rw [trimStart, List.dropWhile_append_of_pos gap.white, trimStart]

theorem dropStars {t : List Char} (other : ∀ c ∈ t.head?, c ≠ '*') (stars : List Char)
    (all : ∀ c ∈ stars, c = '*') : (stars ++ t).dropWhile (· == '*') = t := by
  rw [List.dropWhile_append_of_pos (fun c mem => beq_iff_eq.mpr (all c mem))]
  cases t with
  | nil => rfl
  | cons c t =>
    rw [List.dropWhile_cons_of_neg]
    rw [beq_iff_eq]
    exact other c rfl

theorem Gap.no_star (gap : Gap) {t : List Char} (other : ∀ c ∈ t.head?, c ≠ '*') :
    ∀ c ∈ (gap.text ++ t).head?, c ≠ '*' := by
  cases found : gap.text with
  | nil => exact other
  | cons d rest =>
    rintro c ⟨⟩
    exact (blank_facts (gap.blank d (found ▸ List.mem_cons_self))).2.2

theorem Stops.no_star {t : List Char} (stops : Stops t) : ∀ c ∈ t.head?, c ≠ '*' := by
  rcases stops with rfl | ⟨c, rest, rfl, rfl | rfl⟩
  · nofun
  · rintro _ ⟨⟩
    decide
  · rintro _ ⟨⟩
    decide

theorem Head.ended (head : Head) (after : Gap) :
    Ended classes (head.text ++ after.text) (head.seen classes) := by
  intro t stops
  rw [pieceName, List.append_assoc]
  cases head with
  | slash before =>
    have solid : isWhitespace '/' = false := by decide
    have word : classes.word '/' = false := (classes.word_ascii _ (by decide)).trans (by decide)
    rw [Head.text, List.append_assoc, List.singleton_append, before.trimStart_eq solid,
      List.dropWhile_cons_of_neg (by decide), trimStart_solid solid, nameAt, word]
    rfl
  | star before =>
    have solid : isWhitespace '*' = false := by decide
    rw [Head.text, List.append_assoc, List.singleton_append, before.trimStart_eq solid,
      ← List.singleton_append, dropStars (after.no_star stops.no_star) ['*'] (by simp),
      after.trimStart_append]
    exact nameAt_stops stops
  | name before stars between ident =>
    obtain ⟨c, cs, shape⟩ := List.exists_cons_of_ne_nil ident.ne_nil
    obtain ⟨solid, _, other⟩ := ident_facts (ident.chars c (shape ▸ List.mem_cons_self))
    have reads (u : List Char) (same : trimStart u = ident.text ++ (after.text ++ t)) :
        nameAt classes (trimStart u) = (Head.name before stars between ident).seen classes := by
      rw [same, nameAt_after after ident stops]
      rfl
    have name_first : trimStart (between.text ++ (ident.text ++ (after.text ++ t))) =
        ident.text ++ (after.text ++ t) := by
      rw [shape, List.cons_append, between.trimStart_eq solid]
    have no_star : ∀ d ∈ (ident.text ++ (after.text ++ t)).head?, d ≠ '*' := by
      rw [shape]
      rintro _ ⟨⟩
      exact other
    rw [Head.text]
    simp only [List.append_assoc]
    have star : isWhitespace '*' = false := by decide
    cases stars with
    | none =>
      have solo := dropStars no_star [] (by simp)
      rw [Stars.text, List.nil_append, before.trimStart_append, name_first, ← List.nil_append ident.text,
        List.append_assoc, solo]
      apply reads
      rw [shape, List.cons_append, trimStart_solid solid]
    | args =>
      have one := dropStars (between.no_star no_star) ['*'] (by simp)
      rw [Stars.text, before.trimStart_append, List.singleton_append, trimStart_solid star,
        ← List.singleton_append, one]
      exact reads _ name_first
    | kwargs =>
      have two := dropStars (between.no_star no_star) ['*', '*'] (by simp)
      rw [Stars.text, before.trimStart_append, List.cons_append, trimStart_solid star,
        ← List.cons_append, two]
      exact reads _ name_first

theorem Head.plain (head : Head) : ∀ c ∈ head.text, isPlain c = true := by
  intro c mem
  cases head with
  | slash before =>
    rcases mem_snoc.mp mem with gap | sign
    · exact before.plain c gap
    · rw [sign]
      decide
  | star before =>
    rcases mem_snoc.mp mem with gap | sign
    · exact before.plain c gap
    · rw [sign]
      decide
  | name before stars between ident =>
    rw [Head.text, List.mem_append, List.mem_append, List.mem_append] at mem
    rcases mem with ((gap | sign) | gap) | inside
    · exact before.plain c gap
    · have star : c = '*' := by
        cases stars with
        | none => cases sign
        | args => exact List.mem_singleton.mp sign
        | kwargs => simpa [Stars.text] using sign
      rw [star]
      decide
    · exact between.plain c gap
    · exact (ident_facts (ident.chars c inside)).2.1

theorem Passes.head (head : Head) (after : Gap) :
    Passes classes Fresh Ended (head.text ++ after.text) (head.seen classes).toList := by
  rintro _ _ ⟨rfl, rfl⟩
  have plain : ∀ c ∈ head.text ++ after.text, isPlain c = true := by
    intro c mem
    rcases List.mem_append.mp mem with inside | gap
    · exact head.plain c inside
    · exact after.plain c gap
  exact ⟨[], head.text ++ after.text, head.seen classes, head.ended after, rfl,
    pieceNames_chars plain []⟩

theorem Passes.gap (gap : Gap) : Passes classes Fresh Ended gap.text [] := by
  rintro _ _ ⟨rfl, rfl⟩
  refine ⟨[], gap.text, none, fun t stops => ?_, rfl, pieceNames_chars gap.plain []⟩
  have first := dropStars stops.no_star [] (by simp)
  rw [pieceName, gap.trimStart_append, stops.trimStart_eq, ← List.nil_append t, first]
  exact nameAt_stops stops

theorem Passes.comma_gap (gap : Gap) : Passes classes Ended Ended (',' :: gap.text) [] :=
  Passes.comma.append (.gap gap)

theorem Passes.comma_head (head : Head) (after : Gap) :
    Passes classes Ended Ended (',' :: (head.text ++ after.text)) (head.seen classes).toList :=
  Passes.comma.append (.head head after)

theorem Passes.signed (sign : c = ':' ∨ c = '=') {text : List Char} {names : List (List Char)}
    (expr : Passes classes Fixed Fixed text names) :
    Passes classes Ended Ended (c :: text) names := by
  have whole := ((Passes.stop sign).append expr).append .ended
  rwa [List.append_nil, List.append_nil] at whole

mutual

def Expr.extras (classes : WordClasses) : Expr → List (List Char)
  | .done => []
  | .char _ _ rest => rest.extras classes
  | .group _ _ rest => rest.extras classes
  | .lambda _ params rest => params.extras classes ++ rest.extras classes

def Lambda.extras (classes : WordClasses) : Lambda → List (List Char)
  | .done | .comma _ => []
  | .bare _ _ more => more.laterExtras classes
  | .valued _ _ value more => value.extras classes ++ more.laterExtras classes

def Lambda.laterExtras (classes : WordClasses) : Lambda → List (List Char)
  | .done | .comma _ => []
  | .bare head _ more => (head.seen classes).toList ++ more.laterExtras classes
  | .valued head _ value more =>
    (head.seen classes).toList ++ (value.extras classes ++ more.laterExtras classes)

end

theorem lambda_plain : ∀ c ∈ lambdaKeyword, isPlain c = true := by decide +kernel

theorem Passes.keyword (gap : Gap) :
    Passes classes Fixed Fixed (lambdaKeyword ++ gap.text) [] := by
  apply Passes.chars
  intro c mem
  rcases List.mem_append.mp mem with letter | blank
  · exact lambda_plain c letter
  · exact gap.plain c blank

mutual

theorem Passes.expr : (e : Expr) → Passes classes Fixed Fixed e.text (e.extras classes)
  | .done => .nil
  | .char c plain rest => by
    have first : Passes classes Fixed Fixed [c] [] := .chars (by simp [plain])
    exact first.append (Passes.expr rest)
  | .group kind inner rest => by
    have both := (Passes.group kind inner).append (Passes.expr rest)
    rwa [List.append_assoc, List.cons_append] at both
  | .lambda gap params rest => by
    have colon : Passes classes Ended Fixed (':' :: rest.text) (rest.extras classes) :=
      (Passes.stop (Or.inl rfl)).append (Passes.expr rest)
    rw [Expr.text, Expr.extras]
    exact ((Passes.keyword gap).append (Passes.lambda params)).append colon

theorem Passes.lambda : (l : Lambda) → Passes classes Fixed Ended l.text (l.extras classes)
  | .done => .ended
  | .comma gap => Passes.ended.append (.comma_gap gap)
  | .bare head after more => by
    rw [Lambda.text, Lambda.extras]
    have whole := (((Passes.chars head.plain).append
      (.chars after.plain)).append .ended).append (Passes.later more)
    simpa only [List.append_assoc, List.nil_append, List.cons_append] using whole
  | .valued head after value more => by
    rw [Lambda.text, Lambda.extras]
    have whole := ((((Passes.chars head.plain).append
      (.chars after.plain)).append .ended).append (.signed (Or.inr rfl) (Passes.expr value))).append
      (Passes.later more)
    simpa only [List.append_assoc, List.nil_append, List.cons_append] using whole

theorem Passes.later : (l : Lambda) →
    Passes classes Ended Ended l.laterText (l.laterExtras classes)
  | .done => .nil
  | .comma gap => .comma_gap gap
  | .bare head after more => by
    rw [Lambda.laterText, Lambda.laterExtras]
    have whole := (Passes.comma_head head after).append (Passes.later more)
    simpa only [List.append_assoc, List.cons_append] using whole
  | .valued head after value more => by
    rw [Lambda.laterText, Lambda.laterExtras]
    have whole := ((Passes.comma_head head after).append
      (.signed (Or.inr rfl) (Passes.expr value))).append (Passes.later more)
    simpa only [List.append_assoc, List.cons_append] using whole

end

def optionExtras (classes : WordClasses) (e : Option Expr) : List (List Char) :=
  (e.map fun e => e.extras classes).getD []

def Param.gives (classes : WordClasses) (p : Param) : List (List Char) :=
  (p.head.seen classes).toList ++
    (optionExtras classes p.annotation ++ optionExtras classes p.default)

theorem Passes.option (sign : c = ':' ∨ c = '=') (e : Option Expr) :
    Passes classes Ended Ended ((e.map fun e => c :: e.text).getD []) (optionExtras classes e) := by
  cases e with
  | none => exact .nil
  | some e => exact .signed sign (.expr e)

theorem Passes.param (p : Param) : Passes classes Fresh Ended p.text (p.gives classes) := by
  have options : Passes classes Ended Ended _ _ :=
    (Passes.option (Or.inl rfl) p.annotation).append (.option (Or.inr rfl) p.default)
  have whole := (Passes.head p.head p.after).append options
  rw [List.append_assoc] at whole
  exact whole

theorem Passes.params (params : Params) :
    Passes classes Fresh Ended params.text (params.list.flatMap (Param.gives classes)) := by
  cases params with
  | empty gap => exact .gap gap
  | some first more comma =>
    have others : Passes classes Ended Ended (more.flatMap fun p => ',' :: p.text)
        (more.flatMap (Param.gives classes)) := by
      induction more with
      | nil => exact .nil
      | cons p more ih => exact (Passes.comma.append (.param p)).append ih
    have last : Passes classes Ended Ended ((comma.map fun gap => ',' :: gap.text).getD []) [] := by
      cases comma with
      | none => exact .nil
      | some gap => exact .comma_gap gap
    have whole := ((Passes.param first).append others).append last
    rw [List.append_nil] at whole
    exact whole

theorem pythonParamNames_params (params : Params) :
    pythonParamNames classes params.text = params.list.flatMap (Param.gives classes) := by
  obtain ⟨given, cur, name, ended, adds, reads⟩ := Passes.params params [] none ⟨rfl, rfl⟩
  have last : pieceName classes cur = name := by
    rw [← ended [] (Or.inl rfl), List.append_nil]
  have all := reads []
  rw [List.append_nil] at all
  rw [pythonParamNames_eq, all, pieceNames, pieces, if_pos rfl, List.filterMap_cons, last]
  rw [Option.toList_none, List.nil_append] at adds
  rw [← adds]
  cases name with
  | none => rfl
  | some name => rfl

end CodeGraph.Resolution.PythonParams
