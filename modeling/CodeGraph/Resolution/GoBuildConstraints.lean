import CodeGraph.Resolution.GoBuildGrammar

/-!
# Constraints are read as their grammar says

Both readers against what is written: an expression is a word of the grammar, spelled as the text,
and options are words of the text. Expressions outside ASCII are a panic.
-/
namespace CodeGraph.Resolution.GoBuild

open Text AsciiBytes RustText

def Expression (text : String) (φ : Meaning) : Prop :=
  ∃ toks, Spelling toks text.toList ∧ Reads .or toks φ

/-- What a reader has to return: an expression just for the texts that are one, and with their
meaning for every target. -/
def ReadAs (r : Option (Option BuildExpr)) (is : Meaning → Prop) : Prop :=
  ∃ result, r = some result ∧ (result.isSome = true ↔ ∃ φ, is φ) ∧
    ∀ e φ, result = some e → is φ → ∀ t, e.holds t = φ fun tag => goTagHolds tag t

private theorem buildTokens_eq (text : String) :
    buildTokens text = lexFrom ((utf8 text).length + 1) text.toList :=
  tokensFrom_eq (List.nil_append text.toList).symm _

private theorem room (text : String) : text.toList.length < (utf8 text).length + 1 := by
  rw [utf8]
  induction text.toList with
  | nil => exact Nat.zero_lt_one
  | cons c cs ih =>
    have positive := List.length_pos_of_ne_nil (String.utf8EncodeChar_ne_nil (c := c))
    rw [List.flatMap_cons, List.length_append, List.length_cons]
    omega

private theorem buildTokens_isSome (text : String) :
    (buildTokens text).isSome = true ↔ ∀ c ∈ text.toList, IsAscii c := by
  rw [buildTokens_eq]
  exact lexFrom_isSome (room text)

private theorem read_expression {text : String} {toks : List String}
    (lexed : buildTokens text = some toks) : ReadAs (goParseBuildExpr text) (Expression text) := by
  have found : ∀ φ, Expression text φ ↔ Spelling toks text.toList ∧ Reads .or toks φ := by
    intro φ
    constructor
    · rintro ⟨others, spelled, reads⟩
      have same := lexFrom_of_spelling spelled (room text)
      rw [← buildTokens_eq, lexed] at same
      cases same
      exact ⟨spelled, reads⟩
    · rintro ⟨spelled, reads⟩
      exact ⟨toks, spelled, reads⟩
  have whole : ∀ {e}, parseOr (4 * toks.length + 3) toks = .ok (e, []) → Expression text e.means := by
    intro e ran
    obtain ⟨w, split, reads⟩ := parseOr_sound ran
    rw [List.append_nil] at split
    subst split
    rw [buildTokens_eq] at lexed
    exact ⟨toks, spelling_of_lexFrom lexed reads.legal, reads⟩
  have none_ : (∀ e, parseOr (4 * toks.length + 3) toks ≠ .ok (e, [])) → ¬∃ φ, Expression text φ := by
    rintro other ⟨φ, reads⟩
    obtain ⟨e, _, ran⟩ := parseOr_complete ((found φ).mp reads).2
    exact other e ran
  rw [goParseBuildExpr, lexed, Option.bind_some]
  cases ran : parseOr (4 * toks.length + 3) toks with
  | error halt =>
    cases halt with
    | fuel => exact absurd ran (parseOr_ends toks)
    | rejected =>
      refine ⟨none, rfl, iff_of_false Bool.false_ne_true (none_ fun e ok => ?_), ?_⟩
      · rw [ran] at ok
        cases ok
      · intro e φ result
        cases result
  | ok r =>
    obtain ⟨e, rest⟩ := r
    by_cases all : rest = []
    · subst all
      refine ⟨some e, by simp, iff_of_true rfl ⟨_, whole ran⟩, ?_⟩
      intro e' φ result is t
      cases result
      obtain ⟨f, means, ran'⟩ := parseOr_complete ((found φ).mp is).2
      rw [ran] at ran'
      cases ran'
      rw [BuildExpr.holds_eq, means]
    · refine ⟨none, by simp [all], iff_of_false Bool.false_ne_true (none_ fun e' ok => ?_), ?_⟩
      · rw [ran] at ok
        cases ok
        exact all rfl
      · intro e' φ result
        cases result

/-! ### Options -/

def termText : Bool × String → List Char
  | (neg, tag) => if neg then '!' :: tag.toList else tag.toList

def optionText (terms : List (Bool × String)) : List Char := [','].intercalate (terms.map termText)

def Options (text : String) (φ : Meaning) : Prop :=
  ∃ options : List (List (Bool × String)), options ≠ [] ∧
    (∀ option ∈ options, option ≠ [] ∧ ∀ term ∈ option, Tag term.2) ∧
    Words.Spaced isWhitespace (options.map optionText) text.toList ∧
    φ = fun h => options.any fun option => option.all fun term => h term.2 != term.1

private theorem mapM_eq_some {α β : Type} {f : α → Option β} {g : β → α} {P : β → Prop}
    (inverse : ∀ x y, f x = some y ↔ x = g y ∧ P y) {xs : List α} {ys : List β} :
    xs.mapM f = some ys ↔ xs = ys.map g ∧ ∀ y ∈ ys, P y := by
  induction xs generalizing ys with
  | nil =>
    rw [List.mapM_nil]
    constructor
    · intro same
      cases same
      exact ⟨rfl, fun _ listed => nomatch listed⟩
    · rintro ⟨none_, _⟩
      rw [List.map_eq_nil_iff.mp none_.symm]
      rfl
  | cons x xs ih =>
    rw [List.mapM_cons]
    simp only [Option.bind_eq_bind, Option.bind_eq_some_iff, Option.pure_def, Option.some.injEq,
      inverse, ih]
    constructor
    · rintro ⟨y, ⟨rfl, here⟩, ys, ⟨rfl, later⟩, rfl⟩
      refine ⟨rfl, ?_⟩
      rw [List.forall_mem_cons]
      exact ⟨here, later⟩
    · rintro ⟨split, all⟩
      cases ys with
      | nil => cases split
      | cons y ys =>
        rw [List.map_cons, List.cons.injEq] at split
        rw [List.forall_mem_cons] at all
        exact ⟨y, ⟨split.1, all.1⟩, ys, ⟨split.2, all.2⟩, rfl⟩

private theorem bang_not_tag {tag : String} (tagged : Tag tag) : '!' ∉ tag.toList := fun listed =>
  absurd (tagged.2 '!' listed) (by decide)

private theorem plusTerm_eq (text : List Char) (term : Bool × String) :
    plusTerm text = some term ↔ text = termText term ∧ Tag term.2 := by
  obtain ⟨neg, tag⟩ := term
  have plain : ∀ cs : List Char, (if isTag (String.ofList cs) then
      some (false, String.ofList cs) else none) = some (neg, tag) ↔
        neg = false ∧ cs = tag.toList ∧ Tag tag := by
    intro cs
    rw [Option.ite_none_right_eq_some, Option.some.injEq, Prod.mk.injEq, isTag_iff]
    constructor
    · rintro ⟨tagged, rfl, rfl⟩
      exact ⟨rfl, String.toList_ofList.symm, tagged⟩
    · rintro ⟨rfl, rfl, tagged⟩
      rw [String.ofList_toList]
      exact ⟨tagged, rfl, rfl⟩
  by_cases bang : text.head? = some '!'
  · obtain ⟨rest, rfl⟩ : ∃ rest, text = '!' :: rest := by
      cases text with
      | nil => cases bang
      | cons c rest => exact ⟨rest, congrArg (· :: rest) (Option.some.inj bang)⟩
    simp only [plusTerm, termText]
    rw [Option.ite_none_right_eq_some, Option.some.injEq, Prod.mk.injEq, isTag_iff]
    constructor
    · rintro ⟨tagged, rfl, rfl⟩
      exact ⟨by rw [if_pos rfl, String.toList_ofList], tagged⟩
    · rintro ⟨same, tagged⟩
      cases neg with
      | true =>
        rw [if_pos rfl, List.cons.injEq] at same
        rw [same.2, String.ofList_toList]
        rw [same.2] at same
        exact ⟨tagged, rfl, rfl⟩
      | false =>
        rw [if_neg Bool.false_ne_true] at same
        exact absurd (same ▸ List.mem_cons_self) (bang_not_tag tagged)
  · have read : plusTerm text = if isTag (String.ofList text) then
        some (false, String.ofList text) else none := by
      rw [plusTerm]
      intro rest same
      exact bang (congrArg List.head? same)
    rw [read, plain, termText]
    constructor
    · rintro ⟨rfl, rfl, tagged⟩
      exact ⟨rfl, tagged⟩
    · rintro ⟨same, tagged⟩
      cases neg with
      | true => exact absurd (congrArg List.head? same) bang
      | false => exact ⟨rfl, same, tagged⟩

private theorem option_eq (text : List Char) (terms : List (Bool × String)) :
    (text.splitOn ',').mapM plusTerm = some terms ↔
      text = optionText terms ∧ terms ≠ [] ∧ ∀ term ∈ terms, Tag term.2 := by
  rw [mapM_eq_some plusTerm_eq, optionText]
  constructor
  · rintro ⟨split, tagged⟩
    refine ⟨?_, ?_, tagged⟩
    · rw [← split, List.intercalate_splitOn]
    · rintro rfl
      exact List.splitOn_ne_nil ',' text split
  · rintro ⟨rfl, some_, tagged⟩
    refine ⟨List.splitOn_intercalate ',' ?_ (by simpa using some_), tagged⟩
    intro part listed comma
    obtain ⟨⟨neg, tag⟩, member, rfl⟩ := List.mem_map.mp listed
    have plain : ',' ∉ tag.toList := fun here =>
      absurd ((tagged _ member).2 ',' here) (by decide)
    cases neg with
    | true =>
      rcases List.mem_cons.mp comma with same | here
      · exact absurd same (by decide)
      · exact plain here
    | false => exact plain comma

private theorem plusLiteral_means (term : Bool × String) :
    (plusLiteral term).means = fun h => h term.2 != term.1 := by
  obtain ⟨neg, tag⟩ := term
  cases neg <;> funext h <;> simp [plusLiteral, BuildExpr.means]

private theorem plusOption_means {option : List (Bool × String)} (some_ : option ≠ []) :
    ∃ e, plusOption option = some e ∧
      e.means = fun h => option.all fun term => h term.2 != term.1 := by
  have folded : ∀ (terms : List (Bool × String)) (acc : BuildExpr),
      (terms.foldl (fun acc term => .and acc (plusLiteral term)) acc).means =
        fun h => acc.means h && terms.all fun term => h term.2 != term.1 := by
    intro terms
    induction terms with
    | nil => exact fun acc => funext fun h => (Bool.and_true _).symm
    | cons term terms ih =>
      intro acc
      simp only [List.foldl_cons, ih, BuildExpr.means, plusLiteral_means, List.all_cons,
        Bool.and_assoc]
  cases option with
  | nil => exact absurd rfl some_
  | cons first terms =>
    refine ⟨_, rfl, funext fun h => ?_⟩
    rw [folded, plusLiteral_means, List.all_cons]

private theorem plusOptions_means {options : List (List (Bool × String))}
    (some_ : ∀ option ∈ options, option ≠ []) (acc : BuildExpr) :
    ∃ e, options.foldlM (fun acc option => (plusOption option).map (.or acc ·)) acc = some e ∧
      e.means = fun h => acc.means h || options.any fun option =>
        option.all fun term => h term.2 != term.1 := by
  induction options generalizing acc with
  | nil => exact ⟨acc, rfl, funext fun h => (Bool.or_false _).symm⟩
  | cons option options ih =>
    obtain ⟨right, built, means⟩ := plusOption_means (some_ option List.mem_cons_self)
    obtain ⟨e, later, all⟩ := ih (fun other listed => some_ other (List.mem_cons_of_mem _ listed))
      (.or acc right)
    refine ⟨e, ?_, funext fun h => ?_⟩
    · rw [List.foldlM_cons, built]
      exact later
    · simp only [all, BuildExpr.means, means, List.any_cons, Bool.or_assoc]

theorem read_options (text : String) : ReadAs (goParsePlusBuild text) (Options text) := by
  have words : ∀ options, (splitWhitespace text.toList).mapM
      (fun option => (option.splitOn ',').mapM plusTerm) = some options ↔
        Words.Spaced isWhitespace (options.map optionText) text.toList ∧
          ∀ option ∈ options, option ≠ [] ∧ ∀ term ∈ option, Tag term.2 := by
    intro options
    rw [mapM_eq_some option_eq, Words.spaced_iff, splitWhitespace]
  rw [goParsePlusBuild]
  cases read : (splitWhitespace text.toList).mapM fun option => (option.splitOn ',').mapM plusTerm with
  | none =>
    refine ⟨none, rfl, iff_of_false Bool.false_ne_true ?_, fun e φ result => nomatch result⟩
    rintro ⟨φ, options, _, tagged, spaced, _⟩
    have found := (words options).mpr ⟨spaced, tagged⟩
    rw [read] at found
    cases found
  | some options =>
    obtain ⟨spaced, tagged⟩ := (words options).mp read
    have only : ∀ φ, Options text φ → options ≠ [] ∧
        φ = fun h => options.any fun option => option.all fun term => h term.2 != term.1 := by
      rintro φ ⟨others, some_, tagged', spaced', rfl⟩
      have found := (words others).mpr ⟨spaced', tagged'⟩
      rw [read] at found
      cases found
      exact ⟨some_, rfl⟩
    cases options with
    | nil =>
      refine ⟨none, rfl, iff_of_false Bool.false_ne_true ?_, fun e φ result => nomatch result⟩
      rintro ⟨φ, is⟩
      exact (only φ is).1 rfl
    | cons first options =>
      obtain ⟨acc, built, means⟩ := plusOption_means (tagged first List.mem_cons_self).1
      obtain ⟨e, later, all⟩ := plusOptions_means
        (fun option listed => (tagged option (List.mem_cons_of_mem _ listed)).1) acc
      dsimp only
      rw [built, Option.bind_some, later, Option.map_some]
      refine ⟨some e, rfl, iff_of_true rfl
        ⟨_, first :: options, List.cons_ne_nil _ _, tagged, spaced, rfl⟩, ?_⟩
      intro e' φ result is t
      cases result
      simp only [(only φ is).2, BuildExpr.holds_eq, all, means, List.any_cons]

/-- Both readers read a text as their grammars say just when the text is ASCII: outside it, the
scanner of expressions cuts a character. -/
theorem go_constraints_read (text : String) :
    (ReadAs (goParseBuildExpr text) (Expression text) ∧
      ReadAs (goParsePlusBuild text) (Options text)) ↔ ∀ c ∈ text.toList, IsAscii c := by
  rw [and_iff_left (read_options text), ← buildTokens_isSome]
  constructor
  · rintro ⟨result, returned, _⟩
    rw [goParseBuildExpr, Option.bind_eq_some_iff] at returned
    obtain ⟨toks, lexed, _⟩ := returned
    rw [lexed]
    rfl
  · intro lexed
    obtain ⟨toks, tokens⟩ := Option.isSome_iff_exists.mp lexed
    exact read_expression tokens

/-- A letter outside ASCII after a tag is a panic. -/
theorem accented_tag_panics : ¬ReadAs (goParseBuildExpr "unixé") (Expression "unixé") := by
  rintro ⟨result, returned, _⟩
  have panics : goParseBuildExpr "unixé" = none := by decide +kernel
  rw [panics] at returned
  cases returned

end CodeGraph.Resolution.GoBuild
