import CodeGraph.Resolution.PythonParamsExact

/-!
# Where the parameters of a header stand

The pattern for the start of a header finds its parameter list unless it cannot read the name or
stops at a square bracket inside the type parameters.
-/
namespace CodeGraph.Resolution.PythonParams

open RustText

variable {classes : WordClasses} {c : Char}

/-! ### The closing bracket -/

/-- A text that leaves the depth as it is, and does not come back to zero within. -/
def Level (text : List Char) : Prop :=
  ∀ depth rest, closeAt (depth + 1) (text ++ rest) =
    (closeAt (depth + 1) rest).map (· + text.length)

theorem Level.nil : Level [] := by
  intro depth rest
  rw [List.nil_append]
  cases closeAt (depth + 1) rest with
  | none => rfl
  | some n => rfl

theorem Level.append {s t : List Char} (first : Level s) (second : Level t) : Level (s ++ t) := by
  intro depth rest
  rw [List.append_assoc, first, second, Option.map_map, List.length_append]
  congr 1
  funext n
  simp only [Function.comp_apply]
  omega

theorem Level.char (open_ : isOpen c = false) (close : isClose c = false) : Level [c] := by
  intro depth rest
  rw [List.singleton_append, closeAt]
  simp [open_, close]

theorem Level.chars {text : List Char} (plain : ∀ c ∈ text, isPlain c = true) : Level text := by
  induction text with
  | nil => exact .nil
  | cons c text ih =>
    have here := plain c List.mem_cons_self
    rw [isPlain, Bool.and_eq_true, Bool.and_eq_true, Bool.not_eq_true', Bool.not_eq_true'] at here
    exact (Level.char here.1.1 here.1.2).append (ih fun d mem => plain d (List.mem_cons_of_mem c mem))

theorem Level.group (kind : Bracket) {text : List Char} (level : Level text) :
    Level (kind.open_ :: text ++ [kind.close]) := by
  obtain ⟨opens, other, closes⟩ := kind.signs
  intro depth rest
  have leave : closeAt (depth + 1 + 1) (kind.close :: rest) =
      (closeAt (depth + 1) rest).map (· + 1) := by
    rw [closeAt, if_neg (by rw [other]; nofun), if_pos closes, Nat.add_sub_cancel,
      if_neg (Nat.succ_ne_zero depth)]
  simp only [List.cons_append, List.append_assoc, List.nil_append]
  rw [closeAt, if_pos opens, level, leave, Option.map_map, Option.map_map]
  congr 1
  funext n
  simp
  omega

theorem Balanced.level : (b : Balanced) → Level b.text
  | .done => .nil
  | .char c other rest =>
    (Level.char (Bool.or_eq_false_iff.mp other).1 (Bool.or_eq_false_iff.mp other).2).append rest.level
  | .group kind inner rest => by
    have whole := (Level.group kind inner.level).append rest.level
    rwa [List.append_assoc, List.cons_append] at whole

mutual

theorem Expr.level : (e : Expr) → Level e.text
  | .done => .nil
  | .char c plain rest => (Level.chars (by simp [plain]) : Level [c]).append rest.level
  | .group kind inner rest => by
    have whole := (Level.group kind inner.level).append rest.level
    rwa [List.append_assoc, List.cons_append] at whole
  | .lambda gap params rest => by
    have colon : Level (':' :: rest.text) := (Level.char rfl rfl).append rest.level
    rw [Expr.text]
    exact (((Level.chars lambda_plain).append (.chars gap.plain)).append params.level).append colon

theorem Lambda.level : (l : Lambda) → Level l.text
  | .done => .nil
  | .comma gap => (Level.char rfl rfl).append (.chars gap.plain)
  | .bare head after more => by
    rw [Lambda.text]
    exact ((Level.chars head.plain).append (.chars after.plain)).append more.laterLevel
  | .valued head after value more => by
    have signed : Level ('=' :: value.text) := (Level.char rfl rfl).append value.level
    rw [Lambda.text]
    have whole := (((Level.chars head.plain).append (.chars after.plain)).append signed).append
      more.laterLevel
    simpa only [List.append_assoc, List.cons_append] using whole

theorem Lambda.laterLevel : (l : Lambda) → Level l.laterText
  | .done => .nil
  | .comma gap => (Level.char rfl rfl).append (.chars gap.plain)
  | .bare head after more => by
    rw [Lambda.laterText]
    exact (Level.char rfl rfl).append
      (((Level.chars head.plain).append (.chars after.plain)).append more.laterLevel)
  | .valued head after value more => by
    have signed : Level ('=' :: value.text) := (Level.char rfl rfl).append value.level
    rw [Lambda.laterText]
    have whole := (Level.char rfl rfl : Level [',']).append
      ((((Level.chars head.plain).append (.chars after.plain)).append signed).append more.laterLevel)
    simpa only [List.append_assoc, List.cons_append, List.nil_append] using whole

end

theorem Level.option (sign : Level [c]) (e : Option Expr) :
    Level ((e.map fun e => c :: e.text).getD []) := by
  cases e with
  | none => exact .nil
  | some e => exact sign.append e.level

theorem Param.level (p : Param) : Level p.text :=
  (Level.chars p.head.plain).append ((Level.chars p.after.plain).append
    ((Level.option (.char rfl rfl) p.annotation).append (.option (.char rfl rfl) p.default)))

theorem Params.level (params : Params) : Level params.text := by
  cases params with
  | empty gap => exact .chars gap.plain
  | some first more comma =>
    have others : Level (more.flatMap fun p => ',' :: p.text) := by
      induction more with
      | nil => exact .nil
      | cons p more ih => exact ((Level.char rfl rfl : Level [',']).append p.level).append ih
    have last : Level ((comma.map fun gap => ',' :: gap.text).getD []) := by
      cases comma with
      | none => exact .nil
      | some gap => exact (Level.char rfl rfl : Level [',']).append (.chars gap.plain)
    exact (first.level.append others).append last

theorem closeAt_params (params : Params) (rest : List Char) :
    closeAt 1 (params.text ++ ')' :: rest) = some params.text.length := by
  have here : closeAt (0 + 1) (')' :: rest) = some 0 := rfl
  rw [params.level 0 (')' :: rest), here, Option.map_some, Nat.zero_add]

/-! ### The pattern -/

theorem spaces1_gap {gap : Gap} (some_ : gap.text ≠ []) (solid : isWhitespace c = false)
    (t : List Char) : spaces1 (gap.text ++ c :: t) = some (c :: t) := by
  obtain ⟨d, rest, shape⟩ := List.exists_cons_of_ne_nil some_
  have blank := gap.white d (shape ▸ List.mem_cons_self)
  rw [shape, List.cons_append, spaces1, if_pos blank]
  congr 1
  exact RustText.trimStart_append (fun e mem => gap.white e (shape ▸ List.mem_cons_of_mem d mem)) solid

theorem async_letters : "async".toList = ['a', 's', 'y', 'n', 'c'] := by decide +kernel

theorem def_letters : "def".toList = ['d', 'e', 'f'] := by decide +kernel

/-- The start of a header up to the blanks after `def`. -/
theorem skipAsync_def (h : Header) (t : List Char) :
    skipAsync (trimStart (h.indent.text ++ ((h.async.map fun gap => "async".toList ++ gap.text).getD [] ++
      ("def".toList ++ t)))) = "def".toList ++ t := by
  cases found : h.async with
  | none =>
    rw [Option.map_none, Option.getD_none, List.nil_append, def_letters, List.cons_append,
      h.indent.trimStart_eq (by decide), skipAsync, stripPrefix, async_letters]
    rfl
  | some gap =>
    have spaced := h.afterAsync gap found
    have strip (u : List Char) : stripPrefix "async".toList ("async".toList ++ u) = some u :=
      stripPrefix_append
    have first : trimStart ("async".toList ++ (gap.text ++ ("def".toList ++ t))) =
        "async".toList ++ (gap.text ++ ("def".toList ++ t)) := by
      rw [async_letters]
      exact trimStart_solid (by decide)
    rw [Option.map_some, Option.getD_some, h.indent.trimStart_append, List.append_assoc, first,
      skipAsync, strip, Option.bind_some, def_letters, List.cons_append, spaces1_gap spaced (by decide)]
    rfl

namespace Header

variable (h : Header)

def list : List Char := h.params.text ++ ')' :: h.rest

def tail : List Char :=
  h.afterName.text ++
    ((h.typeParams.map fun (inner, gap) => '[' :: inner.text ++ ']' :: gap.text).getD [] ++
      '(' :: h.list)

theorem text_eq : h.text = h.indent.text ++
    ((h.async.map fun gap => "async".toList ++ gap.text).getD [] ++
      ("def".toList ++ (h.afterDef.text ++ (h.name.text ++ h.tail)))) := by
  simp only [text, start, tail, list, List.append_assoc, List.cons_append, List.nil_append]

theorem length_text : h.text.length = h.start.length + h.list.length := by
  rw [text, List.append_assoc, List.length_append, list]

theorem tail_word : h.tail.takeWhile classes.word = [] := by
  rw [tail]
  have sign {c : Char} (ascii : c = '[' ∨ c = '(') (t : List Char) :
      (h.afterName.text ++ c :: t).takeWhile classes.word = [] := by
    have other : classes.word c = false := by
      rcases ascii with rfl | rfl
      · exact (classes.word_ascii _ (by decide)).trans (by decide)
      · exact (classes.word_ascii _ (by decide)).trans (by decide)
    cases found : h.afterName.text with
    | nil =>
      rw [List.nil_append, List.takeWhile_cons_of_neg]
      rw [other]
      nofun
    | cons d rest =>
      rw [List.cons_append, List.takeWhile_cons_of_neg]
      rw [blank_word (h.afterName.blank d (found ▸ List.mem_cons_self))]
      nofun
  cases h.typeParams with
  | none => exact sign (Or.inr rfl) h.list
  | some both => exact sign (Or.inl rfl) _

theorem afterOpen_name : afterOpen classes h.text =
    (word1 classes (h.name.text ++ h.tail)).bind fun s =>
      stripPrefix ['('] (trimStart (skipTypeParams (trimStart s))) := by
  obtain ⟨c, cs, shape⟩ := List.exists_cons_of_ne_nil h.name.ne_nil
  have solid := (ident_facts (h.name.chars c (shape ▸ List.mem_cons_self))).1
  have strip (u : List Char) : stripPrefix "def".toList ("def".toList ++ u) = some u :=
    stripPrefix_append
  have gap : spaces1 (h.afterDef.text ++ (h.name.text ++ h.tail)) = some (h.name.text ++ h.tail) := by
    rw [shape, List.cons_append, spaces1_gap h.spaced solid]
  rw [afterOpen, text_eq, skipAsync_def, strip]
  simp only [Option.bind_eq_bind, Option.bind_some, gap]

theorem no_list {d : Char} (solid : isWhitespace d = false) (plain : isPlain d = true)
    (t : List Char) : stripPrefix ['('] (trimStart (skipTypeParams (trimStart (d :: t)))) = none := by
  have round : d ≠ '(' := by
    rintro rfl
    exact absurd plain (by decide)
  have square : d ≠ '[' := by
    rintro rfl
    exact absurd plain (by decide)
  have kept : skipTypeParams (d :: t) = d :: t := by
    rw [skipTypeParams.eq_def]
    split
    next same => exact absurd (List.cons.inj same).1 square
    next => rfl
  rw [trimStart_solid solid, kept, trimStart_solid solid, stripPrefix, if_neg]
  simpa using round.symm

/-- A name that `\w` does not take ends the match. -/
theorem afterOpen_unworded (unworded : ¬h.name.Worded classes) : afterOpen classes h.text = none := by
  rw [afterOpen_name]
  obtain ⟨c, cs, shape⟩ := List.exists_cons_of_ne_nil h.name.ne_nil
  rw [shape, List.cons_append, word1]
  split
  next first =>
    have stops : cs.dropWhile classes.word ≠ [] := by
      intro all
      rw [List.dropWhile_eq_nil_iff] at all
      apply unworded
      intro d mem
      rw [shape] at mem
      rcases List.mem_cons.mp mem with rfl | later
      · exact first
      · exact all d later
    obtain ⟨d, rest, cut⟩ := List.exists_cons_of_ne_nil stops
    have inside : d ∈ cs := (List.dropWhile_sublist _).subset (cut ▸ List.mem_cons_self)
    have chars := h.name.chars d (shape ▸ List.mem_cons_of_mem c inside)
    obtain ⟨solid, plain, _⟩ := ident_facts chars
    have whole : (cs ++ h.tail).dropWhile classes.word = d :: (rest ++ h.tail) := by
      rw [List.dropWhile_append, cut]
      rfl
    rw [Option.bind_some, whole]
    exact no_list solid plain _
  next => rfl

theorem afterOpen_worded (worded : h.name.Worded classes) : afterOpen classes h.text =
    stripPrefix ['('] (trimStart (skipTypeParams (trimStart h.tail))) := by
  obtain ⟨c, cs, shape⟩ := List.exists_cons_of_ne_nil h.name.ne_nil
  have rest : h.tail.dropWhile classes.word = h.tail := by
    have parts := List.takeWhile_append_dropWhile (p := classes.word) (l := h.tail)
    rwa [tail_word, List.nil_append] at parts
  have words (d : Char) (mem : d ∈ c :: cs) : classes.word d = true := worded d (shape ▸ mem)
  rw [afterOpen_name, shape, List.cons_append, word1, if_pos (words c List.mem_cons_self),
    Option.bind_some, List.dropWhile_append_of_pos fun d mem => words d (List.mem_cons_of_mem c mem),
    rest]

theorem afterOpen_list (worded : h.name.Worded classes)
    (single : ∀ typeParams ∈ h.typeParams, ']' ∉ typeParams.1.text) :
    afterOpen classes h.text = some h.list := by
  have round : isWhitespace '(' = false := by decide
  have square : isWhitespace '[' = false := by decide
  rw [afterOpen_worded h worded, tail]
  cases found : h.typeParams with
  | none =>
    rw [Option.map_none, Option.getD_none, List.nil_append, h.afterName.trimStart_eq round]
    have kept : skipTypeParams ('(' :: h.list) = '(' :: h.list := rfl
    rw [kept, trimStart_solid round]
    exact stripPrefix_append
  | some both =>
    obtain ⟨inner, gap⟩ := both
    have free : ∀ c ∈ inner.text, (c != ']') = true := by
      intro c mem
      rw [bne_iff_ne]
      rintro rfl
      exact single _ found mem
    rw [Option.map_some, Option.getD_some]
    simp only [List.cons_append, List.append_assoc]
    rw [h.afterName.trimStart_eq square]
    have skipped : skipTypeParams ('[' :: (inner.text ++ ']' :: (gap.text ++ '(' :: h.list))) =
        gap.text ++ '(' :: h.list := by
      rw [skipTypeParams, List.dropWhile_append_of_pos free]
      rfl
    rw [skipped, gap.trimStart_eq round]
    exact stripPrefix_append

/-- A square bracket inside the type parameters has the match end before the list. -/
theorem afterOpen_early (worded : h.name.Worded classes) {inner : Balanced} {gap : Gap}
    (found : h.typeParams = some (inner, gap)) (nested : ']' ∈ inner.text) {rest : List Char}
    (read : afterOpen classes h.text = some rest) : h.list.length < rest.length := by
  have square : isWhitespace '[' = false := by decide
  have close : isWhitespace ']' = false := by decide
  have stops : inner.text.dropWhile (· != ']') ≠ [] := by
    intro all
    rw [List.dropWhile_eq_nil_iff] at all
    exact absurd (all ']' nested) (by decide)
  obtain ⟨e, b, cut⟩ := List.exists_cons_of_ne_nil stops
  rw [afterOpen_worded h worded, tail, found, Option.map_some, Option.getD_some] at read
  simp only [List.cons_append, List.append_assoc] at read
  rw [h.afterName.trimStart_eq square] at read
  have skipped : skipTypeParams ('[' :: (inner.text ++ ']' :: (gap.text ++ '(' :: h.list))) =
      b ++ ']' :: (gap.text ++ '(' :: h.list) := by
    rw [skipTypeParams, List.dropWhile_append, cut]
    rfl
  have trimmed : trimStart (b ++ ']' :: (gap.text ++ '(' :: h.list)) =
      trimStart b ++ ']' :: (gap.text ++ '(' :: h.list) := by
    rw [trimStart, List.dropWhile_append, ← trimStart]
    split
    next blank => rw [List.isEmpty_iff.mp blank, List.nil_append, ← trimStart, trimStart_solid close]
    next => rfl
  rw [skipped, trimmed] at read
  cases inside : trimStart b with
  | nil =>
    rw [inside] at read
    cases read
  | cons f b' =>
    rw [inside, stripPrefix] at read
    split at read
    next =>
      cases read
      simp
      omega
    next => cases read

theorem pythonDefParams_list (worded : h.name.Worded classes)
    (single : ∀ typeParams ∈ h.typeParams, ']' ∉ typeParams.1.text) :
    pythonDefParams classes h.text = some h.range := by
  have found : closeAt 1 h.list = some h.params.text.length := closeAt_params h.params h.rest
  rw [pythonDefParams, afterOpen_list h worded single]
  simp only [Option.bind_eq_bind, Option.bind_some, found, length_text, Nat.add_sub_cancel]
  rfl

/-- The range is the list's just when the pattern can read the name and the type parameters. -/
theorem pythonDefParams_iff : pythonDefParams classes h.text = some h.range ↔
    h.name.Worded classes ∧ ∀ typeParams ∈ h.typeParams, ']' ∉ typeParams.1.text := by
  constructor
  · intro read
    obtain ⟨rest, opened, read⟩ := Option.bind_eq_some_iff.mp read
    obtain ⟨length, _, same⟩ := Option.bind_eq_some_iff.mp read
    have worded : h.name.Worded classes := by
      by_contra unworded
      rw [afterOpen_unworded h unworded] at opened
      cases opened
    refine ⟨worded, fun (inner, gap) found nested => ?_⟩
    have longer := afterOpen_early h worded found nested opened
    have open_ : h.text.length - rest.length = h.start.length :=
      congrArg Prod.fst (Option.some.inj same)
    have some_ : 0 < h.start.length := by
      simp only [start, List.length_append, List.length_singleton]
      omega
    rw [length_text] at open_
    omega
  · rintro ⟨worded, single⟩
    exact pythonDefParams_list h worded single

theorem slice_range : slice h.text h.range = h.params.text := by
  rw [slice, range, text, List.take_append_of_le_length, List.take_of_length_le, List.drop_left]
  · rw [List.length_append]
  · rw [List.length_append]

/-- The range that is found holds the parameters, and the names that it gives are the bound ones. -/
def ReadsParams (classes : WordClasses) (h : Header) : Prop :=
  pythonDefParams classes h.text = some h.range ∧
    pythonParamNames classes (slice h.text h.range) = h.names

end Header

/-- The parameters of a header are read just when the patterns take its names whole, no square
bracket stands inside its type parameters, and no lambda outside brackets names a parameter after
its first. -/
theorem python_params_read (classes : WordClasses) (h : Header) : h.ReadsParams classes ↔
    (h.name.Worded classes ∧ ∀ typeParams ∈ h.typeParams, ']' ∉ typeParams.1.text) ∧
      ∀ p ∈ h.params.list, p.Readable classes := by
  rw [Header.ReadsParams, Header.pythonDefParams_iff, Header.slice_range, pythonParamNames_params,
    Header.names, gives_eq_iff]

def asciiClasses : WordClasses where
  word c := c.isAlphanum || c == '_'
  digit c := c.isDigit
  word_ascii _ _ := rfl
  digit_ascii _ _ := rfl

/-- `def f(x=lambda a, b: a):` -/
def lambdaHeader : Header where
  indent := ⟨[], nofun⟩
  async := none
  afterAsync := nofun
  afterDef := ⟨[' '], by decide⟩
  spaced := nofun
  name := ⟨['f'], nofun, by decide, by decide⟩
  afterName := ⟨[], nofun⟩
  typeParams := none
  params := .some
    { head := .name ⟨[], nofun⟩ .none ⟨[], nofun⟩ ⟨['x'], nofun, by decide, by decide⟩
      after := ⟨[], nofun⟩
      annotation := none
      default := some (.lambda ⟨[' '], by decide⟩
        (.bare (.name ⟨[], nofun⟩ .none ⟨[], nofun⟩ ⟨['a'], nofun, by decide, by decide⟩) ⟨[], nofun⟩
          (.bare (.name ⟨[' '], by decide⟩ .none ⟨[], nofun⟩ ⟨['b'], nofun, by decide, by decide⟩)
            ⟨[], nofun⟩ .done))
        (.char ' ' rfl (.char 'a' rfl .done))) } [] none
  rest := [':']

/-- The second parameter of a lambda in a default is read as one of the function. -/
theorem lambda_parameter_read : lambdaHeader.text = "def f(x=lambda a, b: a):".toList ∧
    lambdaHeader.names = [['x']] ∧
    pythonDefParams asciiClasses lambdaHeader.text = some lambdaHeader.range ∧
    pythonParamNames asciiClasses (slice lambdaHeader.text lambdaHeader.range) = [['x'], ['b']] := by
  decide +kernel

end CodeGraph.Resolution.PythonParams
