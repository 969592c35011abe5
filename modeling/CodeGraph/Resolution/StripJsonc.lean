import CodeGraph.Foundation.JsonTexts

/-!
# Configs with comments

What is left of a config without its comments and trailing commas (`stripJsonc` of
`resolution/path-aliases.ts`), and the value that is read from it.
-/
namespace CodeGraph.Resolution.StripJsonc

open Text Json JsonTexts

inductive Mode where
  | code | string | line | block

def stripComments : Mode → JsString → JsString
  | _, [] => []
  | .string, ch :: rest =>
    if ch = unit '\\' then
      match rest with
      | [] => [ch]
      | next :: rest => ch :: next :: stripComments .string rest
    else ch :: stripComments (if ch = unit '"' then .code else .string) rest
  | .code, ch :: rest =>
    if ch = unit '"' then ch :: stripComments .string rest
    else
      match rest with
      | [] => [ch]
      | next :: rest =>
        if ch = unit '/' ∧ next = unit '/' then stripComments .line rest
        else if ch = unit '/' ∧ next = unit '*' then stripComments .block rest
        else ch :: stripComments .code (next :: rest)
  | .line, ch :: rest =>
    if ch = unit '\n' then ch :: stripComments .code rest else stripComments .line rest
  | .block, ch :: rest =>
    match rest with
    | [] => []
    | next :: rest =>
      if ch = unit '*' ∧ next = unit '/' then stripComments .code rest
      else stripComments .block (next :: rest)

attribute [grind =] stripComments

def isClosing (u : UInt16) : Bool := u == unit '\x7d' || u == unit ']'

/-- `\s*[}\]]` -/
def closes (s : JsString) : Bool := (s.dropWhile isWhiteSpace).head?.any isClosing

/-- `out.replace(/,(\s*[}\]])/g, '$1')`: what is kept of a match holds no comma. -/
def dropTrailingCommas : JsString → JsString
  | [] => []
  | u :: s => if u == unit ',' && closes s then dropTrailingCommas s else u :: dropTrailingCommas s

def stripJsonc (src : JsString) : JsString := dropTrailingCommas (stripComments .code src)

inductive Trivium where
  | space (u : UInt16) (blank : isSpace u = true)
  /-- `//` up to the end of the line. -/
  | line (body : JsString) (open_ : unit '\n' ∉ body)
  | block (body : JsString) (open_ : ¬[unit '*', unit '/'] <:+: body)

def Trivium.text : Trivium → JsString
  | space u _ => [u]
  | line body _ => unit '/' :: unit '/' :: (body ++ [unit '\n'])
  | block body _ => unit '/' :: unit '*' :: (body ++ [unit '*', unit '/'])

abbrev Gap := List Trivium

def Gap.text (gap : Gap) : JsString := gap.flatMap Trivium.text

def tailText : Option Gap → JsString
  | none => []
  | some gap => unit ',' :: gap.text

/-- A value written as JSONC. The text may end in a line comment. -/
structure Document where
  before : Gap
  written : Written Gap (Option Gap) .value
  after : Gap
  lastLine : Option {body : JsString // unit '\n' ∉ body}

def Document.text (d : Document) : JsString :=
  d.before.text ++ (d.written.text Gap.text tailText ++ (d.after.text ++
    match d.lastLine with
    | none => []
    | some body => unit '/' :: unit '/' :: body))

def CommaBeforeBracket (s : JsString) : Prop :=
  ∃ before space bracket after, s = before ++ unit ',' :: (space ++ bracket :: after) ∧
    (∀ u ∈ space, isWhiteSpace u = true) ∧ isClosing bracket = true

/-! ### Comments -/

theorem strip_cons {u : UInt16} (s : JsString) (quote : u ≠ unit '"') (slash : u ≠ unit '/') :
    stripComments .code (u :: s) = u :: stripComments .code s := by
  cases s with
  | nil => simp [stripComments, quote]
  | cons next s => simp [stripComments, quote, slash]

theorem strip_plain {raw : JsString} (rest : JsString)
    (plain : ∀ u ∈ raw, u ≠ unit '"' ∧ u ≠ unit '/') :
    stripComments .code (raw ++ rest) = raw ++ stripComments .code rest := by
  induction raw with
  | nil => rfl
  | cons u raw ih =>
    obtain ⟨quote, slash⟩ := plain u List.mem_cons_self
    rw [List.cons_append, strip_cons _ quote slash,
      ih fun v listed => plain v (List.mem_cons_of_mem u listed), List.cons_append]

theorem strip_quote (s : JsString) :
    stripComments .code (unit '"' :: s) = unit '"' :: stripComments .string s := by
  cases s <;> rfl

theorem strip_line {body : JsString} (rest : JsString) (open_ : unit '\n' ∉ body) :
    stripComments .line (body ++ unit '\n' :: rest) = unit '\n' :: stripComments .code rest := by
  induction body with
  | nil => rfl
  | cons u body ih =>
    rw [List.mem_cons, not_or] at open_
    have other : u ≠ unit '\n' := fun same => open_.1 same.symm
    rw [List.cons_append, stripComments, if_neg other, ih open_.2]

theorem strip_lastLine {body : JsString} (open_ : unit '\n' ∉ body) :
    stripComments .line body = [] := by
  induction body with
  | nil => rfl
  | cons u body ih =>
    rw [List.mem_cons, not_or] at open_
    have other : u ≠ unit '\n' := fun same => open_.1 same.symm
    rw [stripComments, if_neg other, ih open_.2]

theorem strip_block {body : JsString} (rest : JsString)
    (open_ : ¬[unit '*', unit '/'] <:+: body) :
    stripComments .block (body ++ unit '*' :: unit '/' :: rest) = stripComments .code rest := by
  induction body with
  | nil => rfl
  | cons u body ih =>
    have shorter : ¬[unit '*', unit '/'] <:+: body :=
      fun closed => open_ (closed.trans (List.suffix_cons u body).isInfix)
    have further := ih shorter
    cases body with
    | nil =>
      have not_closed : ¬(u = unit '*' ∧ unit '*' = unit '/') := fun both => by cases both.2
      simp only [List.cons_append, List.nil_append, stripComments, not_closed, if_false] at further ⊢
      exact further
    | cons next body =>
      have not_closed : ¬(u = unit '*' ∧ next = unit '/') := by
        rintro ⟨rfl, rfl⟩
        exact open_ ⟨[], body, rfl⟩
      rw [List.cons_append, List.cons_append, stripComments, if_neg not_closed, ← List.cons_append]
      exact further

theorem strip_string_cons {u : UInt16} (s : JsString) (quote : u ≠ unit '"')
    (backslash : u ≠ unit '\\') :
    stripComments .string (u :: s) = u :: stripComments .string s := by
  cases s <;> simp [stripComments, quote, backslash]

theorem strip_string_escape (e : UInt16) (s : JsString) :
    stripComments .string (unit '\\' :: e :: s) = unit '\\' :: e :: stripComments .string s := by
  simp [stripComments]

theorem strip_string_close (s : JsString) :
    stripComments .string (unit '"' :: s) = unit '"' :: stripComments .code s := by
  have other : unit '"' ≠ unit '\\' := by decide
  cases s <;> simp [stripComments, other]

theorem hexValue_ne {u v : UInt16} (digit : hexValue u = some v) :
    u ≠ unit '"' ∧ u ≠ unit '\\' ∧ u ≠ unit ',' := by
  refine ⟨?_, ?_, ?_⟩
  · rintro rfl
    cases digit
  · rintro rfl
    cases digit
  · rintro rfl
    cases digit

theorem strip_string (token : StringToken) (rest : JsString) :
    stripComments .string (token.text ++ unit '"' :: rest) =
      token.text ++ unit '"' :: stripComments .code rest := by
  induction token with
  | nil => exact strip_string_close rest
  | cons part token ih =>
    have split : StringToken.text (part :: token) = part.text ++ StringToken.text token :=
      List.flatMap_cons
    rw [split, List.append_assoc, List.append_assoc, ← ih]
    cases part with
    | plain u printed quote backslash => exact strip_string_cons _ quote backslash
    | escape e v listed => exact strip_string_escape e _
    | unicode a b c d va vb vc vd first second third fourth =>
      have plain : ∀ {u v s}, hexValue u = some v →
          stripComments .string (u :: s) = u :: stripComments .string s :=
        fun digit => strip_string_cons _ (hexValue_ne digit).1 (hexValue_ne digit).2.1
      simp only [StringPart.text, List.cons_append, List.nil_append, strip_string_escape,
        plain first, plain second, plain third, plain fourth]

def Trivium.spaces : Trivium → Spaces
  | space u blank => ⟨[u], by simpa using blank⟩
  | line _ _ => ⟨[unit '\n'], by decide⟩
  | block _ _ => ⟨[], by simp⟩

def Gap.spaces (gap : Gap) : Spaces where
  text := gap.flatMap fun t => t.spaces.text
  blank := by
    intro u listed
    obtain ⟨t, _, member⟩ := List.mem_flatMap.mp listed
    exact t.spaces.blank u member

theorem space_ne {u : UInt16} (blank : isSpace u = true) :
    u ≠ unit '"' ∧ u ≠ unit '/' ∧ u ≠ unit ',' := by
  simp only [isSpace, Bool.or_eq_true, beq_iff_eq] at blank
  rcases blank with ((rfl | rfl) | rfl) | rfl <;> decide

theorem strip_gap (gap : Gap) (rest : JsString) :
    stripComments .code (gap.text ++ rest) = gap.spaces.text ++ stripComments .code rest := by
  induction gap with
  | nil => rfl
  | cons t gap ih =>
    have text : Gap.text (t :: gap) = t.text ++ Gap.text gap := List.flatMap_cons
    have left : (Gap.spaces (t :: gap)).text = t.spaces.text ++ (Gap.spaces gap).text :=
      List.flatMap_cons (f := fun t : Trivium => t.spaces.text)
    rw [text, left, List.append_assoc, List.append_assoc, ← ih]
    cases t with
    | space u blank =>
      obtain ⟨quote, slash, _⟩ := space_ne blank
      exact strip_cons _ quote slash
    | line body open_ =>
      simp only [Trivium.text, List.cons_append, List.append_assoc]
      exact strip_line _ open_
    | block body open_ =>
      simp only [Trivium.text, List.cons_append, List.append_assoc]
      exact strip_block _ open_

abbrev Bare := Written Spaces (Option Spaces)

def bareTail : Option Spaces → JsString
  | none => []
  | some gap => unit ',' :: gap.text

def bare {p : Part} (w : Written Gap (Option Gap) p) : Bare p := w.map Gap.spaces (·.map Gap.spaces)

theorem strip_tail (tail : Option Gap) (rest : JsString) :
    stripComments .code (tailText tail ++ rest) =
      bareTail (tail.map Gap.spaces) ++ stripComments .code rest := by
  cases tail with
  | none => rfl
  | some gap =>
    rw [tailText, List.cons_append, strip_cons _ (by decide) (by decide), strip_gap]
    rfl

theorem number_plain {u : UInt16} (listed : numberUnit u = true) :
    u ≠ unit '"' ∧ u ≠ unit '/' ∧ u ≠ unit ',' := by
  refine ⟨?_, ?_, ?_⟩ <;>
  · rintro rfl
    exact absurd listed (by decide)

theorem strip_written {p : Part} (w : Written Gap (Option Gap) p) (rest : JsString) :
    stripComments .code (w.text Gap.text tailText ++ rest) =
      (bare w).text Spaces.text bareTail ++ stripComments .code rest := by
  induction w generalizing rest with
  | null => exact strip_plain rest (by decide)
  | bool b => cases b <;> exact strip_plain rest (by decide)
  | number token =>
    refine strip_plain rest fun u listed => ?_
    obtain ⟨quote, slash, _⟩ := number_plain (token.plain u listed)
    exact ⟨quote, slash⟩
  | string token =>
    simp only [bare, Written.map, Written.text, List.cons_append, List.append_assoc, List.nil_append,
      strip_quote, strip_string]
  | noItems gap tail =>
    simp (disch := decide) only [bare, Written.map, Written.text, List.cons_append,
      List.append_assoc, List.nil_append, strip_cons, strip_gap, strip_tail]
  | array items ih =>
    simp (disch := decide) only [bare, Written.map, Written.text, List.cons_append, strip_cons]
    exact congrArg _ (ih rest)
  | noMembers gap tail =>
    simp (disch := decide) only [bare, Written.map, Written.text, List.cons_append,
      List.append_assoc, List.nil_append, strip_cons, strip_gap, strip_tail]
  | object members ih =>
    simp (disch := decide) only [bare, Written.map, Written.text, List.cons_append, strip_cons]
    exact congrArg _ (ih rest)
  | item before v after more ihv ihm =>
    simp only [Written.text, List.append_assoc, strip_gap, ihv, ihm]
    simp only [bare, Written.map, Written.text, List.append_assoc]
  | endItems tail =>
    simp (disch := decide) only [bare, Written.map, Written.text, List.cons_append,
      List.append_assoc, List.nil_append, strip_cons, strip_tail]
  | nextItem items ih =>
    simp (disch := decide) only [bare, Written.map, Written.text, List.cons_append, strip_cons]
    exact congrArg _ (ih rest)
  | member before key behind inside v after more ihv ihm =>
    simp (disch := decide) only [Written.text, List.append_assoc, List.cons_append, strip_gap,
      strip_quote, strip_string, strip_cons, ihv, ihm]
    simp only [bare, Written.map, Written.text, List.append_assoc, List.cons_append]
  | endMembers tail =>
    simp (disch := decide) only [bare, Written.map, Written.text, List.cons_append,
      List.append_assoc, List.nil_append, strip_cons, strip_tail]
  | nextMember members ih =>
    simp (disch := decide) only [bare, Written.map, Written.text, List.cons_append, strip_cons]
    exact congrArg _ (ih rest)

/-! ### Trailing commas -/

theorem closes_append {s : JsString} (rest : JsString) (blank : ∀ u ∈ s, isWhiteSpace u = true) :
    closes (s ++ rest) = closes rest := by
  rw [closes, List.dropWhile_append_of_pos blank, closes]

theorem closes_spaces (gap : Spaces) (rest : JsString) : closes (gap.text ++ rest) = closes rest :=
  closes_append rest fun u listed => isWhiteSpace_of_isSpace (gap.blank u listed)

theorem closes_cons {u : UInt16} (s : JsString) (solid : isWhiteSpace u = false) :
    closes (u :: s) = isClosing u := by
  rw [closes, List.dropWhile_cons_of_neg (by simp [solid])]
  rfl

theorem isClosing_solid {u : UInt16} (closing : isClosing u = true) :
    isWhiteSpace u = false ∧ u ≠ unit ',' := by
  simp only [isClosing, Bool.or_eq_true, beq_iff_eq] at closing
  rcases closing with rfl | rfl <;> decide

theorem closes_iff {s : JsString} :
    closes s = true ↔ ∃ space bracket after, s = space ++ bracket :: after ∧
      (∀ u ∈ space, isWhiteSpace u = true) ∧ isClosing bracket = true := by
  constructor
  · intro closing
    rw [closes, Option.any_eq_true] at closing
    obtain ⟨bracket, first, is_closing⟩ := closing
    obtain ⟨after, rest⟩ := List.head?_eq_some_iff.mp first
    refine ⟨s.takeWhile isWhiteSpace, bracket, after, ?_, ?_, is_closing⟩
    · rw [← rest, List.takeWhile_append_dropWhile]
    · intro u listed
      exact List.mem_takeWhile_imp listed
  · rintro ⟨space, bracket, after, rfl, blank, closing⟩
    rw [closes_append _ blank, closes_cons _ (isClosing_solid closing).1, closing]

theorem drop_cons {u : UInt16} (s : JsString) (other : u ≠ unit ',') :
    dropTrailingCommas (u :: s) = u :: dropTrailingCommas s := by
  simp [dropTrailingCommas, other]

theorem drop_plain {raw : JsString} (rest : JsString) (plain : ∀ u ∈ raw, u ≠ unit ',') :
    dropTrailingCommas (raw ++ rest) = raw ++ dropTrailingCommas rest := by
  induction raw with
  | nil => rfl
  | cons u raw ih =>
    rw [List.cons_append, drop_cons _ (plain u List.mem_cons_self),
      ih fun v listed => plain v (List.mem_cons_of_mem u listed), List.cons_append]

theorem drop_spaces (gap : Spaces) (rest : JsString) :
    dropTrailingCommas (gap.text ++ rest) = gap.text ++ dropTrailingCommas rest :=
  drop_plain rest fun u listed => (space_ne (gap.blank u listed)).2.2

def closingTail : Option Spaces → Spaces
  | none => ⟨[], by simp⟩
  | some gap => gap

theorem drop_tail {u : UInt16} (tail : Option Spaces) (rest : JsString)
    (closing : isClosing u = true) :
    dropTrailingCommas (bareTail tail ++ u :: rest) =
      (closingTail tail).text ++ dropTrailingCommas (u :: rest) := by
  cases tail with
  | none => rfl
  | some gap =>
    have closed : closes (gap.text ++ u :: rest) = true := by
      rw [closes_spaces, closes_cons _ (isClosing_solid closing).1, closing]
    rw [bareTail, List.cons_append, dropTrailingCommas, closed, beq_self_eq_true, Bool.and_true,
      if_pos rfl, drop_spaces]
    rfl

def tidyString : StringToken → StringToken
  | [] => []
  | part :: token =>
    if part.text = [unit ','] ∧ closes (StringToken.text token) then tidyString token
    else part :: tidyString token

theorem closes_quote (s rest : JsString) : closes (s ++ unit '"' :: rest) = closes s := by
  induction s with
  | nil => exact closes_cons rest (by decide)
  | cons u s ih =>
    cases blank : isWhiteSpace u with
    | false => rw [List.cons_append, closes_cons _ blank, closes_cons _ blank]
    | true =>
      have one : ∀ v ∈ [u], isWhiteSpace v = true := by simpa using blank
      have left := closes_append (s ++ unit '"' :: rest) one
      have right := closes_append s one
      rw [List.singleton_append] at left right
      rw [List.cons_append, left, right, ih]

theorem part_comma (part : StringPart) (listed : unit ',' ∈ part.text) : part.text = [unit ','] := by
  cases part with
  | plain u printed quote backslash =>
    simp only [StringPart.text, List.mem_singleton] at listed
    simp only [StringPart.text, listed]
  | escape e v member =>
    simp only [StringPart.text, List.mem_cons, List.not_mem_nil, or_false] at listed
    rcases listed with slash | same
    · exact absurd slash (by decide)
    · rw [← same] at member
      simp [escapes, unit] at member
  | unicode a b c d va vb vc vd first second third fourth =>
    have other : ∀ {u v : UInt16}, hexValue u = some v → unit ',' ≠ u :=
      fun digit => (hexValue_ne digit).2.2.symm
    simp only [StringPart.text, List.mem_cons, List.not_mem_nil, other first, other second,
      other third, other fourth, or_false] at listed
    rcases listed with slash | letter
    · exact absurd slash (by decide)
    · exact absurd letter (by decide)

theorem commaBeforeBracket_cons {u : UInt16} {s : JsString} :
    CommaBeforeBracket (u :: s) ↔ u = unit ',' ∧ closes s = true ∨ CommaBeforeBracket s := by
  constructor
  · rintro ⟨before, space, bracket, after, cut, blank, closing⟩
    cases before with
    | nil =>
      cases cut
      exact .inl ⟨rfl, closes_iff.mpr ⟨space, bracket, after, rfl, blank, closing⟩⟩
    | cons v before =>
      cases cut
      exact .inr ⟨before, space, bracket, after, rfl, blank, closing⟩
  · rintro (⟨rfl, closing⟩ | ⟨before, space, bracket, after, rfl, blank, closing⟩)
    · obtain ⟨space, bracket, after, rfl, blank, closing⟩ := closes_iff.mp closing
      exact ⟨[], space, bracket, after, rfl, blank, closing⟩
    · exact ⟨u :: before, space, bracket, after, rfl, blank, closing⟩

theorem commaBeforeBracket_part (part : StringPart) {s : JsString} :
    CommaBeforeBracket (part.text ++ s) ↔
      part.text = [unit ','] ∧ closes s = true ∨ CommaBeforeBracket s := by
  by_cases comma : unit ',' ∈ part.text
  · simp only [part_comma part comma, List.singleton_append, commaBeforeBracket_cons, true_and]
  · have plain : ∀ raw : JsString, unit ',' ∉ raw →
        (CommaBeforeBracket (raw ++ s) ↔ CommaBeforeBracket s) := by
      intro raw absent
      induction raw with
      | nil => rfl
      | cons u raw ih =>
        rw [List.mem_cons, not_or] at absent
        have other : u ≠ unit ',' := fun same => absent.1 same.symm
        simp only [List.cons_append, commaBeforeBracket_cons, other, false_and, false_or, ih absent.2]
    have not_comma : part.text ≠ [unit ','] := by
      intro same
      exact comma (same ▸ List.mem_singleton_self _)
    simp only [plain _ comma, not_comma, false_and, false_or]

theorem drop_string (token : StringToken) (rest : JsString) :
    dropTrailingCommas (token.text ++ unit '"' :: rest) =
      (tidyString token).text ++ unit '"' :: dropTrailingCommas rest := by
  induction token with
  | nil => exact drop_cons rest (by decide)
  | cons part token ih =>
    have split : ∀ token, StringToken.text (part :: token) = part.text ++ StringToken.text token :=
      fun _ => List.flatMap_cons
    rw [split, List.append_assoc, tidyString]
    split
    next dropped =>
      rw [dropped.1, List.singleton_append, dropTrailingCommas, closes_quote, dropped.2,
        beq_self_eq_true, Bool.and_true, if_pos rfl, ih]
    next kept =>
      rw [split, List.append_assoc, ← ih]
      by_cases comma : unit ',' ∈ part.text
      · have single := part_comma part comma
        have open_ : closes (StringToken.text token) = false :=
          Bool.eq_false_iff.mpr fun closed => kept ⟨single, closed⟩
        rw [single, List.singleton_append, dropTrailingCommas, closes_quote, open_]
        rfl
      · exact drop_plain _ fun u listed same => comma (same ▸ listed)

theorem tidyString_length (token : StringToken) : (tidyString token).length ≤ token.length := by
  induction token with
  | nil => exact Nat.le_refl 0
  | cons part token ih =>
    rw [tidyString]
    split
    · exact Nat.le_succ_of_le ih
    · exact Nat.succ_le_succ ih

/-- A string keeps its value just when no comma of it stands before a bracket. -/
theorem tidyString_value (token : StringToken) :
    (tidyString token).value = token.value ↔ ¬CommaBeforeBracket token.text := by
  induction token with
  | nil =>
    refine iff_of_true rfl ?_
    rintro ⟨before, space, bracket, after, cut, _⟩
    cases before <;> cases cut
  | cons part token ih =>
    have split : StringToken.text (part :: token) = part.text ++ StringToken.text token :=
      List.flatMap_cons
    rw [split, commaBeforeBracket_part, tidyString]
    by_cases dropped : part.text = [unit ','] ∧ closes (StringToken.text token)
    · rw [if_pos dropped]
      constructor
      · intro same
        have shorter := tidyString_length token
        have sizes := congrArg List.length same
        simp only [StringToken.value, List.length_map, List.length_cons] at sizes
        omega
      · exact fun none_ => absurd (.inl dropped) none_
    · rw [if_neg dropped]
      simp only [StringToken.value, List.map_cons, List.cons.injEq, true_and, dropped, false_or]
      exact ih

/-! ### The value that is read -/

def tidy {p : Part} : Bare p → JsonText p
  | .null => .null
  | .bool b => .bool b
  | .number token => .number token
  | .string token => .string (tidyString token)
  | .noItems gap tail => .noItems gap (closingTail tail)
  | .array items => .array (tidy items)
  | .noMembers gap tail => .noMembers gap (closingTail tail)
  | .object members => .object (tidy members)
  | .item before v after more => .item before (tidy v) after (tidy more)
  | .endItems tail => .endItems (closingTail tail)
  | .nextItem items => .nextItem (tidy items)
  | .member before key behind inside v after more =>
    .member before (tidyString key) behind inside (tidy v) after (tidy more)
  | .endMembers tail => .endMembers (closingTail tail)
  | .nextMember members => .nextMember (tidy members)

theorem opens_not_closing {u : UInt16} (opened : opens u = true) :
    isWhiteSpace u = false ∧ isClosing u = false := by
  simp only [opens, Bool.and_eq_true, Bool.not_eq_true'] at opened
  simp [isClosing, opened]

theorem closes_items (w : Bare .items) (rest : JsString) :
    closes (w.text Spaces.text bareTail ++ rest) = false := by
  cases w with
  | item before v after more =>
    obtain ⟨u, s, head, opened⟩ := text_head Spaces.text bareTail v
    obtain ⟨solid, open_⟩ := opens_not_closing opened
    simp only [Written.text, List.append_assoc, closes_spaces, head, List.cons_append,
      closes_cons _ solid, open_]

theorem closes_members (w : Bare .members) (rest : JsString) :
    closes (w.text Spaces.text bareTail ++ rest) = false := by
  cases w with
  | member before key behind inside v after more =>
    have solid : isWhiteSpace (unit '"') = false := by decide
    simp only [Written.text, List.append_assoc, closes_spaces, List.cons_append,
      closes_cons _ solid]
    decide

theorem drop_comma {s : JsString} (open_ : closes s = false) :
    dropTrailingCommas (unit ',' :: s) = unit ',' :: dropTrailingCommas s := by
  simp [dropTrailingCommas, open_]

/-- The second pass leaves a text of JSON. -/
theorem drop_written {p : Part} (w : Bare p) (rest : JsString) :
    dropTrailingCommas (w.text Spaces.text bareTail ++ rest) =
      (tidy w).text ++ dropTrailingCommas rest := by
  induction w generalizing rest with
  | null => exact drop_plain rest (by decide)
  | bool b => cases b <;> exact drop_plain rest (by decide)
  | number token => exact drop_plain rest fun u listed => (number_plain (token.plain u listed)).2.2
  | string token =>
    simp (disch := decide) only [tidy, JsonText.text, Written.text, List.cons_append,
      List.append_assoc, List.nil_append, drop_cons, drop_string]
  | noItems gap tail =>
    have closing : isClosing (unit ']') = true := by decide
    simp (disch := decide) only [tidy, JsonText.text, Written.text, List.cons_append,
      List.append_assoc, List.nil_append, drop_cons, drop_spaces, drop_tail tail rest closing]
  | array items ih =>
    simp (disch := decide) only [tidy, JsonText.text, Written.text, List.cons_append, drop_cons]
    exact congrArg _ (ih rest)
  | noMembers gap tail =>
    have closing : isClosing (unit '\x7d') = true := by decide
    simp (disch := decide) only [tidy, JsonText.text, Written.text, List.cons_append,
      List.append_assoc, List.nil_append, drop_cons, drop_spaces, drop_tail tail rest closing]
  | object members ih =>
    simp (disch := decide) only [tidy, JsonText.text, Written.text, List.cons_append, drop_cons]
    exact congrArg _ (ih rest)
  | item before v after more ihv ihm =>
    simp only [Written.text, List.append_assoc, drop_spaces, ihv, ihm]
    simp only [tidy, JsonText.text, Written.text, List.append_assoc]
  | endItems tail =>
    have closing : isClosing (unit ']') = true := by decide
    simp (disch := decide) only [tidy, JsonText.text, Written.text, List.append_assoc,
      List.cons_append, List.nil_append, drop_tail tail rest closing, drop_cons]
  | nextItem items ih =>
    simp only [tidy, JsonText.text, Written.text, List.cons_append,
      drop_comma (closes_items items rest)]
    exact congrArg _ (ih rest)
  | member before key behind inside v after more ihv ihm =>
    simp (disch := decide) only [Written.text, List.append_assoc, List.cons_append, drop_spaces,
      drop_string, drop_cons, ihv, ihm]
    simp only [tidy, JsonText.text, Written.text, List.append_assoc, List.cons_append]
  | endMembers tail =>
    have closing : isClosing (unit '\x7d') = true := by decide
    simp (disch := decide) only [tidy, JsonText.text, Written.text, List.append_assoc,
      List.cons_append, List.nil_append, drop_tail tail rest closing, drop_cons]
  | nextMember members ih =>
    simp only [tidy, JsonText.text, Written.text, List.cons_append,
      drop_comma (closes_members members rest)]
    exact congrArg _ (ih rest)

theorem tidy_value {p : Part} (w : Bare p) :
    (tidy w).value = w.value ↔ ∀ token ∈ w.strings, ¬CommaBeforeBracket token.text := by
  induction w with
  | null | bool _ | number _ | noItems _ _ | noMembers _ _ | endItems _ | endMembers _ =>
    exact iff_of_true rfl fun _ none_ => nomatch none_
  | string token =>
    simp only [tidy, Written.value, Json.str.injEq, tidyString_value, Written.strings,
      List.forall_mem_singleton]
  | array items ih => simp only [tidy, Written.value, Json.arr.injEq, ih, Written.strings]
  | object members ih => simp only [tidy, Written.value, Json.obj.injEq, ih, Written.strings]
  | item before v after more ihv ihm =>
    simp only [tidy, Written.value, List.cons.injEq, ihv, ihm, Written.strings,
      List.forall_mem_append]
  | nextItem items ih => exact ih
  | member before key behind inside v after more ihv ihm =>
    simp only [tidy, Written.value, List.cons.injEq, Prod.mk.injEq, tidyString_value, ihv, ihm,
      Written.strings, List.forall_mem_cons, List.forall_mem_append, and_assoc]
  | nextMember members ih => exact ih

/-- The text of a document without its comments and trailing commas is a text of its value, except
that its strings lose the commas that stand before a bracket. -/
theorem parse_stripJsonc (d : Document) :
    parse (stripJsonc d.text) = some (tidy (bare d.written)).value := by
  have last : stripComments .code (match d.lastLine with
      | none => []
      | some body => unit '/' :: unit '/' :: body.1) = [] := by
    cases d.lastLine with
    | none => rfl
    | some body => exact strip_lastLine body.2
  have trailing : dropTrailingCommas d.after.spaces.text = d.after.spaces.text := by
    have all := drop_spaces d.after.spaces []
    simpa [dropTrailingCommas] using all
  rw [stripJsonc, Document.text, strip_gap, strip_written, strip_gap, last, List.append_nil,
    drop_spaces, drop_written, trailing]
  exact parse_text _ _ _

/-- Reading a config gives the value that is written in it just when no string of it, key or value,
holds a comma that only white space separates from a closing bracket. -/
theorem stripJsonc_exact (d : Document) :
    parse (stripJsonc d.text) = some d.written.value ↔
      ∀ token ∈ d.written.strings, ¬CommaBeforeBracket token.text := by
  have kept := tidy_value (bare d.written)
  rw [bare, Written.value_map, Written.strings_map] at kept
  rw [parse_stripJsonc, Option.some.injEq, ← kept, bare]

private def comma : StringPart := .plain (unit ',') (by decide) (by decide) (by decide)

private def bracket : StringPart := .plain (unit ']') (by decide) (by decide) (by decide)

/-- The text `[",]"]`. -/
private def commaInString : Document :=
  ⟨[], .array (.item [] (.string [comma, bracket]) [] (.endItems none)), [], none⟩

/-- The comma of a string is dropped where a bracket follows it. -/
theorem comma_in_string_dropped :
    commaInString.text = utf16 "[\",]\"]" ∧
      commaInString.written.value = Json.arr [.str (utf16 ",]")] ∧
      parse (stripJsonc commaInString.text) = some (.arr [.str (utf16 "]")]) ∧
      parse (stripJsonc commaInString.text) ≠ some commaInString.written.value := by
  have text : commaInString.text = utf16 "[\",]\"]" := by decide
  have value : commaInString.written.value = Json.arr [.str (utf16 ",]")] := rfl
  have read : parse (stripJsonc commaInString.text) = some (.arr [.str (utf16 "]")]) := by
    rw [parse_stripJsonc]
    rfl
  refine ⟨text, value, read, ?_⟩
  rw [read, value]
  intro same
  simp only [Option.some.injEq, Json.arr.injEq, List.cons.injEq, Json.str.injEq, and_true] at same
  exact absurd same (by decide)

end CodeGraph.Resolution.StripJsonc
