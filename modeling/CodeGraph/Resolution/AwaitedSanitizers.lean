import CodeGraph.Foundation.Codings
import CodeGraph.Foundation.RustText
import CodeGraph.Kernel.CommentStrippers

/-!
The two sanitizers of the awaited-call index (`resolve/awaited.rs`): `strip_ts_comments` and
`blank_string_contents`.
-/
namespace CodeGraph.Resolution.Awaited

open CharOffsets JsText Kernel.CommentStrippers

/-! ### Regex literals -/

/-- What may stand before an expression; a closing bracket only where the reading is not strict. -/
def isRegexBefore (strict : Bool) (c : Char) : Bool :=
  ['=', '(', ':', ',', '!', '&', '|', '?', ';', '\x7b', '\x7d', '[', '+', '*', '%', '~', '^', '<', '>',
    '-'].contains c || !strict && (c == ')' || c == ']')

def regexKeywords : List Text :=
  ["return", "throw", "case", "yield", "await", "else", "do", "typeof", "void", "delete", "new", "in",
    "of", "instanceof"].map String.toList

/-- `\b` before a word, for what is before it, the last character first. -/
def wordStarts : Text → Bool
  | [] => true
  | c :: _ => !isWord c

/-- The pattern `regex_start`, on the characters of a window, the last first. -/
def regex_start (strict : Bool) (window : Text) : Bool :=
  match window.dropWhile RustText.isWhitespace with
  | [] => true
  | c :: rest => isRegexBefore strict c ||
      regexKeywords.any fun w => w.reverse.isPrefixOf (c :: rest) && wordStarts ((c :: rest).drop w.length)

/-- The last 32 units of what is before, the last character first. -/
def windowFrom (units : Nat) : Text → Text
  | [] => []
  | ch :: rest =>
    if units < 32 then
      if 32 < units + lenUtf16 ch then ['\uFFFD'] else ch :: windowFrom (units + lenUtf16 ch) rest
    else []

def regexBody : Bool → Text → Option Nat
  | _, [] => none
  | inClass, [c] => if c = '/' ∧ inClass = false then some 0 else none
  | inClass, c :: d :: rest =>
    if c = '\n' then none
    else if c = '\\' then (regexBody inClass rest).map (· + 2)
    else if c = '/' ∧ inClass = false then some 0
    else (regexBody (if c = '[' then true else if c = ']' then false else inClass) (d :: rest)).map (· + 1)

/-- The length of the body of a regex literal that opens between the two texts, the first one
backwards. -/
def regex_literal_end (before rest : Text) (strict : Bool) : Option Nat :=
  if regex_start strict (windowFrom 0 before) then regexBody false rest else none

def isQuote (c : Char) : Bool := c == '"' || c == '\'' || c == '`'

/-- The loop of `strip_ts_comments`; what is before the place is given backwards. -/
def strip_ts_commentsFrom : Nat → Text → Text → Text
  | 0, _, rest => rest
  | _ + 1, _, [] => []
  | fuel + 1, before, c :: rest =>
    let onward (n : Nat) :=
      strip_ts_commentsFrom fuel (((c :: rest).take n).reverse ++ before) ((c :: rest).drop n)
    let blank (n : Nat) := ((c :: rest).take n).flatMap push_blank ++ onward n
    let keep (n : Nat) := (c :: rest).take n ++ onward n
    if c = '/' ∧ rest.head? = some '*' then blank (2 + blockRest '*' '/' (rest.drop 1))
    else if c = '/' ∧ rest.head? = some '/' then blank (lineRest '\n' (c :: rest))
    else match if c = '/' then regex_literal_end before rest true else none with
      | some body => keep (body + 2)
      | none => if isQuote c then keep (1 + stringRest c '\\' '\n' (c == '`') rest) else keep 1

def strip_ts_comments (src : Text) : Text := strip_ts_commentsFrom src.length [] src

def stringSlots (quote : Char) : Text → List (Option Char)
  | [] => []
  | [u] =>
    if u = quote then [some u]
    else if quote ≠ '`' ∧ u = '\n' then []
    else [if u = '\n' then some u else none]
  | u :: v :: rest =>
    if u = quote then [some u]
    else if u = '\\' then none :: none :: stringSlots quote rest
    else if quote ≠ '`' ∧ u = '\n' then []
    else (if u = '\n' then some u else none) :: stringSlots quote (v :: rest)

def slotsFrom : Nat → Text → Text → List (Option Char)
  | 0, _, rest => rest.map some
  | _ + 1, _, [] => []
  | fuel + 1, before, c :: rest =>
    let onward (n : Nat) := slotsFrom fuel (((c :: rest).take n).reverse ++ before) ((c :: rest).drop n)
    match if c = '/' then regex_literal_end before rest false else none with
    | some body => some c :: (List.replicate body none ++ some '/' :: onward (body + 2))
    | none =>
      if isQuote c then
        let slots := stringSlots c rest
        some c :: (slots ++ onward (1 + slots.length))
      else some c :: onward 1

def fill (s : Text) (out : List (Option Char)) : Text :=
  (s.zip out).flatMap fun
    | (_, some ch) => [ch]
    | (c, none) => List.replicate (lenUtf16 c) ' '

def blank_string_contents (text : Text) : Text := fill text (slotsFrom text.length [] text)

/-!
### What the sanitizers blank

A sanitized text has a unit for each unit of its source. `strip_ts_comments` also keeps every newline;
`blank_string_contents` loses those that a literal escapes.
-/

open Text

variable {s t u before rest : Text} {c d quote : Char} {out : List (Option Char)} {fuel : Nat}

/-! ### Masks -/

inductive Masked : Text → Text → Prop
  | nil : Masked [] []
  | keep (c : Char) {s t : Text} : Masked s t → Masked (c :: s) (c :: t)
  | blank (c : Char) {s t : Text} : Masked s t → Masked (c :: s) (push_blank c ++ t)

theorem push_blank_newline : push_blank '\n' = ['\n'] := rfl

theorem length_charUnits (c : Char) : (charUnits c).length = lenUtf16 c := by
  rw [charUnits, lenUtf16]
  split <;> rfl

theorem push_blank_other (other : c ≠ '\n') : push_blank c = List.replicate (lenUtf16 c) ' ' := by
  rw [push_blank, if_neg other, length_charUnits]

namespace Masked

theorem keepAll (kept : Text) (masked : Masked s t) : Masked (kept ++ s) (kept ++ t) := by
  induction kept with
  | nil => exact masked
  | cons c kept ih => exact .keep c ih

theorem blankAll (blanked : Text) (masked : Masked s t) :
    Masked (blanked ++ s) (blanked.flatMap push_blank ++ t) := by
  induction blanked with
  | nil => exact masked
  | cons c blanked ih =>
    rw [List.flatMap_cons, List.append_assoc]
    exact .blank c ih

theorem refl (s : Text) : Masked s s := by
  have kept := keepAll s nil
  rwa [List.append_nil] at kept

private theorem spaces_split {n : Nat} {s' : Text} (masked : Masked (List.replicate n ' ' ++ s) s') :
    ∃ t, s' = List.replicate n ' ' ++ t ∧ Masked s t := by
  induction n generalizing s' with
  | zero => exact ⟨s', rfl, masked⟩
  | succ n ih =>
    rw [List.replicate_succ, List.cons_append] at masked
    cases masked with
    | keep _ inner =>
      obtain ⟨t, rfl, masked⟩ := ih inner
      exact ⟨t, rfl, masked⟩
    | blank _ inner =>
      obtain ⟨t, rfl, masked⟩ := ih inner
      exact ⟨t, rfl, masked⟩

private theorem blank_split {s' : Text} (masked : Masked (push_blank c ++ s) s') :
    ∃ t, s' = push_blank c ++ t ∧ Masked s t := by
  by_cases newline : c = '\n'
  · subst newline
    rw [push_blank_newline] at masked ⊢
    cases masked with
    | keep _ inner => exact ⟨_, rfl, inner⟩
    | blank _ inner => exact ⟨_, rfl, inner⟩
  · rw [push_blank_other newline] at masked ⊢
    exact spaces_split masked

theorem trans (first : Masked s t) (second : Masked t u) : Masked s u := by
  induction first generalizing u with
  | nil => exact second
  | keep c _ ih =>
    cases second with
    | keep _ second => exact .keep c (ih second)
    | blank _ second => exact .blank c (ih second)
  | blank c _ ih =>
    obtain ⟨u, rfl, onward⟩ := blank_split second
    exact .blank c (ih onward)

theorem split {before after : Text} (masked : Masked (before ++ after) t) :
    ∃ left right, t = left ++ right ∧ Masked before left ∧ Masked after right := by
  induction before generalizing t with
  | nil => exact ⟨[], t, rfl, .nil, masked⟩
  | cons c before ih =>
    cases masked with
    | keep _ masked =>
      obtain ⟨left, right, rfl, first, second⟩ := ih masked
      exact ⟨c :: left, right, rfl, .keep c first, second⟩
    | blank _ masked =>
      obtain ⟨left, right, rfl, first, second⟩ := ih masked
      exact ⟨push_blank c ++ left, right, (List.append_assoc _ _ _).symm, .blank c first, second⟩

end Masked

/-! ### Units -/

def marks (t : Text) : List Bool := (t.flatMap charUnits).map (· == 0x0A)

theorem marks_cons : marks (c :: t) =
    (if c = '\n' then [true] else List.replicate (lenUtf16 c) false) ++ marks t := by
  rw [marks, List.flatMap_cons, List.map_append, marks]
  congr 1
  split
  · next newline =>
    subst newline
    rfl
  · next other =>
    rw [← length_charUnits, List.eq_replicate_iff]
    refine ⟨List.length_map _, fun b listed => ?_⟩
    obtain ⟨v, listed', rfl⟩ := List.mem_map.mp listed
    exact beq_eq_false_iff_ne.mpr (Codings.Coding.utf16.apart other (by decide) listed')

theorem marks_append : marks (s ++ t) = marks s ++ marks t := by
  rw [marks, List.flatMap_append, List.map_append, marks, marks]

theorem length_marks (t : Text) : (marks t).length = units t := by
  rw [marks, List.length_map, length_flatMap_charUnits]

theorem count_marks (t : Text) : (marks t).count true = t.count '\n' := by
  induction t with
  | nil => rfl
  | cons c t ih =>
    rw [marks_cons, List.count_append, ih, List.count_cons]
    split
    · next newline => rw [if_pos (beq_iff_eq.mpr newline), List.count_singleton_self, Nat.add_comm]
    · next other =>
      rw [if_neg (mt beq_iff_eq.mp other), List.count_replicate, if_neg (by decide), Nat.zero_add, Nat.add_zero]

theorem marks_push_blank (c : Char) (t : Text) : marks (push_blank c ++ t) = marks (c :: t) := by
  rw [marks_append, marks_cons]
  congr 1
  split
  · next newline =>
    subst newline
    rfl
  · next other =>
    rw [push_blank_other other]
    induction lenUtf16 c with
    | zero => rfl
    | succ n ih =>
      rw [List.replicate_succ, marks_cons, ih, if_neg (by decide), List.replicate_succ]
      rfl

theorem Masked.marks_eq (masked : Masked s t) : marks t = marks s := by
  induction masked with
  | nil => rfl
  | keep c _ ih => rw [marks_cons, marks_cons, ih]
  | blank c _ ih => rw [marks_push_blank, marks_cons, marks_cons, ih]

theorem Masked.units_eq (masked : Masked s t) : units t = units s := by
  rw [← length_marks, ← length_marks, masked.marks_eq]

theorem strip_masked (fuel : Nat) (before rest : Text) :
    Masked rest (strip_ts_commentsFrom fuel before rest) := by
  induction fuel generalizing before rest with
  | zero => exact .refl rest
  | succ fuel ih =>
    cases rest with
    | nil => exact .nil
    | cons c rest =>
      have blank : ∀ n before, Masked (c :: rest) (((c :: rest).take n).flatMap push_blank ++
          strip_ts_commentsFrom fuel before ((c :: rest).drop n)) := fun n before => by
        have masked := Masked.blankAll ((c :: rest).take n) (ih before ((c :: rest).drop n))
        rwa [List.take_append_drop] at masked
      have keep : ∀ n before, Masked (c :: rest) ((c :: rest).take n ++
          strip_ts_commentsFrom fuel before ((c :: rest).drop n)) := fun n before => by
        have masked := Masked.keepAll ((c :: rest).take n) (ih before ((c :: rest).drop n))
        rwa [List.take_append_drop] at masked
      rw [strip_ts_commentsFrom]
      split
      · exact blank _ _
      split
      · exact blank _ _
      split
      · exact keep _ _
      split
      · exact keep _ _
      · exact keep _ _

def escapesNewline : Text → Bool
  | [] => false
  | [_] => false
  | c :: d :: rest => if c = '\\' then d == '\n' || escapesNewline rest else escapesNewline (d :: rest)

/-- What follows the opening mark in each literal, as `blank_string_contents` finds them. -/
def literalsFrom : Nat → Text → Text → List Text
  | 0, _, _ => []
  | _ + 1, _, [] => []
  | fuel + 1, before, c :: rest =>
    let onward (n : Nat) := literalsFrom fuel (((c :: rest).take n).reverse ++ before) ((c :: rest).drop n)
    match if c = '/' then regex_literal_end before rest false else none with
    | some body => rest.take body :: onward (body + 2)
    | none =>
      if isQuote c then
        let length := stringRest c '\\' '\n' (c == '`') rest
        rest.take length :: onward (1 + length)
      else onward 1

def literals (text : Text) : List Text := literalsFrom text.length [] text

def ContinuesLine (text : Text) : Prop := ∃ literal ∈ literals text, escapesNewline literal = true

/-! ### Slots -/

def Slots (s : Text) (out : List (Option Char)) : Prop :=
  List.Forall₂ (fun c slot => slot = some c ∨ slot = none) s out

theorem Slots.append {s' : Text} {out' : List (Option Char)} (first : Slots s out) (second : Slots s' out') :
    Slots (s ++ s') (out ++ out') := List.rel_append first second

def Loses (s : Text) (out : List (Option Char)) : Prop := ('\n', none) ∈ s.zip out

theorem Slots.replicate (t : Text) : Slots t (List.replicate t.length none) := by
  induction t with
  | nil => exact .nil
  | cons c t ih =>
    rw [List.length_cons, List.replicate_succ]
    exact .cons (.inr rfl) ih

theorem Slots.all_some (t : Text) : Slots t (t.map some) := by
  induction t with
  | nil => exact .nil
  | cons c t ih => exact .cons (.inl rfl) ih

theorem loses_nil : ¬Loses [] out := List.not_mem_nil

theorem loses_cons {slot : Option Char} : Loses (c :: s) (slot :: out) ↔ c = '\n' ∧ slot = none ∨ Loses s out := by
  rw [Loses, List.zip_cons_cons, List.mem_cons, Prod.mk.injEq, eq_comm (b := c), eq_comm (b := slot)]
  rfl

theorem loses_append {s' : Text} {out' : List (Option Char)} (first : Slots s out) :
    Loses (s ++ s') (out ++ out') ↔ Loses s out ∨ Loses s' out' := by
  rw [Loses, List.zip_append first.length_eq, List.mem_append]
  rfl

theorem not_loses_some (t : Text) : ¬Loses t (t.map some) := by
  induction t with
  | nil => exact loses_nil
  | cons c t ih =>
    rw [List.map_cons, loses_cons]
    rintro (⟨-, none_⟩ | lost)
    · cases none_
    · exact ih lost

theorem loses_replicate (t : Text) : Loses t (List.replicate t.length none) ↔ '\n' ∈ t := by
  induction t with
  | nil => exact iff_of_false loses_nil List.not_mem_nil
  | cons c t ih => rw [List.length_cons, List.replicate_succ, loses_cons, ih, List.mem_cons, eq_comm, and_iff_left rfl]

theorem escapesNewline_cons (other : c ≠ '\\') : escapesNewline (c :: t) = escapesNewline t := by
  cases t with
  | nil => rfl
  | cons d t => rw [escapesNewline, if_neg other]

theorem regexBody_spec {inClass : Bool} {n : Nat} (found : regexBody inClass rest = some n) :
    (∃ after, rest = rest.take n ++ '/' :: after) ∧ n < rest.length ∧
      ('\n' ∈ rest.take n ↔ escapesNewline (rest.take n) = true) := by
  induction inClass, rest using regexBody.induct generalizing n with
  | case1 => cases found
  | case2 inClass c slash =>
    rw [regexBody, if_pos slash] at found
    cases found
    refine ⟨⟨[], by rw [slash.1]; rfl⟩, Nat.zero_lt_one, ?_⟩
    exact iff_of_false List.not_mem_nil Bool.false_ne_true
  | case3 inClass c other =>
    rw [regexBody, if_neg other] at found
    cases found
  | case4 inClass d rest =>
    rw [regexBody, if_pos rfl] at found
    cases found
  | case5 inClass d rest other ih =>
    rw [regexBody, if_neg other, if_pos rfl] at found
    obtain ⟨m, inner, rfl⟩ := Option.map_eq_some_iff.mp found
    obtain ⟨⟨after, whole⟩, short, same⟩ := ih inner
    refine ⟨⟨after, congrArg (fun t => '\\' :: d :: t) whole⟩, ?_, ?_⟩
    · rw [List.length_cons, List.length_cons]
      omega
    · rw [List.take_succ_cons, List.take_succ_cons, List.mem_cons, List.mem_cons, same, escapesNewline,
        if_pos rfl, Bool.or_eq_true, beq_iff_eq, or_iff_right (by decide), eq_comm]
  | case6 inClass c d rest other other' slash =>
    rw [regexBody, if_neg other, if_neg other', if_pos slash] at found
    cases found
    refine ⟨⟨d :: rest, by rw [slash.1]; rfl⟩, Nat.zero_lt_succ _, ?_⟩
    exact iff_of_false List.not_mem_nil Bool.false_ne_true
  | case7 inClass c d rest other other' plain ih =>
    rw [regexBody, if_neg other, if_neg other', if_neg plain] at found
    obtain ⟨m, inner, rfl⟩ := Option.map_eq_some_iff.mp found
    obtain ⟨⟨after, whole⟩, short, same⟩ := ih inner
    refine ⟨⟨after, congrArg (fun t => c :: t) whole⟩, ?_, ?_⟩
    · rw [List.length_cons]
      omega
    · rw [List.take_succ_cons, List.mem_cons, same, escapesNewline_cons other', or_iff_right (Ne.symm other)]

/-- What the slots of a string are: as many as there are characters behind the quote, and only an
escaped newline is lost. -/
structure StringSlots (quote : Char) (rest : Text) : Prop where
  length : (stringSlots quote rest).length = stringRest quote '\\' '\n' (quote == '`') rest
  short : (stringSlots quote rest).length ≤ rest.length
  slots : Slots (rest.take (stringSlots quote rest).length) (stringSlots quote rest)
  loses : Loses (rest.take (stringSlots quote rest).length) (stringSlots quote rest) ↔
    escapesNewline (rest.take (stringSlots quote rest).length) = true

theorem stringSlots_spec (quote : Char) (rest : Text) : StringSlots quote rest := by
  have lines : ∀ u, (quote == '`') = false ∧ u = '\n' ↔ quote ≠ '`' ∧ u = '\n' := fun u =>
    and_congr_left' beq_eq_false_iff_ne
  induction rest using stringSlots.induct quote with
  | case1 => exact ⟨rfl, Nat.le_refl 0, .nil, iff_of_false loses_nil Bool.false_ne_true⟩
  | case2 =>
    have made : stringSlots quote [quote] = [some quote] := by rw [stringSlots, if_pos rfl]
    constructor
    · rw [made, stringRest, if_pos rfl]
      rfl
    · rw [made]
      exact Nat.le_refl 1
    · rw [made]
      exact .all_some [quote]
    · rw [made]
      exact iff_of_false (not_loses_some [quote]) Bool.false_ne_true
  | case3 u other newline =>
    have made : stringSlots quote [u] = [] := by rw [stringSlots, if_neg other, if_pos newline]
    constructor
    · rw [made, stringRest, if_neg other, if_pos ((lines u).mpr newline)]
      rfl
    · rw [made]
      exact Nat.zero_le 1
    · rw [made]
      exact .nil
    · rw [made]
      exact iff_of_false loses_nil Bool.false_ne_true
  | case4 u other plain =>
    have made : stringSlots quote [u] = [if u = '\n' then some u else none] := by
      rw [stringSlots, if_neg other, if_neg plain]
    constructor
    · rw [made, stringRest, if_neg other, if_neg (mt (lines u).mp plain)]
      rfl
    · rw [made]
      exact Nat.le_refl 1
    · rw [made]
      refine .cons ?_ .nil
      split
      · exact .inl rfl
      · exact .inr rfl
    · rw [made]
      refine iff_of_false (fun lost => ?_) Bool.false_ne_true
      rcases loses_cons.mp lost with ⟨newline, empty⟩ | lost
      · rw [if_pos newline] at empty
        cases empty
      · exact loses_nil lost
  | case5 v rest =>
    have made : stringSlots quote (quote :: v :: rest) = [some quote] := by rw [stringSlots, if_pos rfl]
    constructor
    · rw [made, stringRest, if_pos rfl]
      rfl
    · rw [made]
      exact Nat.succ_le_succ (Nat.zero_le _)
    · rw [made]
      exact .all_some [quote]
    · rw [made]
      exact iff_of_false (not_loses_some [quote]) Bool.false_ne_true
  | case6 v rest other ih =>
    have made : stringSlots quote ('\\' :: v :: rest) = none :: none :: stringSlots quote rest := by
      rw [stringSlots, if_neg other, if_pos rfl]
    constructor
    · rw [made, stringRest, if_neg other, if_pos rfl, List.length_cons, List.length_cons, ih.length]
      omega
    · rw [made]
      exact Nat.succ_le_succ (Nat.succ_le_succ ih.short)
    · rw [made]
      exact .cons (.inr rfl) (.cons (.inr rfl) ih.slots)
    · rw [made, List.length_cons, List.length_cons, List.take_succ_cons, List.take_succ_cons, loses_cons,
        loses_cons, ih.loses, escapesNewline, if_pos rfl, Bool.or_eq_true, beq_iff_eq,
        or_iff_right fun both => absurd both.1 (by decide), and_iff_left rfl]
  | case7 u v rest other other' newline =>
    have made : stringSlots quote (u :: v :: rest) = [] := by
      rw [stringSlots, if_neg other, if_neg other', if_pos newline]
    constructor
    · rw [made, stringRest, if_neg other, if_neg other', if_pos ((lines u).mpr newline)]
      rfl
    · rw [made]
      exact Nat.zero_le _
    · rw [made]
      exact .nil
    · rw [made]
      exact iff_of_false loses_nil Bool.false_ne_true
  | case8 u v rest other other' plain ih =>
    have made : stringSlots quote (u :: v :: rest) =
        (if u = '\n' then some u else none) :: stringSlots quote (v :: rest) := by
      rw [stringSlots, if_neg other, if_neg other', if_neg plain]
    constructor
    · rw [made, stringRest, if_neg other, if_neg other', if_neg (mt (lines u).mp plain), List.length_cons, ih.length,
        Nat.add_comm]
    · rw [made]
      exact Nat.succ_le_succ ih.short
    · rw [made]
      refine .cons ?_ ih.slots
      split
      · exact .inl rfl
      · exact .inr rfl
    · rw [made, List.length_cons, List.take_succ_cons, loses_cons, ih.loses, escapesNewline_cons other']
      refine or_iff_right fun both => ?_
      rw [if_pos both.1] at both
      cases both.2

/-- Every place has its slot, and what is lost are the escaped newlines of the literals. -/
theorem slotsFrom_spec (enough : rest.length ≤ fuel) (before : Text) :
    Slots rest (slotsFrom fuel before rest) ∧ (Loses rest (slotsFrom fuel before rest) ↔
      ∃ literal ∈ literalsFrom fuel before rest, escapesNewline literal = true) := by
  induction fuel generalizing before rest with
  | zero =>
    obtain rfl := List.eq_nil_of_length_eq_zero (Nat.le_zero.mp enough)
    exact ⟨.nil, iff_of_false loses_nil fun ⟨_, listed, _⟩ => List.not_mem_nil listed⟩
  | succ fuel ih =>
    cases rest with
    | nil => exact ⟨.nil, iff_of_false loses_nil fun ⟨_, listed, _⟩ => List.not_mem_nil listed⟩
    | cons c rest =>
      have onward : ∀ {n : Nat} (before : Text), 0 < n → _ := fun {n} before some_ =>
        @ih ((c :: rest).drop n) (by
          rw [List.length_drop]
          omega) before
      cases found : if c = '/' then regex_literal_end before rest false else none with
      | some body =>
        simp only [slotsFrom, literalsFrom, found]
        have slash : c = '/' := by
          by_contra other
          rw [if_neg other] at found
          cases found
        rw [if_pos slash, regex_literal_end] at found
        split at found
        · obtain ⟨⟨after, whole⟩, short, same⟩ := regexBody_spec found
          have size : (rest.take body).length = body := List.length_take_of_le (Nat.le_of_lt short)
          have behind : (c :: rest).drop (body + 2) = after := by
            rw [List.drop_succ_cons, whole, ← List.drop_drop, List.drop_left' size]
            rfl
          have empty := Slots.replicate (rest.take body)
          rw [size] at empty
          obtain ⟨slots, loses⟩ := onward (n := body + 2) (((c :: rest).take (body + 2)).reverse ++ before) (by omega)
          rw [behind] at slots loses ⊢
          generalize ((c :: rest).take (body + 2)).reverse ++ before = before' at slots loses ⊢
          have parts : c :: rest = c :: (rest.take body ++ '/' :: after) := congrArg _ whole
          constructor
          · rw [parts]
            exact .cons (.inl rfl) (empty.append (.cons (.inl rfl) slots))
          · have lost := loses_replicate (rest.take body)
            rw [size] at lost
            rw [parts, loses_cons, loses_append empty, loses_cons, lost, same, loses, List.exists_mem_cons_iff,
              or_iff_right fun both => Option.some_ne_none _ both.2,
              or_iff_right (a := '/' = '\n' ∧ _) fun both => Option.some_ne_none _ both.2]
        · cases found
      | none =>
        simp only [slotsFrom, literalsFrom, found]
        split
        · next quoted =>
          obtain ⟨length, short, slots, loses⟩ := stringSlots_spec c rest
          obtain ⟨slots', loses'⟩ := onward (n := 1 + (stringSlots c rest).length)
            (((c :: rest).take (1 + (stringSlots c rest).length)).reverse ++ before) (by omega)
          have behind : (c :: rest).drop (1 + (stringSlots c rest).length) =
              rest.drop (stringSlots c rest).length := by
            rw [Nat.add_comm, List.drop_succ_cons]
          rw [← length]
          rw [behind] at slots' loses' ⊢
          generalize ((c :: rest).take (1 + (stringSlots c rest).length)).reverse ++ before = before'
            at slots' loses' ⊢
          have parts : c :: rest = c :: (rest.take (stringSlots c rest).length ++
              rest.drop (stringSlots c rest).length) := by
            rw [List.take_append_drop]
          constructor
          · rw [parts]
            exact .cons (.inl rfl) (slots.append slots')
          · rw [parts, loses_cons, loses_append slots, loses, loses', List.exists_mem_cons_iff,
              or_iff_right fun both => Option.some_ne_none _ both.2]
        · next plain =>
          obtain ⟨slots, loses⟩ := onward (n := 1) (((c :: rest).take 1).reverse ++ before) Nat.zero_lt_one
          rw [List.drop_succ_cons, List.drop_zero] at slots loses ⊢
          refine ⟨.cons (.inl rfl) slots, ?_⟩
          rw [loses_cons, loses, or_iff_right fun both => Option.some_ne_none _ both.2]

theorem fill_cons {slot : Option Char} : fill (c :: s) (slot :: out) =
    (match slot with | some ch => [ch] | none => List.replicate (lenUtf16 c) ' ') ++ fill s out := by
  rw [fill, List.zip_cons_cons, List.flatMap_cons]
  cases slot <;> rfl

theorem fill_masked (slots : Slots s out) (kept : ¬Loses s out) : Masked s (fill s out) := by
  induction slots with
  | nil => exact .nil
  | @cons c slot s out first _ ih =>
    rw [loses_cons, not_or] at kept
    have inner := ih kept.2
    rw [fill_cons]
    rcases first with rfl | rfl
    · exact .keep c inner
    · have other : c ≠ '\n' := fun newline => kept.1 ⟨newline, rfl⟩
      have masked := Masked.blank c inner
      rwa [push_blank_other other] at masked

theorem count_spaces (n : Nat) : (List.replicate n ' ').count '\n' = 0 := by
  rw [List.count_replicate, if_neg (by decide)]

theorem count_fill_le (slots : Slots s out) : (fill s out).count '\n' ≤ s.count '\n' := by
  induction slots with
  | nil => exact Nat.le_refl 0
  | @cons c slot s out first _ ih =>
    rw [fill_cons, List.count_append, List.count_cons]
    rcases first with rfl | rfl
    · simp only [List.count_singleton]
      omega
    · simp only [count_spaces]
      omega

theorem count_fill_lt (slots : Slots s out) (lost : Loses s out) :
    (fill s out).count '\n' < s.count '\n' := by
  induction slots with
  | nil => exact absurd lost loses_nil
  | @cons c slot s out first rest ih =>
    rw [fill_cons, List.count_append, List.count_cons]
    rcases loses_cons.mp lost with ⟨rfl, rfl⟩ | later
    · have le := count_fill_le rest
      simp only [count_spaces, beq_self_eq_true, if_true]
      omega
    · have less := ih later
      rcases first with rfl | rfl
      · simp only [List.count_singleton]
        omega
      · simp only [count_spaces]
        omega

theorem blank_masked (clean : ¬ContinuesLine t) : Masked t (blank_string_contents t) := by
  obtain ⟨slots, loses⟩ := slotsFrom_spec (Nat.le_refl t.length) []
  exact fill_masked slots (mt loses.mp clean)

theorem blank_loses (continues : ContinuesLine t) : (blank_string_contents t).count '\n' < t.count '\n' := by
  obtain ⟨slots, loses⟩ := slotsFrom_spec (Nat.le_refl t.length) []
  exact count_fill_lt slots (loses.mpr continues)

end CodeGraph.Resolution.Awaited
