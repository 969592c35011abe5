import CodeGraph.Foundation.Blanking
import CodeGraph.Foundation.Utf16
import CodeGraph.Foundation.Utf8

/-!
Codings that keep ASCII apart: an ASCII character is one unit of its own, and no unit of another
character is one of these.

A scanner that only looks for ASCII characters does the same on every such coding of a text.
-/
namespace CodeGraph.Codings

open AsciiBytes Blanking Text

variable {β σ : Type}

structure Coding (β : Type) where
  code : Char → List β
  /-- The unit of an ASCII character. -/
  low : Char → β
  ascii : ∀ {c}, IsAscii c → code c = [low c]
  low_inj : ∀ {c d}, IsAscii c → IsAscii d → low c = low d → c = d
  nonempty : ∀ c, code c ≠ []
  wide : ∀ {c d}, ¬IsAscii c → IsAscii d → low d ∉ code c

namespace Coding

def encode (C : Coding β) (t : List Char) : List β := t.flatMap C.code

@[simp] theorem encode_nil (C : Coding β) : C.encode [] = [] := rfl

theorem encode_cons (C : Coding β) (c : Char) (t : List Char) :
    C.encode (c :: t) = C.code c ++ C.encode t := List.flatMap_cons

theorem encode_append (C : Coding β) (t u : List Char) :
    C.encode (t ++ u) = C.encode t ++ C.encode u := List.flatMap_append

def chars : Coding Char where
  code c := [c]
  low c := c
  ascii _ := rfl
  low_inj _ _ same := same
  nonempty _ := List.cons_ne_nil _ _
  wide other ascii listed := other (List.mem_singleton.mp listed ▸ ascii)

def utf8 : Coding UInt8 where
  code := String.utf8EncodeChar
  low := asciiByte
  ascii := encode_ascii
  low_inj first second same := (asciiByte_inj first second).mp same
  nonempty _ := String.utf8EncodeChar_ne_nil
  wide other ascii listed := by
    have above := encode_other other listed
    rw [toNat_asciiByte ascii] at above
    exact absurd ascii (Nat.not_lt_of_le above)

private theorem unit_toNat {c : Char} (ascii : IsAscii c) : (c.val.toUInt16).toNat = c.val.toNat := by
  have small : c.val.toNat < 0x80 := ascii
  rw [UInt32.toNat_toUInt16, Nat.mod_eq_of_lt (by omega)]

private theorem charUnits_ascii {c : Char} (ascii : IsAscii c) : charUnits c = [c.val.toUInt16] := by
  have small : c.val < 0x10000 := by
    have small : c.val.toNat < 0x80 := ascii
    rw [UInt32.lt_iff_toNat_lt]
    exact Nat.lt_trans small (by decide)
  rw [charUnits, if_pos small]

def utf16 : Coding UInt16 where
  code := charUnits
  low c := c.val.toUInt16
  ascii := charUnits_ascii
  low_inj first second same := by
    have values := congrArg UInt16.toNat same
    rw [unit_toNat first, unit_toNat second] at values
    exact Char.ext (UInt32.toNat_inj.mp values)
  nonempty c := Utf16.synchronous.nonempty c
  wide {c d} other ascii listed := by
    have small : d.val.toUInt16.toNat < 0x80 := by
      rw [unit_toNat ascii]
      exact ascii
    rw [Utf16.eq_of_mem_charUnits listed (charUnits_ascii ascii) small] at other
    exact other ascii

/-! ### Parts of a text -/

variable (C : Coding β) {c d : Char} {t : List Char}

@[simp] theorem low_chars (c : Char) : chars.low c = c := rfl

@[simp] theorem encode_chars (t : List Char) : chars.encode t = t := List.flatMap_singleton' t

theorem encode_ascii (ascii : IsAscii c) : C.encode (c :: t) = C.low c :: C.encode t := by
  rw [encode_cons, C.ascii ascii, List.singleton_append]

theorem encode_ne_nil : C.encode t = [] ↔ t = [] := by
  cases t with
  | nil => simp
  | cons c t => simp [encode_cons, C.nonempty c]

theorem low_eq (ascii : IsAscii c) (ascii' : IsAscii d) : C.low c = C.low d ↔ c = d :=
  ⟨C.low_inj ascii ascii', fun same => same ▸ rfl⟩

theorem head_encode (ascii : IsAscii d) : (C.encode t).head? = some (C.low d) ↔ t.head? = some d := by
  cases t with
  | nil => simp
  | cons c t =>
    by_cases first : IsAscii c
    · rw [C.encode_ascii first, List.head?_cons, List.head?_cons, Option.some.injEq, Option.some.injEq,
        C.low_eq first ascii]
    · obtain ⟨u, us, word⟩ := List.exists_cons_of_ne_nil (C.nonempty c)
      have apart : u ≠ C.low d := by
        rintro rfl
        exact C.wide first ascii (word ▸ List.mem_cons_self)
      have other : c ≠ d := by
        rintro rfl
        exact first ascii
      rw [encode_cons, word, List.cons_append, List.head?_cons, List.head?_cons, Option.some.injEq,
        Option.some.injEq]
      exact iff_of_false apart other

theorem take_encode (k : Nat) :
    (C.encode t).take (C.encode (t.take k)).length = C.encode (t.take k) := by
  have parts := C.encode_append (t.take k) (t.drop k)
  rw [List.take_append_drop] at parts
  rw [parts, List.take_left]

theorem drop_encode (k : Nat) :
    (C.encode t).drop (C.encode (t.take k)).length = C.encode (t.drop k) := by
  have parts := C.encode_append (t.take k) (t.drop k)
  rw [List.take_append_drop] at parts
  rw [parts, List.drop_left]

theorem apart (other : c ≠ d) (ascii : IsAscii d) {u : β} (listed : u ∈ C.code c) : u ≠ C.low d := by
  rintro rfl
  by_cases first : IsAscii c
  · rw [C.ascii first, List.mem_singleton, C.low_eq ascii first] at listed
    exact other listed.symm
  · exact C.wide first ascii listed

/-- Behind the first unit of a character there is none of ASCII. -/
theorem apart_tail {u : β} {us : List β} (word : C.code c = u :: us) (ascii : IsAscii d) {v : β}
    (listed : v ∈ us) : v ≠ C.low d := by
  by_cases first : IsAscii c
  · rw [C.ascii first] at word
    cases word
    cases listed
  · rintro rfl
    exact C.wide first ascii (word ▸ List.mem_cons_of_mem u listed)

theorem length_take_cons (k : Nat) : (C.encode ((c :: t).take (1 + k))).length =
    (C.code c).length + (C.encode (t.take k)).length := by
  rw [Nat.add_comm, List.take_succ_cons, encode_cons, List.length_append]

theorem length_ascii (all : ∀ c ∈ t, IsAscii c) : (C.encode t).length = t.length := by
  induction t with
  | nil => rfl
  | cons c t ih =>
    rw [C.encode_ascii (all c List.mem_cons_self), List.length_cons, List.length_cons,
      ih fun d listed => all d (List.mem_cons_of_mem c listed)]

theorem encode_replicate (ascii : IsAscii c) (n : Nat) :
    C.encode (List.replicate n c) = List.replicate n (C.low c) := by
  induction n with
  | zero => rfl
  | succ n ih => rw [List.replicate_succ, C.encode_ascii ascii, ih, List.replicate_succ]

theorem isPrefixOf_encode [BEq β] [LawfulBEq β] {ps : List Char} (ascii : ∀ p ∈ ps, IsAscii p) :
    (C.encode ps).isPrefixOf (C.encode t) = ps.isPrefixOf t := by
  induction ps generalizing t with
  | nil => cases t <;> rfl
  | cons p ps ih =>
    have first := ascii p List.mem_cons_self
    rw [C.encode_ascii first]
    have head := C.head_encode (t := t) first
    cases t with
    | nil => rfl
    | cons c t =>
      by_cases same : c = p
      · subst same
        rw [C.encode_ascii first, List.isPrefixOf_cons_cons, List.isPrefixOf_cons_cons, beq_self_eq_true,
          beq_self_eq_true, ih fun q listed => ascii q (List.mem_cons_of_mem c listed)]
      · have other : ¬(C.encode (c :: t)).head? = some (C.low p) := by
          rw [head]
          simpa using same
        obtain ⟨u, us, word⟩ := List.exists_cons_of_ne_nil
          (mt C.encode_ne_nil.mp (List.cons_ne_nil c t))
        rw [word, List.head?_cons, Option.some.injEq] at other
        rw [word, List.isPrefixOf_cons_cons, List.isPrefixOf_cons_cons,
          beq_eq_false_iff_ne.mpr (Ne.symm other), beq_eq_false_iff_ne.mpr (Ne.symm same),
          Bool.false_and, Bool.false_and]

end Coding

def written {α : Type} (round : σ → List α → Token σ) (blank : List α → List α) :
    Nat → σ → List α → List α
  | 0, _, rest => rest
  | _ + 1, _, [] => []
  | fuel + 1, state, u :: rest =>
    let t := round state (u :: rest)
    let chunk := (u :: rest).take t.length
    (if t.kind = .blank then blank chunk else chunk) ++
      written round blank fuel t.next ((u :: rest).drop t.length)

theorem blanked_eq_written {α : Type} (round : σ → List α → Token σ) (blank : α → α) (fuel : Nat)
    (state : σ) (rest : List α) :
    blanked round blank fuel state rest = written round (List.map blank) fuel state rest := by
  induction fuel generalizing state rest with
  | zero => rfl
  | succ fuel ih =>
    cases rest with
    | nil => rfl
    | cons u rest =>
      rw [blanked, written]
      exact congrArg _ (ih _ _)

/-- A round on units reads the token that the round on characters reads. -/
structure Follows (C : Coding β) (onChars : σ → List Char → Token σ) (onUnits : σ → List β → Token σ) :
    Prop where
  progress : ∀ state c t, 0 < (onChars state (c :: t)).length
  ascii : ∀ state c t, IsAscii c → onUnits state (C.encode (c :: t)) =
    { onChars state (c :: t) with
      length := (C.encode ((c :: t).take (onChars state (c :: t)).length)).length }
  /-- A character that is none of ASCII is passed, and unit by unit the same way. -/
  wide : ∀ state c t, ¬IsAscii c → ∃ next, onChars state (c :: t) = ⟨.plain, 1, next⟩ ∧
    ∀ u ∈ C.code c, ∀ rest, onUnits state (u :: rest) = ⟨.plain, 1, next⟩ ∧
      onUnits next (u :: rest) = ⟨.plain, 1, next⟩

section Run

variable {C : Coding β} {onChars : σ → List Char → Token σ} {onUnits : σ → List β → Token σ}
  {blankChars : List Char → List Char} {blankUnits : List β → List β}

private theorem written_plain {state next : σ} {us rest : List β} (some_ : us ≠ [])
    (first : ∀ u ∈ us, ∀ rest, onUnits state (u :: rest) = ⟨.plain, 1, next⟩)
    (later : ∀ u ∈ us, ∀ rest, onUnits next (u :: rest) = ⟨.plain, 1, next⟩) (fuel : Nat) :
    written onUnits blankUnits (us.length + fuel) state (us ++ rest) =
      us ++ written onUnits blankUnits fuel next rest := by
  induction us generalizing state with
  | nil => exact absurd rfl some_
  | cons u us ih =>
    have count : (u :: us).length + fuel = us.length + fuel + 1 := by
      rw [List.length_cons]
      omega
    rw [count, List.cons_append, written, first u List.mem_cons_self]
    show [u] ++ written onUnits blankUnits (us.length + fuel) next (us ++ rest) = _
    have onward : written onUnits blankUnits (us.length + fuel) next (us ++ rest) =
        us ++ written onUnits blankUnits fuel next rest := by
      cases us with
      | nil => rw [List.length_nil, Nat.zero_add, List.nil_append, List.nil_append]
      | cons v us =>
        exact ih (List.cons_ne_nil v us) (fun w listed => later w (List.mem_cons_of_mem u listed))
          fun w listed => later w (List.mem_cons_of_mem u listed)
    rw [onward]
    rfl

/-- What is written for a coded text is the code of what is written for the text. -/
theorem Follows.written_encode (follows : Follows C onChars onUnits)
    (blanks : ∀ t, blankUnits (C.encode t) = C.encode (blankChars t)) {fuel fuel' : Nat} {state : σ}
    {t : List Char} (enough : t.length ≤ fuel) (enough' : (C.encode t).length ≤ fuel') :
    written onUnits blankUnits fuel' state (C.encode t) =
      C.encode (written onChars blankChars fuel state t) := by
  induction fuel generalizing fuel' state t with
  | zero =>
    obtain rfl := List.eq_nil_of_length_eq_zero (Nat.le_zero.mp enough)
    cases fuel' <;> rfl
  | succ fuel ih =>
    cases t with
    | nil => cases fuel' <;> rfl
    | cons c t =>
      by_cases first : IsAscii c
      · obtain ⟨fuel', rfl⟩ : ∃ n, fuel' = n + 1 := by
          refine ⟨fuel' - 1, ?_⟩
          rw [C.encode_ascii first, List.length_cons] at enough'
          omega
        have token := follows.ascii state c t first
        have positive := follows.progress state c t
        rw [written]
        generalize onChars state (c :: t) = k at token positive ⊢
        have shape := C.encode_ascii (t := t) first
        rw [shape, written, ← shape, token]
        simp only [C.take_encode, C.drop_encode]
        have fewer : ((c :: t).drop k.length).length ≤ fuel := by
          rw [List.length_drop]
          omega
        have fewer' : (C.encode ((c :: t).drop k.length)).length ≤ fuel' := by
          rw [← C.drop_encode, List.length_drop]
          have some_ : 0 < (C.encode ((c :: t).take k.length)).length := by
            refine List.length_pos_of_ne_nil (mt C.encode_ne_nil.mp ?_)
            rw [List.take_eq_nil_iff, not_or]
            exact ⟨by omega, List.cons_ne_nil c t⟩
          omega
        rw [ih fewer fewer', C.encode_append]
        congr 1
        split
        · exact blanks _
        · rfl
      · obtain ⟨next, here, units⟩ := follows.wide state c t first
        rw [C.encode_cons, List.length_append] at enough'
        obtain ⟨more, rfl⟩ := Nat.exists_eq_add_of_le (Nat.le_of_add_right_le enough')
        have fewer : t.length ≤ fuel := Nat.le_of_succ_le_succ enough
        have fewer' : (C.encode t).length ≤ more := by omega
        rw [C.encode_cons, written_plain (C.nonempty c) (fun u listed rest => (units u listed rest).1)
          (fun u listed rest => (units u listed rest).2), ih fewer fewer', written, here]
        simp only [List.take_succ_cons, List.take_zero, List.drop_succ_cons, List.drop_zero]
        rw [C.encode_append, if_neg (by decide), C.encode_cons, C.encode_nil, List.append_nil]

end Run

end CodeGraph.Codings
