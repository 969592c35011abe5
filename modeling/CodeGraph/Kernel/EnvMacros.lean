import CodeGraph.Kernel.JsBytes
import CodeGraph.Resolution.MacroPatterns

/-!
# The macros of a file, read from bytes

The native side reads the definitions of a text from line start to line start, and what each gives it
at one place is what its text gives.
-/
namespace CodeGraph.Kernel.EnvMacros

open CharOffsets AsciiBytes Utf8 JsText JsBytes

structure FnMacro where
  name : String
  params : List String
  expansion : String
  deriving DecidableEq, Repr

/-- The tables that `file_env` returns. -/
structure FileEnv where
  fnMacros : List FnMacro
  objMacros : List (String × String)
  defined : List String
  deriving DecidableEq, Repr

/-- `String::from_utf8_lossy` -/
def bytesToString (bytes : Bytes) : String := Text.utf8Decode bytes

def joinContinuations : Bytes → Bytes
  | [] => []
  | 0x5C :: 0x0A :: s => 0x20 :: joinContinuations s
  | 0x5C :: 0x0D :: 0x0A :: s => 0x20 :: joinContinuations s
  | b :: s => b :: joinContinuations s

/-- `define` -/
def define : Bytes := [0x64, 0x65, 0x66, 0x69, 0x6E, 0x65]

/-- Where the name of a definition is, on the line from `a` to `b`. -/
def defineNameAt (s : Bytes) (a b : Nat) : Option Nat :=
  let i := advance isBlank (s.take b) a
  -- `#`
  if s[i]? ≠ some 0x23 then none
  else
    let i := advance isBlank (s.take b) (i + 1)
    if b < i + 6 ∨ slice s i (i + 6) ≠ define then none
    else
      let ws := i + 6
      let i := advance isBlank (s.take b) ws
      if i = ws then none else some i

/-- A part that is trimmed, unless nothing is left of it. -/
def trimmed (s : Bytes) (seg i : Nat) : List String :=
  let (ta, tb) := jsTrim s seg i
  if ta < tb then [bytesToString (slice s ta tb)] else []

/-- The parts of `[a, b)` between commas, `fuel` places before the end. -/
def paramsFrom (s : Bytes) (b : Nat) : Nat → Nat → Nat → List String
  | 0, _, _ => []
  | fuel + 1, seg, i =>
    if i = b ∨ s[i]? = some 0x2C then trimmed s seg i ++ paramsFrom s b fuel (i + 1) (i + 1)
    else paramsFrom s b fuel seg (i + 1)

def paramsRaw (s : Bytes) (a b : Nat) : List String := paramsFrom s b (b + 1 - a) a a

/-! ### Rounds -/

/-- The rounds of a reader at places below `limit`: each may find something, and says where the next one
is. -/
def rounds {α : Type} (round : Nat → Option α × Option Nat) (limit : Nat) : Nat → Nat → List α
  | 0, _ => []
  | fuel + 1, pos =>
    if pos < limit then
      (round pos).1.toList ++
        match (round pos).2 with
        | none => []
        | some next => rounds round limit fuel next
    else []

def fnRound (joined : Bytes) (pos : Nat) : Option FnMacro × Option Nat :=
  match defineNameAt joined pos joined.length with
  | none => (none, nextAnchor joined pos)
  | some nameAt =>
    let ne := wordEnd joined nameAt
    -- `(`
    if joined[ne]? ≠ some 0x28 then (none, nextAnchor joined pos)
    else
      -- up to `)`
      let j := advance (· != 0x29) joined (ne + 1)
      if joined.length ≤ j then (none, none)
      else
        let k := skipJsws joined (j + 1)
        let e := dotEnd joined k
        if k = j + 1 ∨ e = k then (none, nextAnchor joined pos)
        else
          let (ta, tb) := jsTrim joined k e
          let expansion := bytesToString (slice joined ta tb)
          let params := paramsRaw joined (ne + 1) j
          let found :=
            if params.all (fun p => p != "..." && !(['.', '.', '.'].isSuffixOf p.toList)) then
              some ⟨bytesToString (slice joined nameAt ne), params, expansion⟩
            else none
          (found, nextAnchor joined e)

def parseFnMacros (joined : Bytes) : List FnMacro :=
  rounds (fnRound joined) joined.length joined.length 0

def objRound (joined : Bytes) (pos : Nat) : Option (String × String) × Option Nat :=
  match defineNameAt joined pos joined.length with
  | none => (none, nextAnchor joined pos)
  | some nameAt =>
    let ne := wordEnd joined nameAt
    let k := advance isBlank joined ne
    if k = ne ∨ 0 < jswsLen joined k ∨ joined.length ≤ k then (none, nextAnchor joined pos)
    else
      let eol := advance (· != 0x0A) joined k
      let (ta, tb) := jsTrim joined k eol
      (some (bytesToString (slice joined nameAt ne), bytesToString (slice joined ta tb)), some (eol + 1))

def parseObjMacros (joined : Bytes) : List (String × String) :=
  rounds (objRound joined) joined.length joined.length 0

def definedRound (stripped : Bytes) (pos : Nat) : Option String × Option Nat :=
  match defineNameAt stripped pos stripped.length with
  | none => (none, nextAnchor stripped pos)
  | some nameAt =>
    let ne := wordEnd stripped nameAt
    (some (bytesToString (slice stripped nameAt ne)), nextAnchor stripped ne)

def parseDefinedNames (stripped : Bytes) : List String :=
  rounds (definedRound stripped) stripped.length stripped.length 0

def containsBytes (s needle : Bytes) : Bool := s.tails.any needle.isPrefixOf

def hasDefine (stripped : Bytes) : Bool :=
  containsBytes stripped (0x23 :: define) || containsBytes stripped (0x23 :: 0x20 :: define)

/-- The tables of `file_env`, from the text without comments. -/
def fileEnv (stripped : Bytes) : FileEnv :=
  if hasDefine stripped then
    let joined := joinContinuations stripped
    ⟨parseFnMacros joined, parseObjMacros joined, parseDefinedNames stripped⟩
  else ⟨[], [], []⟩

open Resolution.Macros (defineHead skipBlanks FunctionMatch paramsOf isVariadic MacroDef)

variable {s : Bytes} {i a : Nat} {t u m rest : Text}

theorem bytesToString_encode (t : Text) : bytesToString (encode t) = String.ofList t := by
  have bytes : encode t = Text.utf8 (String.ofList t) := by rw [Text.utf8, String.toList_ofList, encode]
  rw [bytesToString, bytes, Text.utf8Decode_utf8]

theorem tells_blank : Tells isBlank Resolution.Macros.isBlank where
  ascii c ascii := by
    have all : ∀ n < 128, isBlank (asciiByte (Char.ofNat n)) = Resolution.Macros.isBlank (Char.ofNat n) := by
      decide
    exact forall_ascii (P := fun c => isBlank (asciiByte c) = Resolution.Macros.isBlank c) all ascii
  other c other b high := by
    have plain : isBlank b = false := by
      rw [Bool.eq_false_iff]
      intro blank
      simp only [isBlank, ← UInt8.toNat_inj, beq_iff_eq, Bool.or_eq_true, UInt8.toNat_ofNat,
        Nat.reducePow, Nat.reduceMod] at blank
      omega
    rw [plain]
    cases blank : Resolution.Macros.isBlank c with
    | false => rfl
    | true =>
      have cases : c = ' ' ∨ c = '\t' := by simpa [Resolution.Macros.isBlank] using blank
      rcases cases with rfl | rfl <;> exact absurd (by decide) other

/-- The bytes of `define` at a place. -/
theorem define_at (at_ : At s i t) :
    (s.length < i + 6 ∨ JsBytes.slice s i (i + 6) ≠ define) ↔ ¬Resolution.Macros.define.isPrefixOf t := by
  have ascii : ∀ c ∈ Resolution.Macros.define, IsAscii c := by decide
  have bytes : Resolution.Macros.define.flatMap String.utf8EncodeChar = define := by decide
  rw [← isPrefixOf_encode ascii, bytes, List.isPrefixOf_iff_prefix, List.prefix_iff_eq_take]
  have rest : t.flatMap String.utf8EncodeChar = s.drop i := at_.symm
  have part : JsBytes.slice s i (i + 6) = (s.drop i).take define.length := by
    rw [JsBytes.slice, List.drop_take, Nat.add_sub_cancel_left]
    rfl
  rw [rest, ← part, eq_comm]
  constructor
  · rintro (short | other) same
    · have length := congrArg List.length same
      rw [JsBytes.slice, List.length_drop, List.length_take] at length
      simp only [define, List.length_cons, List.length_nil] at length
      omega
    · exact other same
  · exact Or.inr

theorem defineNameAt_at (at_ : At s a t) :
    Sees s a (defineNameAt s a s.length) (defineHead t) := by
  rw [defineNameAt, defineHead, List.take_length]
  dsimp only
  have lead := advance_at tells_blank at_
  have hash := lead.byte (d := '#') (by decide)
  have le := le_advance isBlank s a
  generalize advance isBlank s a = i at lead hash le
  change At s i (skipBlanks t) at lead
  rw [← skipBlanks] at hash
  split
  · next other =>
    split
    · next u shape => exact absurd (hash.mpr (by rw [shape]; rfl)) other
    · exact .none
  · next is_hash =>
    obtain ⟨u, shape⟩ := List.head?_eq_some_iff.mp (hash.mp (not_not.mp is_hash))
    rw [shape] at lead
    simp only [shape]
    have first := lead.first
    have gap := advance_at tells_blank lead.tail
    have le' := le_advance isBlank s (i + 1)
    have most := advance_le (p := isBlank) (show i + 1 ≤ s.length from first)
    change At s (advance isBlank s (i + 1)) (skipBlanks u) at gap
    generalize advance isBlank s (i + 1) = j at gap le' most
    have word := define_at gap
    split
    · next other =>
      rw [if_neg (word.mp other)]
      exact .none
    · next named =>
      have starts := not_not.mp (mt word.mpr named)
      rw [if_pos starts]
      obtain ⟨v, whole⟩ := List.isPrefixOf_iff_prefix.mp starts
      have after : (skipBlanks u).drop 6 = v := by rw [← whole]; rfl
      have there : At s (j + 6) v := by
        rw [← whole] at gap
        exact gap.skip
      have inside : j + 6 ≤ s.length := by
        rw [not_or, Nat.not_lt] at named
        exact named.1
      have place := advance_eq tells_blank there
      have last := advance_at tells_blank there
      have fits := advance_le (p := isBlank) inside
      have later := le_advance isBlank s (j + 6)
      rw [after]
      cases v with
      | nil =>
        rw [if_pos (by rw [place]; rfl)]
        exact .none
      | cons c v =>
        cases blank : Resolution.Macros.isBlank c with
        | false =>
          rw [List.takeWhile_cons_of_neg (by simp [blank])] at place
          rw [if_pos (by rw [place]; rfl)]
          simp only [blank, Bool.false_eq_true, if_false]
          exact .none
        | true =>
          have positive := c.utf8Size_pos
          rw [List.takeWhile_cons_of_pos blank, encode_cons, List.length_append,
            String.length_utf8EncodeChar] at place
          rw [List.dropWhile_cons_of_pos blank] at last
          rw [if_neg (by omega)]
          simp only [blank, if_true]
          exact .some last (by omega) fits

theorem paramsFrom_skip {b seg fuel : Nat} (k : Nat)
    (plain : ∀ j < k, i + j ≠ b ∧ s[i + j]? ≠ some 0x2C) :
    paramsFrom s b (fuel + k) seg i = paramsFrom s b fuel seg (i + k) := by
  induction k generalizing i with
  | zero => rfl
  | succ k ih =>
    have first := plain 0 (Nat.succ_pos k)
    rw [Nat.add_zero] at first
    rw [← Nat.add_assoc, paramsFrom, if_neg (not_or.mpr first), ih, Nat.add_assoc, Nat.add_comm 1 k]
    intro j less
    have next := plain (j + 1) (Nat.succ_lt_succ less)
    rwa [← Nat.add_assoc, Nat.add_right_comm] at next

theorem trimmed_at {seg : Nat} (at_ : At s seg (m ++ rest)) (within : seg ≤ s.length) :
    (trimmed s seg (seg + (encode m).length)).map String.toList =
      [trim m].filter fun p => !p.isEmpty := by
  obtain ⟨a, ends, part⟩ := jsTrim_at at_ within
  rw [trimmed, ends]
  dsimp only
  rw [part, bytesToString_encode]
  cases shape : trim m with
  | nil => simp
  | cons c t =>
    have positive := c.utf8Size_pos
    rw [if_pos]
    · simp
    · rw [encode_cons, List.length_append, String.length_utf8EncodeChar]
      omega

theorem paramsOf_plain {p : Text} (plain : ',' ∉ p) :
    paramsOf p = [trim p].filter fun p => !p.isEmpty := by
  rw [paramsOf, List.splitOn_eq_singleton plain, List.map_singleton]

theorem paramsOf_comma {p : Text} (plain : ',' ∉ p) (m : Text) :
    paramsOf (p ++ ',' :: m) = ([trim p].filter fun p => !p.isEmpty) ++ paramsOf m := by
  rw [paramsOf, List.splitOn_append_cons_self_of_not_mem plain, List.map_cons, ← List.singleton_append,
    List.filter_append, paramsOf]

theorem paramsFrom_at {p : Text} {i b : Nat} (at_ : At s i (p ++ (m ++ rest)))
    (within : i ≤ s.length) (plain : ',' ∉ p) (ends : b = i + (encode (p ++ m)).length) :
    (paramsFrom s b ((encode m).length + 1) i (i + (encode p).length)).map String.toList =
      paramsOf (p ++ m) := by
  induction m generalizing p i with
  | nil =>
    have part := trimmed_at at_ within
    rw [List.append_nil] at ends ⊢
    rw [paramsFrom, if_pos (Or.inl ends.symm), List.map_append, part, paramsOf_plain plain]
    exact List.append_nil _
  | cons c m ih =>
    have positive := c.utf8Size_pos
    have here : At s (i + (encode p).length) (c :: (m ++ rest)) := At.skip at_
    have first := here.first
    have length : (encode (p ++ c :: m)).length =
        (encode p).length + c.utf8Size + (encode m).length := by
      rw [encode_append, encode_cons, List.length_append, List.length_append,
        String.length_utf8EncodeChar, Nat.add_assoc]
    rw [encode_cons, List.length_append, String.length_utf8EncodeChar]
    by_cases comma : c = ','
    · subst comma
      have byte : s[i + (encode p).length]? = some 0x2C :=
        (here.byte (d := ',') (by decide)).mpr rfl
      have size : (',' : Char).utf8Size = 1 := by decide
      have part := trimmed_at at_ within
      have next := ih (p := []) (i := i + (encode p).length + 1) here.tail (by omega)
        List.not_mem_nil (by rw [ends, length, size, List.nil_append]; omega)
      rw [size, Nat.add_comm 1, paramsFrom, if_pos (Or.inr byte), List.map_append, part,
        paramsOf_comma plain]
      exact congrArg _ next
    · have bytes : ∀ j < c.utf8Size, i + (encode p).length + j ≠ b ∧
          s[i + (encode p).length + j]? ≠ some 0x2C := by
        intro j inside
        refine ⟨by omega, fun byte => ?_⟩
        rcases Nat.eq_zero_or_pos j with rfl | later
        · exact comma (Option.some.inj ((here.byte (d := ',') (by decide)).mp byte))
        · obtain ⟨d, within, high, -⟩ := here.within inside (by omega)
          rw [within, Option.some.injEq] at byte
          subst byte
          exact absurd high (by decide)
      have whole : p ++ [c] ++ m = p ++ c :: m := by simp
      have next := ih (p := p ++ [c]) (i := i) (by simpa using at_) within
        (by simp [plain, Ne.symm comma]) (by rw [whole, ends])
      have place : i + (encode (p ++ [c])).length = i + (encode p).length + c.utf8Size := by
        simp [Nat.add_assoc]
      rw [Nat.add_comm c.utf8Size, Nat.add_right_comm, paramsFrom_skip _ bytes, ← place, next, whole]

theorem paramsRaw_at (at_ : At s a (m ++ rest)) (within : a ≤ s.length) :
    (paramsRaw s a (a + (encode m).length)).map String.toList = paramsOf m := by
  have all := paramsFrom_at (p := []) at_ within List.not_mem_nil rfl
  rw [paramsRaw, Nat.add_right_comm, Nat.add_assoc, Nat.add_sub_cancel_left, Nat.add_comm 1]
  exact all

/-! ### The joined text -/

theorem encode_eq_cons {d : Char} (ascii : IsAscii d) {x : Bytes} (shape : encode t = asciiByte d :: x) :
    ∃ u, t = d :: u ∧ x = encode u := by
  have at_ : At (encode t) 0 t := rfl
  have byte := at_.byte ascii
  rw [shape] at byte
  obtain ⟨u, rfl⟩ := List.head?_eq_some_iff.mp (byte.mp rfl)
  rw [encode_cons, encode_ascii ascii, List.singleton_append, List.cons.injEq] at shape
  exact ⟨u, rfl, shape.2.symm⟩

theorem joinContinuations_ne {b : UInt8} (other : b ≠ 0x5C) (s : Bytes) :
    joinContinuations (b :: s) = b :: joinContinuations s := by
  rw [joinContinuations]
  · rintro x rfl
    exact absurd rfl other
  · rintro x rfl
    exact absurd rfl other

theorem joinContinuations_append {x : Bytes} (other : ∀ b ∈ x, b ≠ 0x5C) (s : Bytes) :
    joinContinuations (x ++ s) = x ++ joinContinuations s := by
  induction x with
  | nil => rfl
  | cons b x ih =>
    rw [List.cons_append, joinContinuations_ne (other b List.mem_cons_self),
      ih fun b listed => other b (List.mem_cons_of_mem _ listed), List.cons_append]

theorem joinContinuations_encode (t : Text) :
    joinContinuations (encode t) = encode (Resolution.Macros.joinContinuations t) := by
  fun_induction Resolution.Macros.joinContinuations t with
  | case1 => rfl
  | case2 t ih =>
    have bytes : encode ('\\' :: '\n' :: t) = 0x5C :: 0x0A :: encode t := rfl
    rw [bytes, joinContinuations, ih]
    rfl
  | case3 t ih =>
    have bytes : encode ('\\' :: '\r' :: '\n' :: t) = 0x5C :: 0x0D :: 0x0A :: encode t := rfl
    rw [bytes, joinContinuations, ih]
    rfl
  | case4 c t line crlf ih =>
    rw [encode_cons, encode_cons]
    by_cases slash : c = '\\'
    · subst slash
      have byte : String.utf8EncodeChar '\\' = [0x5C] := by decide
      rw [byte, List.singleton_append, List.singleton_append, joinContinuations, ih]
      · rintro x - shape
        obtain ⟨u, rfl, -⟩ := encode_eq_cons (d := '\n') (by decide) shape
        exact line u rfl rfl
      · rintro x - shape
        obtain ⟨u, rfl, after⟩ := encode_eq_cons (d := '\r') (by decide) shape
        obtain ⟨v, rfl, -⟩ := encode_eq_cons (d := '\n') (by decide) after.symm
        exact crlf v rfl rfl
    · have other : ∀ b ∈ String.utf8EncodeChar c, b ≠ 0x5C := by
        rintro b listed rfl
        have whole := byte_of_ascii listed (by decide)
        have ascii : IsAscii c := isAscii_iff.mpr whole.1
        rw [encode_ascii ascii, List.mem_singleton] at listed
        exact slash ((asciiByte_inj ascii (by decide)).mp listed.symm)
      rw [joinContinuations_append other, ih]

theorem containsBytes_cons (b : UInt8) (s needle : Bytes) :
    containsBytes (b :: s) needle = (needle.isPrefixOf (b :: s) || containsBytes s needle) := by
  rfl

theorem containsBytes_append {x : Bytes} {b : UInt8} (other : ∀ y ∈ x, y ≠ b) (s needle : Bytes) :
    containsBytes (x ++ s) (b :: needle) = containsBytes s (b :: needle) := by
  induction x with
  | nil => rfl
  | cons y x ih =>
    have first := (other y List.mem_cons_self).symm
    rw [List.cons_append, containsBytes_cons, List.isPrefixOf, beq_eq_false_iff_ne.mpr first,
      Bool.false_and, Bool.false_or, ih fun y listed => other y (List.mem_cons_of_mem _ listed)]

/-- A word of ASCII is in the bytes of a text just when it is in the text. -/
theorem containsBytes_encode {d : Char} {word : Text} (ascii : ∀ c ∈ d :: word, IsAscii c) (t : Text) :
    containsBytes (encode t) (encode (d :: word)) = Resolution.Macros.includes t (d :: word) := by
  have first := ascii d List.mem_cons_self
  have shape : encode (d :: word) = asciiByte d :: encode word := by
    rw [encode_cons, encode_ascii first, List.singleton_append]
  induction t with
  | nil =>
    rw [shape]
    rfl
  | cons c t ih =>
    have starts : (encode (d :: word)).isPrefixOf (encode (c :: t)) = (d :: word).isPrefixOf (c :: t) :=
      isPrefixOf_encode ascii
    have step : Resolution.Macros.includes (c :: t) (d :: word) =
        ((d :: word).isPrefixOf (c :: t) || Resolution.Macros.includes t (d :: word)) := rfl
    rw [step, ← starts, ← ih, encode_cons]
    by_cases same : IsAscii c
    · rw [encode_ascii same, List.singleton_append, containsBytes_cons]
    · have other : ∀ y ∈ String.utf8EncodeChar c, y ≠ asciiByte d := by
        rintro y listed rfl
        have high := encode_other same listed
        rw [toNat_asciiByte first] at high
        exact absurd first (Nat.not_lt_of_le high)
      obtain ⟨b, bytes, whole⟩ := List.exists_cons_of_ne_nil (String.utf8EncodeChar_ne_nil (c := c))
      have apart := (other b (whole ▸ List.mem_cons_self)).symm
      rw [shape, containsBytes_append other, whole, List.cons_append, List.isPrefixOf,
        beq_eq_false_iff_ne.mpr apart, Bool.false_and, Bool.false_or]

theorem hasDefine_encode (t : Text) : hasDefine (encode t) = Resolution.Macros.hasDefine t := by
  have near : containsBytes (encode t) (encode ('#' :: Resolution.Macros.define)) = _ :=
    containsBytes_encode (by decide) t
  have apart : containsBytes (encode t) (encode ('#' :: ' ' :: Resolution.Macros.define)) = _ :=
    containsBytes_encode (by decide) t
  rw [hasDefine, Resolution.Macros.hasDefine, ← near, ← apart]
  rfl

/-- What a reader finds that goes from one line start of a text to another. -/
inductive Reads {α : Type} (step : Text → Option α × Option Text) : Text → List α → Prop
  | stop {t : Text} (ends : (step t).2 = none) : Reads step t (step t).1.toList
  | next {t u : Text} {l : List α} (goes : (step t).2 = some u) (later : Reads step u l) :
      Reads step t ((step t).1.toList ++ l)

section Reads

variable {α β : Type} {step : Text → Option α × Option Text} {l : List α}

theorem exists_reads (shorter : ∀ t u, (step t).2 = some u → u.length < t.length) (t : Text) :
    ∃ l, Reads step t l := by
  induction length : t.length using Nat.strongRecOn generalizing t with
  | ind n ih =>
    subst length
    cases goes : (step t).2 with
    | none => exact ⟨_, .stop goes⟩
    | some u =>
      obtain ⟨l, later⟩ := ih u.length (shorter t u goes) u rfl
      exact ⟨_, .next goes later⟩

inductive Next (s : Bytes) (pos : Nat) : Option Nat → Option Text → Prop
  | none : Next s pos none none
  | beyond {j : Nat} (end_ : s.length ≤ j) : Next s pos (some j) none
  | some {j : Nat} {u : Text} (at_ : At s j u) (later : pos < j) (within : j ≤ s.length) :
      Next s pos (some j) (some u)

theorem Next.of_sees {pos : Nat} {place : Option Nat} {text : Option Text}
    (sees : Sees s (pos + 1) place text) : Next s pos place text := by
  cases sees with
  | none => exact .none
  | some at_ later within => exact .some at_ later within

theorem rounds_at {round : Nat → Option β × Option Nat} {entry : β → α}
    (agree : ∀ pos t, At s pos t → pos < s.length →
      (round pos).1.map entry = (step t).1 ∧ Next s pos (round pos).2 (step t).2)
    (empty : step [] = (none, none)) (reads : Reads step t l) {pos fuel : Nat} (at_ : At s pos t)
    (within : pos ≤ s.length) (enough : s.length ≤ pos + fuel) :
    (rounds round s.length fuel pos).map entry = l := by
  induction reads generalizing pos fuel with
  | @stop t ends =>
    by_cases more : pos < s.length
    · obtain ⟨found, next⟩ := agree pos t at_ more
      obtain ⟨fuel, rfl⟩ : ∃ n, fuel = n + 1 := ⟨fuel - 1, by omega⟩
      rw [ends] at next
      rw [rounds, if_pos more, List.map_append, ← Option.toList_map, found]
      have last : (match (round pos).2 with
          | none => []
          | some next => rounds round s.length fuel next) = [] := by
        generalize (round pos).2 = place at next
        cases next with
        | none => rfl
        | @beyond j end_ =>
          cases fuel with
          | zero => rfl
          | succ fuel => exact if_neg (Nat.not_lt.mpr end_)
      rw [last]
      exact List.append_nil _
    · obtain rfl : t = [] := at_.nil (Nat.not_lt.mp more)
      rw [empty]
      cases fuel with
      | zero => rfl
      | succ fuel =>
        rw [rounds, if_neg more]
        rfl
  | @next t u l goes later ih =>
    by_cases more : pos < s.length
    · obtain ⟨found, next⟩ := agree pos t at_ more
      obtain ⟨fuel, rfl⟩ : ∃ n, fuel = n + 1 := ⟨fuel - 1, by omega⟩
      rw [goes] at next
      rw [rounds, if_pos more, List.map_append, ← Option.toList_map, found]
      generalize (round pos).2 = place at next
      cases next with
      | @some j u there later within => exact congrArg _ (ih there within (by omega))
    · obtain rfl : t = [] := at_.nil (Nat.not_lt.mp more)
      rw [empty] at goes
      cases goes

end Reads

/-! ### The rounds by their texts -/

def fnStep (t : Text) : Option (Text × MacroDef) × Option Text :=
  match defineHead t with
  | none => (none, nextLine t)
  | some u =>
    match afterWord u with
    | '(' :: v =>
      match v.dropWhile (· ≠ ')') with
      | [] => (none, none)
      | _ :: w =>
        let body := (skipSpace w).takeWhile fun c => !isTerminator c
        if w = skipSpace w ∨ body = [] then (none, nextLine t)
        else (FunctionMatch.entry ⟨wordAt u, v.takeWhile (· ≠ ')'), body⟩,
          nextLine ((skipSpace w).dropWhile fun c => !isTerminator c))
    | _ => (none, nextLine t)

def objStep (t : Text) : Option (Text × Text) × Option Text :=
  match defineHead t with
  | none => (none, nextLine t)
  | some u =>
    match skipBlanks (afterWord u) with
    | [] => (none, nextLine t)
    | c :: w =>
      if afterWord u = c :: w ∨ isSpace c = true then (none, nextLine t)
      else
        (some (wordAt u, trim ((c :: w).takeWhile (· ≠ '\n'))),
          match (c :: w).dropWhile (· ≠ '\n') with
          | [] => none
          | _ :: rest => some rest)

def definedStep (t : Text) : Option Text × Option Text :=
  match defineHead t with
  | none => (none, nextLine t)
  | some u => (some (wordAt u), nextLine (afterWord u))

def FnMacro.entry (m : FnMacro) : Text × MacroDef :=
  (m.name.toList, ⟨m.params.map String.toList, m.expansion.toList⟩)

def objEntry (m : String × String) : Text × Text := (m.1.toList, m.2.toList)

variable {pos : Nat}

theorem word_at (at_ : At s i t) : bytesToString (JsBytes.slice s i (wordEnd s i)) = String.ofList (wordAt t) := by
  have parts : At s i (wordAt t ++ afterWord t) := by rwa [wordAt_append_afterWord]
  have place : wordEnd s i = i + (encode (wordAt t)).length := advance_eq tells_word at_
  rw [place, slice_at parts, bytesToString_encode]

theorem definedRound_at (at_ : At s pos t) (within : pos < s.length) :
    (definedRound s pos).1.map String.toList = (definedStep t).1 ∧
      Next s pos (definedRound s pos).2 (definedStep t).2 := by
  have sees := defineNameAt_at at_
  rw [definedRound, definedStep]
  generalize defineNameAt s pos s.length = place at sees
  generalize defineHead t = head at sees
  cases sees with
  | none => exact ⟨rfl, .of_sees (nextAnchor_at at_ (Nat.le_of_lt within))⟩
  | @some j u there later fits =>
    have after := advance_at tells_word there
    have le := le_advance isWord s j
    have anchor := nextAnchor_at after (advance_le fits)
    refine ⟨?_, .of_sees (anchor.mono (by omega))⟩
    simp only [Option.map_some, word_at there, String.toList_ofList]

theorem objRound_at (at_ : At s pos t) (within : pos < s.length) :
    (objRound s pos).1.map objEntry = (objStep t).1 ∧ Next s pos (objRound s pos).2 (objStep t).2 := by
  have sees := defineNameAt_at at_
  have skip : Next s pos (nextAnchor s pos) (nextLine t) :=
    .of_sees (nextAnchor_at at_ (Nat.le_of_lt within))
  rw [objRound, objStep]
  generalize defineNameAt s pos s.length = place at sees
  generalize defineHead t = head at sees
  cases sees with
  | none => exact ⟨rfl, skip⟩
  | @some j u there later fits =>
    have after : At s (wordEnd s j) (afterWord u) := advance_at tells_word there
    have most : wordEnd s j ≤ s.length := advance_le fits
    have least : j ≤ wordEnd s j := le_advance isWord s j
    have name := word_at there
    have value : At s (advance isBlank s (wordEnd s j)) (skipBlanks (afterWord u)) :=
      advance_at tells_blank after
    have place : advance isBlank s (wordEnd s j) = wordEnd s j ↔ afterWord u = skipBlanks (afterWord u) := by
      rw [advance_eq tells_blank after]
      exact stays_iff _
    have least' := le_advance isBlank s (wordEnd s j)
    have most' := advance_le (p := isBlank) most
    dsimp only
    generalize advance isBlank s (wordEnd s j) = k at value place least' most'
    cases shape : skipBlanks (afterWord u) with
    | nil =>
      rw [shape] at value
      rw [if_pos (Or.inr (Or.inr (value.over)))]
      exact ⟨rfl, skip⟩
    | cons c w =>
      rw [shape] at value place
      have blank := jswsLen_at value
      have inside := value.first
      by_cases stops : afterWord u = c :: w ∨ isSpace c = true
      · have ends : k = wordEnd s j ∨ 0 < jswsLen s k ∨ s.length ≤ k := by
          rcases stops with same | space
          · exact Or.inl (place.mpr same)
          · rw [space, if_pos rfl] at blank
            exact Or.inr (Or.inl (blank ▸ c.utf8Size_pos))
        rw [if_pos ends]
        simp only [if_pos stops]
        exact ⟨rfl, skip⟩
      · rw [not_or] at stops
        rw [if_neg stops.2] at blank
        have goes : ¬(k = wordEnd s j ∨ 0 < jswsLen s k ∨ s.length ≤ k) := by
          rintro (same | space | beyond)
          · exact stops.1 (place.mp same)
          · omega
          · omega
        have ends : At s (advance (· != 0x0A) s k) ((c :: w).dropWhile (· ≠ '\n')) :=
          advance_at (tells_ne (d := '\n') (by decide)) value
        have eol : advance (· != 0x0A) s k = k + (encode ((c :: w).takeWhile (· ≠ '\n'))).length :=
          advance_eq (tells_ne (d := '\n') (by decide)) value
        have least'' := le_advance (· != 0x0A) s k
        have parts : At s k ((c :: w).takeWhile (· ≠ '\n') ++ (c :: w).dropWhile (· ≠ '\n')) := by
          rwa [List.takeWhile_append_dropWhile]
        obtain ⟨a, trimmed, part⟩ := jsTrim_at parts most'
        rw [← eol] at trimmed
        rw [if_neg goes, trimmed]
        simp only [if_neg (not_or.mpr stops)]
        rw [part, bytesToString_encode, name]
        refine ⟨by simp only [Option.map_some, objEntry, String.toList_ofList], ?_⟩
        cases rest : (c :: w).dropWhile (· ≠ '\n') with
        | nil =>
          rw [rest] at ends
          exact .beyond (Nat.le_succ_of_le ends.over)
        | cons d rest' =>
          have newline : d = '\n' := by
            have stop := List.head?_dropWhile_not (fun c => decide (c ≠ '\n')) (c :: w)
            rw [rest] at stop
            simpa using stop
          subst newline
          rw [rest] at ends
          have more := ends.first
          exact .some ends.tail (by omega) more

theorem fixed_iff (params : List String) :
    params.all (fun p => p != "..." && !(['.', '.', '.'].isSuffixOf p.toList)) =
      !isVariadic (params.map String.toList) := by
  rw [isVariadic, List.any_map, List.not_any_eq_all_not]
  congr 1
  funext p
  by_cases dots : p = "..."
  · subst dots
    decide
  · simp [dots]

theorem fnRound_at (at_ : At s pos t) (within : pos < s.length) :
    (fnRound s pos).1.map FnMacro.entry = (fnStep t).1 ∧ Next s pos (fnRound s pos).2 (fnStep t).2 := by
  have sees := defineNameAt_at at_
  have skip : Next s pos (nextAnchor s pos) (nextLine t) :=
    .of_sees (nextAnchor_at at_ (Nat.le_of_lt within))
  rw [fnRound, fnStep]
  generalize defineNameAt s pos s.length = place at sees
  generalize defineHead t = head at sees
  cases sees with
  | none => exact ⟨rfl, skip⟩
  | @some j u there later fits =>
    have after : At s (wordEnd s j) (afterWord u) := advance_at tells_word there
    have most : wordEnd s j ≤ s.length := advance_le fits
    have least : j ≤ wordEnd s j := le_advance isWord s j
    have name := word_at there
    have paren := after.byte (d := '(') (by decide)
    dsimp only
    generalize wordEnd s j = ne at after most least name paren
    split
    · next other =>
      split
      · next v shape => exact absurd (paren.mpr (by rw [shape]; rfl)) other
      · exact ⟨rfl, skip⟩
    next is_paren =>
    obtain ⟨v, shape⟩ := List.head?_eq_some_iff.mp (paren.mp (not_not.mp is_paren))
    rw [shape] at after
    simp only [shape]
    have inside := after.first
    have open_ : At s (ne + 1) v := after.tail
    have close : At s (advance (· != 0x29) s (ne + 1)) (v.dropWhile (· ≠ ')')) :=
      advance_at (tells_ne (d := ')') (by decide)) open_
    have params : advance (· != 0x29) s (ne + 1) =
        ne + 1 + (encode (v.takeWhile (· ≠ ')'))).length :=
      advance_eq (tells_ne (d := ')') (by decide)) open_
    have most' := advance_le (p := (· != 0x29)) (show ne + 1 ≤ s.length from inside)
    have list : (paramsRaw s (ne + 1) (advance (· != 0x29) s (ne + 1))).map String.toList =
        paramsOf (v.takeWhile (· ≠ ')')) := by
      rw [params]
      have parts : At s (ne + 1) (v.takeWhile (· ≠ ')') ++ v.dropWhile (· ≠ ')')) := by
        rwa [List.takeWhile_append_dropWhile]
      exact paramsRaw_at parts inside
    have least' := le_advance (· != 0x29) s (ne + 1)
    generalize advance (· != 0x29) s (ne + 1) = p at close params most' list least'
    cases closed : v.dropWhile (· ≠ ')') with
    | nil =>
      rw [closed] at close
      rw [if_pos close.over]
      exact ⟨rfl, .none⟩
    | cons d w =>
      have paren : d = ')' := by
        have stop := List.head?_dropWhile_not (fun c => decide (c ≠ ')')) v
        rw [closed] at stop
        simpa using stop
      subst paren
      rw [closed] at close
      have below := close.first
      have blanks : At s (p + 1) w := close.tail
      have place := skipJsws_at blanks below
      have moved : skipJsws s (p + 1) = p + 1 ↔ w = skipSpace w := by
        rw [place]
        exact stays_iff w
      have value : At s (skipJsws s (p + 1)) (skipSpace w) := by
        rw [place]
        exact At.skip (u := w.takeWhile isSpace) (by rwa [skipSpace, List.takeWhile_append_dropWhile])
      have least'' : p + 1 ≤ skipJsws s (p + 1) := by omega
      have most'' : skipJsws s (p + 1) ≤ s.length := by
        have le := At.le (t := w) blanks below
        have part : (encode (w.takeWhile isSpace)).length ≤ (encode w).length := by
          conv_rhs => rw [← List.takeWhile_append_dropWhile (p := isSpace) (l := w), encode_append,
            List.length_append]
          exact Nat.le_add_right _ _
        omega
      rw [if_neg (Nat.not_le.mpr below)]
      generalize skipJsws s (p + 1) = k at moved value least'' most''
      have dots := dotEnd_at value most''
      have stays : dotEnd s k = k ↔ (skipSpace w).takeWhile (fun c => !isTerminator c) = [] := by
        rw [dots, stays_iff, takeWhile_nil_iff]
      by_cases stops : w = skipSpace w ∨ (skipSpace w).takeWhile (fun c => !isTerminator c) = []
      · rw [if_pos (stops.imp moved.mpr stays.mpr)]
        simp only [if_pos stops]
        exact ⟨rfl, skip⟩
      · have goes : ¬(k = p + 1 ∨ dotEnd s k = k) := mt (Or.imp moved.mp stays.mp) stops
        have parts : At s k ((skipSpace w).takeWhile (fun c => !isTerminator c) ++
            (skipSpace w).dropWhile fun c => !isTerminator c) := by
          rwa [List.takeWhile_append_dropWhile]
        have ends : At s (dotEnd s k) ((skipSpace w).dropWhile fun c => !isTerminator c) := by
          rw [dots]
          exact parts.skip
        have fits' : dotEnd s k ≤ s.length := by
          rw [dots]
          have le := parts.le most''
          rw [encode_append, List.length_append] at le
          omega
        obtain ⟨a, trimmed, part⟩ := jsTrim_at parts most''
        rw [← dots] at trimmed
        rw [if_neg goes, trimmed]
        simp only [if_neg stops]
        rw [part, bytesToString_encode, name]
        refine ⟨?_, .of_sees ((nextAnchor_at ends fits').mono (by omega))⟩
        rw [FunctionMatch.entry, ← list, fixed_iff]
        cases isVariadic ((paramsRaw s (ne + 1) p).map String.toList) with
        | true => rfl
        | false => simp only [Bool.not_false, if_true, Option.map_some, FnMacro.entry,
            String.toList_ofList, Bool.false_eq_true, if_false]

theorem parseFnMacros_at {l : List (Text × MacroDef)} (reads : Reads fnStep t l) :
    (parseFnMacros (encode t)).map FnMacro.entry = l :=
  rounds_at (fun _ _ => fnRound_at) rfl reads rfl (Nat.zero_le _) (Nat.zero_add _).ge

theorem parseObjMacros_at {l : List (Text × Text)} (reads : Reads objStep t l) :
    (parseObjMacros (encode t)).map objEntry = l :=
  rounds_at (fun _ _ => objRound_at) rfl reads rfl (Nat.zero_le _) (Nat.zero_add _).ge

theorem parseDefinedNames_at {l : List Text} (reads : Reads definedStep t l) :
    (parseDefinedNames (encode t)).map String.toList = l :=
  rounds_at (fun _ _ => definedRound_at) rfl reads rfl (Nat.zero_le _) (Nat.zero_add _).ge

end CodeGraph.Kernel.EnvMacros
