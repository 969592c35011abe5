import CodeGraph.Foundation.Lines
import CodeGraph.Foundation.PrefixCodes
import CodeGraph.Foundation.Text

/-! UTF-16 is read in step: the characters of a text of units, and searches for one in another. -/
namespace CodeGraph.Utf16

open Text PrefixCodes

def isHigh (u : UInt16) : Bool := 0xD800 ≤ u && u ≤ 0xDBFF

def isLow (u : UInt16) : Bool := 0xDC00 ≤ u && u ≤ 0xDFFF

theorem isHigh_iff {u : UInt16} : isHigh u = true ↔ 0xD800 ≤ u.toNat ∧ u.toNat ≤ 0xDBFF := by
  simp only [isHigh, Bool.and_eq_true, decide_eq_true_eq, UInt16.le_iff_toNat_le]
  rfl

theorem isLow_iff {u : UInt16} : isLow u = true ↔ 0xDC00 ≤ u.toNat ∧ u.toNat ≤ 0xDFFF := by
  simp only [isLow, Bool.and_eq_true, decide_eq_true_eq, UInt16.le_iff_toNat_le]
  rfl

/-- A character is one unit that is no surrogate, or a pair of surrogates. -/
theorem charUnits_cases (c : Char) :
    (∃ u, charUnits c = [u] ∧ u.toNat = c.val.toNat ∧ isHigh u = false ∧ isLow u = false) ∨
    ∃ high low, charUnits c = [high, low] ∧ isHigh high = true ∧ isLow low = true ∧
      high.toNat = 0xD800 + (c.val.toNat - 0x10000) / 0x400 ∧
      low.toNat = 0xDC00 + (c.val.toNat - 0x10000) % 0x400 ∧ 0x10000 ≤ c.val.toNat := by
  have valid : c.val.toNat < 0xD800 ∨ 0xDFFF < c.val.toNat ∧ c.val.toNat < 0x110000 := c.valid
  rw [charUnits]
  split
  next single =>
    have small : c.val.toNat < 0x10000 := single
    have value : c.val.toUInt16.toNat = c.val.toNat := by
      rw [UInt32.toNat_toUInt16, Nat.mod_eq_of_lt small]
    refine .inl ⟨_, rfl, value, ?_, ?_⟩
    · rw [Bool.eq_false_iff, ne_eq, isHigh_iff, value]
      omega
    · rw [Bool.eq_false_iff, ne_eq, isLow_iff, value]
      omega
  next pair =>
    have large : 0x10000 ≤ c.val.toNat := Nat.not_lt.mp pair
    have past : (c.val - 0x10000).toNat = c.val.toNat - 0x10000 :=
      UInt32.toNat_sub_of_le _ _ large
    have first : (0xD800 + (c.val - 0x10000) / 0x400).toUInt16.toNat =
        0xD800 + (c.val.toNat - 0x10000) / 0x400 := by
      rw [UInt32.toNat_toUInt16, UInt32.toNat_add, UInt32.toNat_div, past]
      change (0xD800 + (c.val.toNat - 0x10000) / 0x400) % 2 ^ 32 % 2 ^ 16 = _
      omega
    have second : (0xDC00 + (c.val - 0x10000) % 0x400).toUInt16.toNat =
        0xDC00 + (c.val.toNat - 0x10000) % 0x400 := by
      rw [UInt32.toNat_toUInt16, UInt32.toNat_add, UInt32.toNat_mod, past]
      change (0xDC00 + (c.val.toNat - 0x10000) % 0x400) % 2 ^ 32 % 2 ^ 16 = _
      omega
    refine .inr ⟨_, _, rfl, ?_, ?_, first, second, large⟩
    · rw [isHigh_iff, first]
      omega
    · rw [isLow_iff, second]
      omega

theorem isLow_of_isHigh {u : UInt16} (high : isHigh u = true) : isLow u = false := by
  rw [isHigh_iff] at high
  rw [Bool.eq_false_iff, ne_eq, isLow_iff]
  omega

/-- Only the second unit of a pair does not start a character. -/
theorem synchronous : Synchronous charUnits (fun u => !isLow u) where
  word := by
    intro c
    rcases charUnits_cases c with ⟨u, single, _, _, low⟩ | ⟨high, low, pair, is_high, is_low, _⟩
    · exact ⟨u, [], single, by simp [low], fun _ none_ => nomatch none_⟩
    · refine ⟨high, [low], pair, by simp [isLow_of_isHigh is_high], ?_⟩
      intro v listed
      rw [List.mem_singleton.mp listed, is_low]
      rfl
  free := by
    intro a b before
    apply Char.ext
    apply UInt32.toNat_inj.mp
    rcases charUnits_cases a with ⟨u, single, value, high, _⟩ |
      ⟨high, low, pair, is_high, _, first, second, large⟩ <;>
    rcases charUnits_cases b with ⟨v, single', value', high', _⟩ |
      ⟨high', low', pair', is_high', _, first', second', large'⟩
    · rw [single, single', List.cons_prefix_cons] at before
      rw [← value, ← value', before.1]
    · rw [single, pair', List.cons_prefix_cons] at before
      rw [before.1, is_high'] at high
      cases high
    · rw [pair, single', List.cons_prefix_cons] at before
      rw [← before.1, is_high] at high'
      cases high'
    · rw [pair, pair', List.cons_prefix_cons, List.cons_prefix_cons] at before
      obtain ⟨rfl, rfl, _⟩ := before
      omega

theorem charUnits_injective {a b : Char} (same : charUnits a = charUnits b) : a = b :=
  synchronous.free a b (same ▸ List.prefix_refl _)

theorem eq_of_mem_charUnits {c d : Char} {u : UInt16} (listed : u ∈ charUnits c)
    (single : charUnits d = [u]) (ascii : u.toNat < 0x80) : c = d := by
  apply charUnits_injective
  rcases charUnits_cases c with ⟨v, word, _⟩ | ⟨high, low, word, is_high, is_low, _⟩
  · rw [word, List.mem_singleton] at listed
    rw [word, single, listed]
  · rw [isHigh_iff] at is_high
    rw [isLow_iff] at is_low
    rw [word, List.mem_cons, List.mem_singleton] at listed
    rcases listed with rfl | rfl
    · omega
    · omega

theorem mem_flatMap_charUnits {d : Char} {u : UInt16} (single : charUnits d = [u])
    (ascii : u.toNat < 0x80) {cs : List Char} : u ∈ cs.flatMap charUnits ↔ d ∈ cs := by
  rw [List.mem_flatMap]
  constructor
  · rintro ⟨c, listed, here⟩
    rwa [← eq_of_mem_charUnits here single ascii]
  · intro listed
    exact ⟨d, listed, by rw [single]; exact List.mem_singleton_self u⟩

/-! ### Code points -/

/-- The code points of a string, as the units they are written with: a pair of surrogates is one. -/
def codePoints : JsString → List JsString
  | [] => []
  | [u] => [[u]]
  | u :: v :: s =>
    if isHigh u && isLow v then [u, v] :: codePoints s else [u] :: codePoints (v :: s)

theorem codePoints_flatMap (cs : List Char) :
    codePoints (cs.flatMap charUnits) = cs.map charUnits := by
  induction cs with
  | nil => rfl
  | cons c cs ih =>
    rw [List.flatMap_cons, List.map_cons]
    rcases charUnits_cases c with ⟨u, single, _, high, _⟩ | ⟨high, low, pair, is_high, is_low, _⟩
    · rw [single, List.singleton_append]
      cases rest : cs.flatMap charUnits with
      | nil =>
        rw [rest] at ih
        rw [← ih]
        rfl
      | cons v s =>
        rw [rest] at ih
        rw [codePoints, high, Bool.false_and, if_neg Bool.false_ne_true, ih]
    · rw [pair, List.cons_append, List.singleton_append, codePoints, is_high, is_low,
        Bool.and_self, if_pos rfl, ih]

end CodeGraph.Utf16

/-!
# A stream with an encoding

Node's `StringDecoder` for UTF-8, which a socket reads through once `setEncoding('utf8')` is called:
it holds back the bytes at the end of a chunk that start a character, and decodes them with the
next chunk. What it has written is the text of the bytes it does not hold.
-/
namespace CodeGraph.StringDecoder

open Text

/-- `bytes.toString('utf8')`, as the units of a string. -/
def decode (bytes : List UInt8) : JsString := utf16 (utf8Decode bytes)

def newline : UInt16 := 0x0A

/-- The last `n` bytes. -/
private def last (n : Nat) (bytes : List UInt8) : List UInt8 := bytes.drop (bytes.length - n)

def heldLength (bytes : List UInt8) : Nat :=
  if incomplete (last 3 bytes) then 3
  else if incomplete (last 2 bytes) then 2
  else if incomplete (last 1 bytes) then 1
  else 0

/-- `write`: the text of a chunk after the bytes held, and the bytes it holds back in turn. -/
def write (held chunk : List UInt8) : JsString × List UInt8 :=
  let bytes := held ++ chunk
  let ready := bytes.length - heldLength bytes
  (decode (bytes.take ready), bytes.drop ready)

variable {left right bytes held chunk : List UInt8}

theorem decode_append (cut : Cut left right) : decode (left ++ right) = decode left ++ decode right := by
  rw [decode, utf8Decode_append cut, utf16, String.toList_append, List.flatMap_append]
  rfl

@[simp] theorem decode_nil : decode [] = [] := rfl

private theorem cut_newline (left right : List UInt8) : Cut left (0x0A :: right) :=
  Or.inl fun b first => by
    obtain rfl := Option.some.inj first
    decide

private theorem newline_charUnits {c : Char} (listed : newline ∈ charUnits c) : c = '\n' := by
  have most : c.val.toNat < 0x110000 := by
    rcases c.valid with low | ⟨-, high⟩
    · exact Nat.lt_trans low (by decide)
    · exact high
  rw [charUnits] at listed
  split at listed
  · next single =>
    have small : c.val.toNat < 0x10000 := single
    have same := congrArg UInt16.toNat (List.mem_singleton.mp listed)
    rw [UInt32.toNat_toUInt16, Nat.mod_eq_of_lt small] at same
    exact Char.ext (UInt32.toNat_inj.mp same.symm)
  · next pair =>
    -- both halves of a pair are at least 0xD800
    have large : 0x10000 ≤ c.val.toNat := Nat.not_lt.mp pair
    have past : (c.val - 0x10000).toNat = c.val.toNat - 0x10000 :=
      UInt32.toNat_sub_of_le _ _ large
    rcases List.mem_cons.mp listed with same | other
    · have same := congrArg UInt16.toNat same
      rw [UInt32.toNat_toUInt16, UInt32.toNat_add, UInt32.toNat_div, past] at same
      change 10 = (0xD800 + (c.val.toNat - 0x10000) / 0x400) % 2 ^ 32 % 2 ^ 16 at same
      omega
    · have same := congrArg UInt16.toNat (List.mem_singleton.mp other)
      rw [UInt32.toNat_toUInt16, UInt32.toNat_add, UInt32.toNat_mod, past] at same
      change 10 = (0xDC00 + (c.val.toNat - 0x10000) % 0x400) % 2 ^ 32 % 2 ^ 16 at same
      omega

theorem decode_byLine : Lines.ByLine 0x0A newline decode where
  lines line rest _ := by
    have start : Cut [0x0A] rest := Or.inr fun tail suffix => by
      rcases List.suffix_cons_iff.mp suffix with rfl | shorter
      · decide
      · rw [List.suffix_nil.mp shorter]
        rfl
    have feed : decode [0x0A] = [newline] := by
      rw [decode, utf8Decode_newline]
      rfl
    rw [decode_append (cut_newline line rest), List.append_cancel_left_eq,
      ← List.singleton_append, decode_append start, feed, List.singleton_append]
  open_ line none_ listed := by
    rw [decode, utf16, List.mem_flatMap] at listed
    obtain ⟨c, member, units⟩ := listed
    obtain rfl := newline_charUnits units
    exact none_ (newline_mem_utf8Decode member)

/-- After some chunks: what is written is the text of all bytes but those held, and whatever
comes next can be decoded apart from it. -/
structure Written (bytes : List UInt8) (text : JsString) (held : List UInt8) : Prop where
  parts : ∃ done, bytes = done ++ held ∧ text = decode done ∧ ∀ more, Cut done (held ++ more)
  unfinished : 0x0A ∉ held

theorem written_nil : Written [] [] [] where
  parts := ⟨[], rfl, rfl, fun more => Or.inr fun tail suffix => by
    rw [List.suffix_nil.mp suffix]
    rfl⟩
  unfinished := List.not_mem_nil

/-- The bytes held start a character; with none held, none is open. -/
private theorem held_open (bytes : List UInt8) :
    incomplete (bytes.drop (bytes.length - heldLength bytes)) = true ∨
      (heldLength bytes = 0 ∧ ∀ tail, tail <:+ bytes → incomplete tail = false) := by
  rw [heldLength]
  split
  · next three => exact Or.inl three
  split
  · next two => exact Or.inl two
  split
  · next one => exact Or.inl one
  · next three two one =>
    refine Or.inr ⟨rfl, fun tail suffix => Bool.eq_false_iff.mpr fun cut => ?_⟩
    obtain ⟨positive, short⟩ := incomplete_length cut
    obtain ⟨start, rfl⟩ := suffix
    have tail_last : last tail.length (start ++ tail) = tail := by
      rw [last, List.length_append, Nat.add_sub_cancel, List.drop_left]
    obtain size | size | size : tail.length = 3 ∨ tail.length = 2 ∨ tail.length = 1 := by omega
    · exact three (by rwa [← size, tail_last])
    · exact two (by rwa [← size, tail_last])
    · exact one (by rwa [← size, tail_last])

theorem write_written {text : JsString} (written : Written bytes text held) (chunk : List UInt8) :
    Written (bytes ++ chunk) (text ++ (write held chunk).1) (write held chunk).2 := by
  obtain ⟨⟨done, rfl, rfl, cut⟩, -⟩ := written
  have next_cut := fun more => cut (chunk ++ more)
  rw [write, List.append_assoc]
  simp only [← List.append_assoc] at next_cut
  generalize held ++ chunk = all at next_cut
  have whole := List.take_append_drop (all.length - heldLength all) all
  have before : Cut done (all.take (all.length - heldLength all)) := by
    have joined := next_cut []
    rw [List.append_nil] at joined
    exact joined.take
  constructor
  · refine ⟨done ++ all.take (all.length - heldLength all), ?_, ?_, fun more => ?_⟩
    · rw [List.append_assoc, whole]
    · rw [decode_append before]
    · rcases held_open all with open_ | ⟨none_, complete⟩
      · exact Cut.of_incomplete open_
      · rw [none_, Nat.sub_zero, List.take_length]
        exact Or.inr fun tail suffix => complete_append next_cut complete suffix
  · rcases held_open all with open_ | ⟨none_, -⟩
    · exact newline_not_mem_incomplete open_
    · rw [none_, Nat.sub_zero, List.drop_length]
      exact List.not_mem_nil

theorem Written.lines {text : JsString} (written : Written bytes text held) :
    Lines.complete newline text = (Lines.complete 0x0A bytes).map decode := by
  obtain ⟨⟨done, rfl, rfl, -⟩, none_⟩ := written
  rw [decode_byLine.complete, Lines.complete_append_of_not_mem none_]

end CodeGraph.StringDecoder
