import CodeGraph.Foundation.Decisions

/-! Operations of Rust on texts, as lists of characters. -/
namespace CodeGraph.RustText

/-- `char::is_whitespace`, the White_Space of Unicode. -/
def isWhitespace (c : Char) : Bool :=
  (0x09 ≤ c.val && c.val ≤ 0x0D) || c.val == 0x20 || c.val == 0x85 || c.val == 0xA0 ||
    c.val == 0x1680 || (0x2000 ≤ c.val && c.val ≤ 0x200A) || c.val == 0x2028 || c.val == 0x2029 ||
    c.val == 0x202F || c.val == 0x205F || c.val == 0x3000

def trimStart (text : List Char) : List Char := text.dropWhile isWhitespace

def trimEnd (text : List Char) : List Char := text.rdropWhile isWhitespace

/-- `str::trim`. -/
def trim (text : List Char) : List Char := trimEnd (trimStart text)

def stripPrefix (before text : List Char) : Option (List Char) :=
  if before.isPrefixOf text then some (text.drop before.length) else none

def stripSuffix (after text : List Char) : Option (List Char) :=
  if after.isSuffixOf text then some (text.take (text.length - after.length)) else none

/-- `char::to_digit(16)`. -/
def hexDigit (c : Char) : Option Nat :=
  if '0' ≤ c ∧ c ≤ '9' then some (c.toNat - '0'.toNat)
  else if 'a' ≤ c ∧ c ≤ 'f' then some (c.toNat - 'a'.toNat + 10)
  else if 'A' ≤ c ∧ c ≤ 'F' then some (c.toNat - 'A'.toNat + 10)
  else none

/-- `char::from_u32`: no character for a surrogate. -/
def fromU32 (code : Nat) : Option Char :=
  if code.isValidChar then some (Char.ofNat code) else none

variable {text before after : List Char} {c : Char}

@[simp] theorem stripPrefix_append : stripPrefix before (before ++ text) = some text := by
  have starts : before.isPrefixOf (before ++ text) = true :=
    List.isPrefixOf_iff_prefix.mpr (List.prefix_append before text)
  rw [stripPrefix, if_pos starts, List.drop_left]

@[simp] theorem stripSuffix_append : stripSuffix after (text ++ after) = some text := by
  have ends : after.isSuffixOf (text ++ after) = true :=
    List.isSuffixOf_iff_suffix.mpr (List.suffix_append text after)
  rw [stripSuffix, if_pos ends, List.length_append, Nat.add_sub_cancel, List.take_left]

theorem trimStart_append {gap : List Char} (blank : ∀ d ∈ gap, isWhitespace d = true)
    (solid : isWhitespace c = false) : trimStart (gap ++ c :: text) = c :: text := by
  rw [trimStart, List.dropWhile_append_of_pos blank, List.dropWhile_cons_of_neg (by simp [solid])]

theorem trimStart_blank {gap : List Char} (blank : ∀ d ∈ gap, isWhitespace d = true) :
    trimStart gap = [] := by
  rw [trimStart, List.dropWhile_eq_nil_iff]
  exact blank

theorem trimEnd_append {gap : List Char} (blank : ∀ d ∈ gap, isWhitespace d = true)
    (solid : isWhitespace c = false) : trimEnd (text ++ [c] ++ gap) = text ++ [c] := by
  rw [trimEnd, List.rdropWhile, List.reverse_append, List.dropWhile_append_of_pos, List.reverse_append,
    List.reverse_singleton, List.singleton_append, List.dropWhile_cons_of_neg (by simp [solid])]
  · simp
  · intro d listed
    exact blank d (List.mem_reverse.mp listed)

/-- A solid character is not trimmed away. -/
theorem trim_ne_nil (listed : c ∈ text) (solid : isWhitespace c = false) : trim text ≠ [] := by
  intro none_
  rw [trim, trimEnd, List.rdropWhile_eq_nil_iff] at none_
  have some_ : trimStart text ≠ [] := by
    intro blank
    rw [trimStart, List.dropWhile_eq_nil_iff] at blank
    exact Bool.false_ne_true (solid.symm.trans (blank c listed))
  obtain ⟨d, rest, shape⟩ := List.exists_cons_of_ne_nil some_
  have first := List.head?_dropWhile_not isWhitespace text
  rw [← trimStart, shape] at first
  rw [shape] at none_
  exact Bool.false_ne_true (first.symm.trans (none_ d List.mem_cons_self))

end CodeGraph.RustText
