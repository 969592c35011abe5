import CodeGraph.Foundation.Decisions

/-! The character classes of JavaScript patterns, on Unicode texts. -/
namespace CodeGraph.JsText

abbrev Text := List Char

/-- The class `\s`, and what `trim` takes off. -/
def isSpace (c : Char) : Bool :=
  (0x09 ≤ c.toNat && c.toNat ≤ 0x0D) || c.toNat == 0x20 || c.toNat == 0xA0 || c.toNat == 0x1680 ||
    (0x2000 ≤ c.toNat && c.toNat ≤ 0x200A) || c.toNat == 0x2028 || c.toNat == 0x2029 ||
    c.toNat == 0x202F || c.toNat == 0x205F || c.toNat == 0x3000 || c.toNat == 0xFEFF

/-- The class `\w`. -/
def isWord (c : Char) : Bool := c.isAlphanum || c == '_'

/-- What the class `.` leaves out. -/
def isTerminator (c : Char) : Bool :=
  c == '\n' || c == '\r' || c.toNat == 0x2028 || c.toNat == 0x2029

def skipSpace (text : Text) : Text := text.dropWhile isSpace

/-- `text.trim()`. -/
def trim (text : Text) : Text := (skipSpace text).rdropWhile isSpace

def wordAt (text : Text) : Text := text.takeWhile isWord

def afterWord (text : Text) : Text := text.dropWhile isWord

@[simp] theorem wordAt_append_afterWord (text : Text) : wordAt text ++ afterWord text = text :=
  List.takeWhile_append_dropWhile

theorem trim_inside (text : Text) : trim text <:+: text :=
  (List.rdropWhile_prefix isSpace (skipSpace text)).isInfix.trans
    (List.dropWhile_suffix isSpace).isInfix

/-- A word up to the next character that is none. -/
theorem wordAt_append {word rest : Text} (all : ∀ c ∈ word, isWord c = true)
    (stop : ∀ c ∈ rest.head?, isWord c = false) : wordAt (word ++ rest) = word := by
  have tail : rest.takeWhile isWord = [] := by
    cases rest with
    | nil => rfl
    | cons c rest => rw [List.takeWhile_cons_of_neg (by simp [stop c rfl])]
  rw [wordAt, List.takeWhile_append_of_pos all, tail, List.append_nil]

theorem afterWord_append {word rest : Text} (all : ∀ c ∈ word, isWord c = true)
    (stop : ∀ c ∈ rest.head?, isWord c = false) : afterWord (word ++ rest) = rest := by
  have whole := wordAt_append_afterWord (word ++ rest)
  rw [wordAt_append all stop] at whole
  exact List.append_cancel_left whole

theorem trim_solid {text : Text} (solid : ∀ c ∈ text, isSpace c = false) : trim text = text := by
  have stays : ∀ t : Text, (∀ c ∈ t, isSpace c = false) → t.dropWhile isSpace = t := by
    intro t solid
    cases t with
    | nil => rfl
    | cons c t => exact List.dropWhile_cons_of_neg (by simp [solid c List.mem_cons_self])
  rw [trim, skipSpace, stays text solid, List.rdropWhile, stays text.reverse (by simpa using solid),
    List.reverse_reverse]

theorem skipSpace_trimmed {core : Text} (trimmed : trim core = core) : skipSpace core = core := by
  have short := (List.rdropWhile_prefix isSpace (skipSpace core)).length_le
  have suffix : skipSpace core <:+ core := List.dropWhile_suffix isSpace
  rw [← trim, trimmed] at short
  exact suffix.eq_of_length_le short

theorem trim_pad {before core after : Text} (left : ∀ c ∈ before, isSpace c = true)
    (trimmed : trim core = core) (right : ∀ c ∈ after, isSpace c = true) :
    trim (before ++ (core ++ after)) = core := by
  have skip : skipSpace (before ++ (core ++ after)) = skipSpace (core ++ after) :=
    List.dropWhile_append_of_pos left
  have start := skipSpace_trimmed trimmed
  rw [trim, start] at trimmed
  have ends : (core ++ after).rdropWhile isSpace = core := by
    rw [List.rdropWhile, List.reverse_append, List.dropWhile_append_of_pos (by simpa using right)]
    exact trimmed
  cases core with
  | nil =>
    rw [trim, skip, List.nil_append, skipSpace, List.dropWhile_eq_nil_iff.mpr right]
    rfl
  | cons c core =>
    have first : ¬isSpace c = true := by
      intro space
      have stop := List.head?_dropWhile_not isSpace (c :: core)
      rw [← skipSpace, start] at stop
      simp [space] at stop
    rw [trim, skip, List.cons_append, skipSpace, List.dropWhile_cons_of_neg first, ← List.cons_append, ends]

theorem isWord_range {c : Char} (word : isWord c = true) : c.toNat = 95 ∨
    48 ≤ c.toNat ∧ c.toNat ≤ 57 ∨ 65 ≤ c.toNat ∧ c.toNat ≤ 90 ∨ 97 ≤ c.toNat ∧ c.toNat ≤ 122 := by
  simp only [isWord, Char.isAlphanum, Char.isAlpha, Char.isUpper, Char.isLower, Char.isDigit,
    Bool.or_eq_true, Bool.and_eq_true, decide_eq_true_eq, beq_iff_eq] at word
  rcases word with ((up | low) | digit) | rfl
  · have least : 'A'.val ≤ c.val := up.1
    have most : c.val ≤ 'Z'.val := up.2
    exact .inr (.inr (.inl ⟨least, most⟩))
  · exact .inr (.inr (.inr ⟨low.1, low.2⟩))
  · exact .inr (.inl ⟨digit.1, digit.2⟩)
  · exact .inl rfl

theorem isWord_ascii {c : Char} (word : isWord c = true) : c.toNat < 0x80 := by
  have range := isWord_range word
  omega

theorem isWord_of_isSpace {c : Char} (space : isSpace c = true) : isWord c = false := by
  by_contra word
  have range := isWord_range (by simpa using word)
  simp only [isSpace, Bool.or_eq_true, Bool.and_eq_true, decide_eq_true_eq, beq_iff_eq] at space
  omega

/-! ### Lines -/

variable {t u used : Text}

def nextLine : Text → Option Text
  | [] => none
  | c :: t => if isTerminator c then some t else nextLine t

theorem nextLine_append (plain : ∀ c ∈ used, isTerminator c = false) (t : Text) :
    nextLine (used ++ t) = nextLine t := by
  induction used with
  | nil => rfl
  | cons c used ih =>
    have first := plain c List.mem_cons_self
    rw [List.cons_append, nextLine, if_neg (by simp [first])]
    exact ih fun d listed => plain d (List.mem_cons_of_mem c listed)

theorem nextLine_length (next : nextLine t = some u) : u.length < t.length := by
  induction t with
  | nil => cases next
  | cons c t ih =>
    rw [nextLine] at next
    rw [List.length_cons]
    split at next
    · cases next
      omega
    · have := ih next
      omega

theorem nextLine_some (next : nextLine t = some u) :
    ∃ before c, t = before ++ c :: u ∧ isTerminator c = true := by
  induction t with
  | nil => cases next
  | cons c t ih =>
    rw [nextLine] at next
    split at next
    · next ends =>
      cases next
      exact ⟨[], c, rfl, ends⟩
    · obtain ⟨before, d, parts, ends⟩ := ih next
      exact ⟨c :: before, d, by rw [parts, List.cons_append], ends⟩

theorem nextLine_suffix (next : nextLine t = some u) : u <:+ t := by
  obtain ⟨before, c, parts, -⟩ := nextLine_some next
  exact ⟨before ++ [c], by rw [parts, List.append_assoc, List.singleton_append]⟩

def LineStart (t u : Text) : Prop := t = u ∨ ∃ before c, t = before ++ c :: u ∧ isTerminator c = true

theorem nextLine_lineStart {c : Char} (before : Text) (ends : isTerminator c = true) :
    ∃ v, nextLine (before ++ c :: u) = some v ∧ LineStart v u := by
  induction before with
  | nil => exact ⟨u, by rw [List.nil_append, nextLine, if_pos ends], Or.inl rfl⟩
  | cons d before ih =>
    by_cases first : isTerminator d = true
    · exact ⟨_, by rw [List.cons_append, nextLine, if_pos first], Or.inr ⟨before, c, rfl, ends⟩⟩
    · rw [List.cons_append, nextLine, if_neg first]
      exact ih

theorem lineStart_iff : LineStart t u ↔ t = u ∨ ∃ v, nextLine t = some v ∧ LineStart v u := by
  constructor
  · rintro (same | ⟨before, c, rfl, ends⟩)
    · exact Or.inl same
    · exact Or.inr (nextLine_lineStart before ends)
  · rintro (same | ⟨v, next, rfl | ⟨before', d, rfl, ends'⟩⟩)
    · exact Or.inl same
    · exact Or.inr (nextLine_some next)
    · obtain ⟨before, c, parts, -⟩ := nextLine_some next
      exact Or.inr ⟨before ++ c :: before', d, by rw [parts, List.append_assoc, List.cons_append], ends'⟩

theorem LineStart.suffix (start : LineStart t u) : u <:+ t := by
  rcases start with rfl | ⟨before, c, rfl, -⟩
  · exact List.suffix_rfl
  · exact ⟨before ++ [c], by simp⟩

theorem lineStart_append {x y : Text} (starts : x.getLast?.elim true isTerminator = true) :
    LineStart (x ++ y) y := by
  rcases List.eq_nil_or_concat' x with rfl | ⟨before, c, rfl⟩
  · exact Or.inl rfl
  · rw [List.getLast?_concat] at starts
    exact Or.inr ⟨before, c, by simp, starts⟩

end CodeGraph.JsText
