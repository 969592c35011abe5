import CodeGraph.Foundation.Decisions

/-! Text on both sides of the language boundary: UTF-8 bytes, and strings of UTF-16 units. -/
namespace CodeGraph.Text

/-- A JavaScript string: any list of UTF-16 units, unpaired surrogates included. -/
abbrev JsString := List UInt16

/-- The UTF-16 units of one character. -/
def charUnits (c : Char) : JsString :=
  if c.val < 0x10000 then [c.val.toUInt16]
  else [(0xD800 + (c.val - 0x10000) / 0x400).toUInt16, (0xDC00 + (c.val - 0x10000) % 0x400).toUInt16]

def utf16 (s : String) : JsString := s.toList.flatMap charUnits

/-- White space, as `trim` and the class `\s` of a pattern have it. -/
def isWhiteSpace (u : UInt16) : Bool :=
  (0x09 ≤ u && u ≤ 0x0D) || u == 0x20 || u == 0xA0 || u == 0x1680 || (0x2000 ≤ u && u ≤ 0x200A) ||
    u == 0x2028 || u == 0x2029 || u == 0x202F || u == 0x205F || u == 0x3000 || u == 0xFEFF

/-- `text.trim()`. -/
def trim (s : JsString) : JsString :=
  ((s.dropWhile isWhiteSpace).reverse.dropWhile isWhiteSpace).reverse

def utf8 (s : String) : List UInt8 := s.toList.flatMap String.utf8EncodeChar

private def continuation (b : UInt8) : Bool := 0x80 ≤ b && b ≤ 0xBF

/-- The second bytes that can follow the lead byte `lead` of a character of three or four bytes. -/
private def secondOf (lead b : UInt8) : Bool :=
  if lead == 0xE0 then 0xA0 ≤ b && b ≤ 0xBF
  else if lead == 0xED then 0x80 ≤ b && b ≤ 0x9F
  else if lead == 0xF0 then 0x90 ≤ b && b ≤ 0xBF
  else if lead == 0xF4 then 0x80 ≤ b && b ≤ 0x8F
  else 0xE1 ≤ lead && lead ≤ 0xF3 && continuation b

/-- How many bytes after `lead` belong to the same ill-formed sequence: the longest start of a
well-formed character is replaced as one. -/
private def illFormedTail (lead : UInt8) : List UInt8 → Nat
  | [] => 0
  | [b] => if secondOf lead b then 1 else 0
  | b :: c :: _ =>
    if secondOf lead b then (if 0xF0 ≤ lead && continuation c then 2 else 1) else 0

/-- UTF-8 decoding that replaces each ill-formed sequence by U+FFFD. The fuel bounds the bytes. -/
private def decodeChars : Nat → List UInt8 → List Char
  | 0, _ => []
  | _ + 1, [] => []
  | fuel + 1, b :: rest =>
    match ByteArray.utf8DecodeChar? (b :: rest).toByteArray 0 with
    | some c => c :: decodeChars fuel ((b :: rest).drop c.utf8Size)
    | none => '\uFFFD' :: decodeChars fuel (rest.drop (illFormedTail b rest))

/-- `Buffer.toString('utf8')`. -/
def utf8Decode (bytes : List UInt8) : String := String.ofList (decodeChars bytes.length bytes)

private theorem decodeChars_encode (cs : List Char) (fuel : Nat)
    (enough : (cs.flatMap String.utf8EncodeChar).length ≤ fuel) :
    decodeChars fuel (cs.flatMap String.utf8EncodeChar) = cs := by
  induction cs generalizing fuel with
  | nil => cases fuel <;> rfl
  | cons c cs ih =>
    rw [List.flatMap_cons] at enough ⊢
    obtain ⟨b, tail, bytes⟩ := List.exists_cons_of_ne_nil (String.utf8EncodeChar_ne_nil (c := c))
    have size : (String.utf8EncodeChar c).length = c.utf8Size := String.length_utf8EncodeChar c
    have positive : 0 < c.utf8Size := c.utf8Size_pos
    rw [List.length_append, size] at enough
    cases fuel with
    | zero => omega
    | succ fuel =>
      have first : ByteArray.utf8DecodeChar?
          (String.utf8EncodeChar c ++ cs.flatMap String.utf8EncodeChar).toByteArray 0 = some c := by
        rw [List.toByteArray_append]
        exact ByteArray.utf8DecodeChar?_utf8EncodeChar_append
      have rest : (String.utf8EncodeChar c ++ cs.flatMap String.utf8EncodeChar).drop c.utf8Size =
          cs.flatMap String.utf8EncodeChar := by rw [← size, List.drop_left]
      rw [bytes, List.cons_append] at first rest ⊢
      simp only [decodeChars, first, rest]
      rw [ih fuel (by omega)]

/-- Well-formed bytes are read back as the text they encode. -/
@[simp] theorem utf8Decode_utf8 (s : String) : utf8Decode (utf8 s) = s := by
  rw [utf8Decode, utf8, decodeChars_encode s.toList _ (Nat.le_refl _), String.ofList_toList]

@[simp] theorem utf8_empty : utf8 "" = [] := rfl

/-! ### Decoding a text in parts -/

def characterLength (lead : UInt8) : Nat :=
  if lead < 0xC0 then 1
  else if lead < 0xE0 then 2
  else if lead < 0xF0 then 3
  else if lead < 0xF8 then 4
  else 1

def incomplete : List UInt8 → Bool
  | [] => false
  | lead :: rest => decide (rest.length + 1 < characterLength lead) && rest.all continuation

def Cut (left right : List UInt8) : Prop :=
  (∀ b ∈ right.head?, continuation b = false) ∨ ∀ tail, tail <:+ left → incomplete tail = false

theorem Cut.of_suffix {left right tail : List UInt8} (cut : Cut left right) (suffix : tail <:+ left) :
    Cut tail right :=
  cut.imp id fun complete shorter ends => complete shorter (ends.trans suffix)

private theorem continuation_ofNat {n : Nat} (least : 0x80 ≤ n) (most : n < 0xC0) :
    continuation (UInt8.ofNat n) = true := by
  simp only [continuation, Bool.and_eq_true, decide_eq_true_eq, UInt8.le_iff_toNat_le,
    UInt8.toNat_ofNat', Nat.mod_eq_of_lt (show n < 2 ^ 8 by omega)]
  constructor
  · exact least
  · exact Nat.le_of_lt_succ most

private theorem lead_ofNat {n size : Nat} (least : 0xC0 ≤ n) (most : n < 0xF8)
    (length : size = if n < 0xE0 then 2 else if n < 0xF0 then 3 else 4) :
    characterLength (UInt8.ofNat n) = size ∧ continuation (UInt8.ofNat n) = false := by
  have value : (UInt8.ofNat n).toNat = n := by
    rw [UInt8.toNat_ofNat', Nat.mod_eq_of_lt (show n < 2 ^ 8 by omega)]
  constructor
  · simp only [characterLength, UInt8.lt_iff_toNat_lt, value]
    rw [if_neg (show ¬n < (0xC0 : UInt8).toNat by exact Nat.not_lt.mpr least), length]
    simp only [show (0xE0 : UInt8).toNat = 0xE0 from rfl, show (0xF0 : UInt8).toNat = 0xF0 from rfl,
      show (0xF8 : UInt8).toNat = 0xF8 from rfl, if_pos most]
  · simp only [continuation, UInt8.le_iff_toNat_le, value, Bool.and_eq_false_iff,
      decide_eq_false_iff_not]
    exact Or.inr (Nat.not_le.mpr (Nat.lt_of_lt_of_le (by decide) least))

theorem encode_shape (c : Char) : ∃ lead rest, String.utf8EncodeChar c = lead :: rest ∧
    rest.length + 1 = characterLength lead ∧ rest.all continuation = true ∧
    continuation lead = false := by
  rw [String.utf8EncodeChar]
  generalize c.val.toNat = v
  split
  · next one =>
    refine ⟨_, _, rfl, ?_, rfl, ?_⟩
    · rw [characterLength, if_pos]
      · rfl
      · rw [UInt8.lt_iff_toNat_lt, UInt8.toNat_ofNat', Nat.mod_eq_of_lt (by omega)]
        exact Nat.lt_of_le_of_lt one (by decide)
    · simp only [continuation, UInt8.le_iff_toNat_le, UInt8.toNat_ofNat',
        Nat.mod_eq_of_lt (show v < 2 ^ 8 by omega), Bool.and_eq_false_iff, decide_eq_false_iff_not]
      exact Or.inl (Nat.not_le.mpr (Nat.lt_of_le_of_lt one (by decide)))
  split
  · obtain ⟨size, leads⟩ := lead_ofNat (n := v / 64 % 0x20 + 0xC0) (by omega) (by omega) rfl
    refine ⟨_, _, rfl, ?_, ?_, leads⟩
    · rw [size, if_pos (by omega)]
      rfl
    · simp only [List.all_cons, List.all_nil, Bool.and_true]
      exact continuation_ofNat (by omega) (by omega)
  split
  · obtain ⟨size, leads⟩ := lead_ofNat (n := v / 4096 % 0x10 + 0xE0) (by omega) (by omega) rfl
    refine ⟨_, _, rfl, ?_, ?_, leads⟩
    · rw [size, if_neg (by omega), if_pos (by omega)]
      rfl
    · simp only [List.all_cons, List.all_nil, Bool.and_true, Bool.and_eq_true]
      exact ⟨continuation_ofNat (by omega) (by omega), continuation_ofNat (by omega) (by omega)⟩
  · obtain ⟨size, leads⟩ := lead_ofNat (n := v / 262144 % 0x08 + 0xF0) (by omega) (by omega) rfl
    refine ⟨_, _, rfl, ?_, ?_, leads⟩
    · rw [size, if_neg (by omega), if_neg (by omega)]
      rfl
    · simp only [List.all_cons, List.all_nil, Bool.and_true, Bool.and_eq_true]
      exact ⟨continuation_ofNat (by omega) (by omega), continuation_ofNat (by omega) (by omega),
        continuation_ofNat (by omega) (by omega)⟩

private theorem incomplete_of_prefix {c : Char} {left right : List UInt8} (begun : left ≠ [])
    (cut : right ≠ []) (whole : left ++ right = String.utf8EncodeChar c) :
    incomplete left = true ∧ ∃ b ∈ right.head?, continuation b = true := by
  obtain ⟨lead, rest, shape, size, follow, -⟩ := encode_shape c
  rw [shape] at whole
  cases left with
  | nil => exact absurd rfl begun
  | cons first left =>
    cases right with
    | nil => exact absurd rfl cut
    | cons b right =>
      rw [List.cons_append, List.cons.injEq] at whole
      obtain ⟨rfl, rfl⟩ := whole
      simp only [List.all_append, List.all_cons, Bool.and_eq_true] at follow
      simp only [List.length_append, List.length_cons] at size
      constructor
      · rw [incomplete, follow.1, Bool.and_true, decide_eq_true_eq, ← size]
        omega
      · exact ⟨b, rfl, follow.2.1⟩

private def chars (bytes : List UInt8) : List Char := decodeChars bytes.length bytes

private theorem illFormedTail_le (lead : UInt8) (rest : List UInt8) :
    illFormedTail lead rest ≤ rest.length := by
  rcases rest with _ | ⟨b, _ | ⟨c, rest⟩⟩ <;> simp only [illFormedTail, List.length_cons] <;>
    (try split) <;> (try split) <;> omega

private theorem decodeChars_fuel {fuel : Nat} {bytes : List UInt8} (enough : bytes.length ≤ fuel) :
    decodeChars fuel bytes = chars bytes := by
  induction fuel using Nat.strongRecOn generalizing bytes with
  | ind fuel ih =>
    rcases bytes with _ | ⟨b, rest⟩
    · cases fuel <;> rfl
    · cases fuel with
      | zero => exact absurd enough (by simp)
      | succ fuel =>
        rw [List.length_cons] at enough
        simp only [chars, List.length_cons, decodeChars]
        split
        · next c found =>
          have positive := c.utf8Size_pos
          have short : ((b :: rest).drop c.utf8Size).length ≤ rest.length := by
            rw [List.length_drop, List.length_cons]
            omega
          rw [ih fuel (by omega) (by omega), ih rest.length (by omega) short]
        · have short : (rest.drop (illFormedTail b rest)).length ≤ rest.length := by
            rw [List.length_drop]
            omega
          rw [ih fuel (by omega) (by omega), ih rest.length (by omega) short]

private theorem utf8DecodeChar?_eq_some {bytes : List UInt8} {c : Char} :
    ByteArray.utf8DecodeChar? bytes.toByteArray 0 = some c ↔
      String.utf8EncodeChar c <+: bytes := by
  constructor
  · intro found
    obtain ⟨tail, whole⟩ := ByteArray.exists_of_utf8DecodeChar?_eq_some found
    have lists := congrArg (fun bytes => bytes.data.toList) whole
    simp only [ByteArray.data_append, Array.toList_append, List.data_toByteArray] at lists
    exact ⟨tail.data.toList, lists.symm⟩
  · rintro ⟨tail, rfl⟩
    rw [List.toByteArray_append]
    exact ByteArray.utf8DecodeChar?_utf8EncodeChar_append

private theorem chars_char (c : Char) (rest : List UInt8) :
    chars (String.utf8EncodeChar c ++ rest) = c :: chars rest := by
  obtain ⟨lead, follow, shape, -⟩ := encode_shape c
  have found : ByteArray.utf8DecodeChar? (lead :: (follow ++ rest)).toByteArray 0 = some c :=
    utf8DecodeChar?_eq_some.mpr ⟨rest, by rw [shape, List.cons_append]⟩
  have after : (lead :: (follow ++ rest)).drop c.utf8Size = rest := by
    rw [← String.length_utf8EncodeChar c, shape, ← List.cons_append, List.drop_left]
  rw [shape, List.cons_append, chars, List.length_cons, decodeChars, found]
  dsimp only
  rw [after, decodeChars_fuel (by rw [List.length_append]; omega)]

private theorem chars_illFormed {lead : UInt8} {rest : List UInt8}
    (none_ : ∀ c, ¬String.utf8EncodeChar c <+: lead :: rest) :
    chars (lead :: rest) = '\uFFFD' :: chars (rest.drop (illFormedTail lead rest)) := by
  have found : ByteArray.utf8DecodeChar? (lead :: rest).toByteArray 0 = none := by
    cases found : ByteArray.utf8DecodeChar? (lead :: rest).toByteArray 0 with
    | none => rfl
    | some c => exact absurd (utf8DecodeChar?_eq_some.mp found) (none_ c)
  rw [chars, List.length_cons, decodeChars, found]
  dsimp only
  rw [decodeChars_fuel (by rw [List.length_drop]; omega)]

private theorem secondOf_range {lead b : UInt8} (second : secondOf lead b = true) :
    0xE0 ≤ lead ∧ lead < 0xF8 ∧ continuation b = true := by
  simp only [secondOf, continuation, UInt8.le_iff_toNat_le, UInt8.lt_iff_toNat_lt, beq_iff_eq,
    ← UInt8.toNat_inj] at second ⊢
  split at second
  · simp_all; omega
  split at second
  · simp_all; omega
  split at second
  · simp_all; omega
  split at second
  · simp_all; omega
  · simp_all; omega

private theorem characterLength_second {lead b : UInt8} (second : secondOf lead b = true) :
    characterLength lead = if lead < 0xF0 then 3 else 4 := by
  obtain ⟨least, most, -⟩ := secondOf_range second
  rw [characterLength, if_neg (UInt8.not_lt.mpr (UInt8.le_trans (by decide) least)),
    if_neg (UInt8.not_lt.mpr least), if_pos most]

/-- What is replaced at the end of the left part does not depend on the right one. -/
private theorem illFormedTail_append {lead : UInt8} {rest right : List UInt8}
    (cut : Cut (lead :: rest) right) :
    illFormedTail lead (rest ++ right) = illFormedTail lead rest := by
  rcases rest with _ | ⟨y, _ | ⟨z, rest⟩⟩
  · rcases right with _ | ⟨x, right⟩
    · rfl
    have none_ : secondOf lead x = false := by
      apply Bool.eq_false_iff.mpr
      intro second
      rcases cut with leads | complete
      · exact absurd (secondOf_range second).2.2 (by rw [leads x rfl]; decide)
      · have whole := complete [lead] (List.suffix_refl _)
        rw [incomplete, characterLength_second second, List.all_nil, Bool.and_true,
          decide_eq_false_iff_not] at whole
        split at whole <;> exact whole (by simp)
    rcases right with _ | ⟨x', right⟩ <;> simp [illFormedTail, none_]
  · rcases right with _ | ⟨x, right⟩
    · rfl
    simp only [List.cons_append, List.nil_append, illFormedTail]
    split
    · next second =>
      rw [if_neg]
      intro third
      obtain ⟨four, follows⟩ := (Bool.and_eq_true _ _).mp third
      rcases cut with leads | complete
      · exact absurd follows (by rw [leads x rfl]; decide)
      · have whole := complete [lead, y] (List.suffix_refl _)
        rw [incomplete, characterLength_second second,
          if_neg (UInt8.not_lt.mpr (of_decide_eq_true four))] at whole
        simp [(secondOf_range second).2.2] at whole
    · rfl
  · rfl

private theorem chars_append {left right : List UInt8} (cut : Cut left right) :
    chars (left ++ right) = chars left ++ chars right := by
  induction size : left.length using Nat.strongRecOn generalizing left with
  | ind n ih =>
    by_cases whole : ∃ c, String.utf8EncodeChar c <+: left
    · obtain ⟨c, tail, rfl⟩ := whole
      have positive := c.utf8Size_pos
      rw [List.length_append, String.length_utf8EncodeChar] at size
      rw [List.append_assoc, chars_char, chars_char,
        ih tail.length (by omega) (cut.of_suffix (List.suffix_append _ _)) rfl, List.cons_append]
    rcases left with _ | ⟨lead, rest⟩
    · rfl
    -- no character starts in the left part and ends in the right one
    have none_ : ∀ c, ¬String.utf8EncodeChar c <+: lead :: (rest ++ right) := by
      rintro c starts
      rcases List.prefix_or_prefix_of_prefix starts (List.prefix_append (lead :: rest) right)
        with within | ⟨more, across⟩
      · exact whole ⟨c, within⟩
      · have cut_short : more ≠ [] := by
          rintro rfl
          rw [List.append_nil] at across
          exact whole ⟨c, [], by rw [← across, List.append_nil]⟩
        obtain ⟨open_, b, first, follows⟩ := incomplete_of_prefix (by simp) cut_short across
        rcases cut with leads | complete
        · rw [← across, ← List.cons_append, List.prefix_append_right_inj] at starts
          obtain ⟨tail, rfl⟩ := starts
          rcases more with _ | ⟨b', more⟩
          · exact cut_short rfl
          · obtain rfl : b' = b := Option.some.inj first
            exact absurd follows (by rw [leads b' rfl]; decide)
        · rw [complete _ (List.suffix_refl _)] at open_
          exact absurd open_ (by decide)
    have small := illFormedTail_le lead rest
    rw [List.cons_append, chars_illFormed none_, chars_illFormed fun c starts => whole ⟨c, starts⟩,
      illFormedTail_append cut, List.drop_append_of_le_length small]
    have shorter : (rest.drop (illFormedTail lead rest)).length < n := by
      rw [List.length_drop, ← size, List.length_cons]
      omega
    rw [ih _ shorter (cut.of_suffix ((List.drop_suffix _ _).trans (List.suffix_cons _ _))) rfl,
      List.cons_append]

theorem utf8Decode_append {left right : List UInt8} (cut : Cut left right) :
    utf8Decode (left ++ right) = utf8Decode left ++ utf8Decode right := by
  change String.ofList (chars (left ++ right)) = _
  rw [chars_append cut, String.ofList_append]
  rfl

theorem utf8Decode_newline : utf8Decode [0x0A] = "\n" := utf8Decode_utf8 "\n"

theorem newline_mem_utf8Decode {bytes : List UInt8} (listed : '\n' ∈ (utf8Decode bytes).toList) :
    0x0A ∈ bytes := by
  rw [utf8Decode, String.toList_ofList] at listed
  change '\n' ∈ chars bytes at listed
  induction size : bytes.length using Nat.strongRecOn generalizing bytes with
  | ind n ih =>
    by_cases whole : ∃ c, String.utf8EncodeChar c <+: bytes
    · obtain ⟨c, tail, rfl⟩ := whole
      have positive := c.utf8Size_pos
      rw [List.length_append, String.length_utf8EncodeChar] at size
      rw [chars_char, List.mem_cons] at listed
      rcases listed with rfl | later
      · exact List.mem_append_left _ (by decide)
      · exact List.mem_append_right _ (ih tail.length (by omega) later rfl)
    rcases bytes with _ | ⟨lead, rest⟩
    · exact absurd listed List.not_mem_nil
    rw [chars_illFormed fun c starts => whole ⟨c, starts⟩, List.mem_cons] at listed
    rcases listed with same | later
    · exact absurd same (by decide)
    · have shorter : (rest.drop (illFormedTail lead rest)).length < n := by
        rw [List.length_drop, ← size, List.length_cons]
        omega
      exact List.mem_cons_of_mem _ (List.mem_of_mem_drop (ih _ shorter later rfl))

theorem incomplete_length {bytes : List UInt8} (cut : incomplete bytes = true) :
    0 < bytes.length ∧ bytes.length < 4 := by
  rcases bytes with _ | ⟨lead, rest⟩
  · exact absurd cut (by decide)
  · rw [incomplete, Bool.and_eq_true, decide_eq_true_eq, characterLength] at cut
    rw [List.length_cons]
    have size := cut.1
    repeat' split at size
    all_goals omega

private theorem incomplete_lead {lead : UInt8} {rest : List UInt8}
    (cut : incomplete (lead :: rest) = true) : continuation lead = false ∧ 0xC0 ≤ lead := by
  rw [incomplete, Bool.and_eq_true, decide_eq_true_eq, characterLength] at cut
  have large : ¬lead < 0xC0 := by
    intro small
    rw [if_pos small] at cut
    omega
  rw [UInt8.not_lt] at large
  constructor
  · rw [continuation, Bool.and_eq_false_iff, decide_eq_false_iff_not, decide_eq_false_iff_not]
    exact Or.inr (UInt8.not_le.mpr (UInt8.lt_of_lt_of_le (by decide) large))
  · exact large

theorem newline_not_mem_incomplete {bytes : List UInt8} (cut : incomplete bytes = true) :
    0x0A ∉ bytes := by
  rcases bytes with _ | ⟨lead, rest⟩
  · exact List.not_mem_nil
  · rw [List.mem_cons, not_or]
    constructor
    · rintro rfl
      exact absurd (incomplete_lead cut).2 (by decide)
    · intro listed
      rw [incomplete, Bool.and_eq_true] at cut
      exact absurd (List.all_eq_true.mp cut.2 _ listed) (by decide)

/-- A character that is open at the end is cut off from what is before it. -/
theorem Cut.of_incomplete {left right more : List UInt8} (cut : incomplete right = true) :
    Cut left (right ++ more) := by
  rcases right with _ | ⟨lead, rest⟩
  · exact absurd cut (by decide)
  · refine Or.inl fun b first => ?_
    obtain rfl := Option.some.inj first
    exact (incomplete_lead cut).1

theorem Cut.take {left right : List UInt8} {n : Nat} (cut : Cut left right) :
    Cut left (right.take n) := by
  refine cut.imp (fun leads b first => leads b ?_) id
  rw [List.head?_take] at first
  split at first
  · exact absurd first (by simp)
  · exact first

theorem complete_append {left right tail : List UInt8} (cut : ∀ more, Cut left (right ++ more))
    (complete : ∀ tail, tail <:+ right → incomplete tail = false) (suffix : tail <:+ left ++ right) :
    incomplete tail = false := by
  rcases List.suffix_or_suffix_of_suffix suffix (List.suffix_append left right) with within | across
  · exact complete tail within
  obtain ⟨start, rfl⟩ := across
  rw [List.suffix_append_self_iff] at suffix
  rcases start with _ | ⟨lead, start⟩
  · exact complete _ (List.suffix_refl _)
  apply Bool.eq_false_iff.mpr
  intro open_
  rw [List.cons_append, incomplete, Bool.and_eq_true, decide_eq_true_eq, List.all_append,
    Bool.and_eq_true, List.length_append] at open_
  obtain ⟨size, follow, follows⟩ := open_
  -- a continuation byte after both parts would be cut off from the left one
  rcases cut [0x80] with leads | whole
  · rcases right with _ | ⟨b, right⟩
    · exact absurd (leads 0x80 rfl) (by decide)
    · rw [List.all_cons, leads b rfl] at follows
      exact absurd follows (by simp)
  · have shorter := whole _ suffix
    rw [incomplete, follow, Bool.and_true, decide_eq_false_iff_not] at shorter
    omega

/-- `items.join("\0")`. -/
def joinNul (items : List String) : String :=
  String.ofList (['\x00'].intercalate (items.map String.toList))

/-- `text.split('\0')`. -/
def splitNul (text : String) : List String :=
  (text.toList.splitOn '\x00').map String.ofList

theorem splitNul_joinNul (items : List String) (some_ : items ≠ [])
    (clean : ∀ s ∈ items, '\x00' ∉ s.toList) : splitNul (joinNul items) = items := by
  have parts : (['\x00'].intercalate (items.map String.toList)).splitOn '\x00' =
      items.map String.toList := by
    apply List.splitOn_intercalate
    · intro part member
      obtain ⟨s, hs, rfl⟩ := List.mem_map.mp member
      exact clean s hs
    · simpa using some_
  rw [splitNul, joinNul, String.toList_ofList, parts, List.map_map]
  simp

end CodeGraph.Text
