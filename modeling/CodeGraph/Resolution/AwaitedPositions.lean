import CodeGraph.Resolution.AwaitedIndex

/-!
# Positions in the awaited-call index

Lines and columns of the source are those of the sanitized text, unless a literal goes on behind an
escaped line break: that line break is blanked, and the lines behind it have other numbers.
-/
namespace CodeGraph.Resolution.Awaited

open CharOffsets JsText Kernel.Columns PartitionPoint Text

/-- `utf16_len`: one for every byte that does not continue a character, one more for a lead byte of
four. -/
def unitsOfByte (b : UInt8) : Nat := (if b &&& 0xC0 ≠ 0x80 then 1 else 0) + if 0xF0 ≤ b then 1 else 0

def utf16_len (s : String) : Nat := ((utf8 s).map unitsOfByte).sum

/-- The loop of `advance_units`, with the units that it has seen. -/
def advanceFrom (units : Nat) : Nat → Text → Nat
  | _, [] => 0
  | seen, ch :: rest => if units ≤ seen then 0 else ch.utf8Size + advanceFrom units (seen + lenUtf16 ch) rest

def advance_units (s : String) (start units : Nat) : Option Nat :=
  (splitAt s.toList start).map fun parts => start + advanceFrom units 0 parts.2

namespace AwaitedIndex

/-- The 1-based line of an offset, and its column. -/
def line_col (index : AwaitedIndex) (at_ : Nat) : Option (Nat × Nat) := do
  let line := partitionPoint (· ≤ at_) index.offsets
  let start ← index.offsets[line - 1]?
  let text ← slice index.code start at_
  return (line, utf16_len text)

/-- Where `resolve_awaited_call_type` ends the code before a reference. -/
def referenceEnd (index : AwaitedIndex) (line column : Nat) : Option Nat :=
  let base := index.offsets[line - 1]?.getD (utf8 index.code).length
  advance_units index.code (min base (utf8 index.code).length) column

end AwaitedIndex

variable {c : Char} {cs before after rest : List Char} {code raw : String}

theorem unitsOfByte_ofNat {n : Nat} (byte : n < 256) : unitsOfByte (UInt8.ofNat n) =
    if n < 0x80 then 1 else if n < 0xC0 then 0 else if n < 0xF0 then 1 else 2 := by
  revert n
  decide +kernel

def continues (b : UInt8) : Bool := b &&& 0xC0 == 0x80

theorem continues_ofNat {n : Nat} (byte : n < 256) :
    continues (UInt8.ofNat n) = decide (0x80 ≤ n ∧ n < 0xC0) := by
  revert n
  decide +kernel

theorem unitsOfByte_continues {b : UInt8} (within_ : continues b = true) : unitsOfByte b = 0 := by
  rw [← UInt8.ofNat_toNat (x := b), continues_ofNat b.toNat_lt, decide_eq_true_eq] at within_
  rw [← UInt8.ofNat_toNat (x := b), unitsOfByte_ofNat b.toNat_lt, if_neg (by omega), if_pos within_.2]

theorem encodeChar_units (c : Char) : ∃ b tail, String.utf8EncodeChar c = b :: tail ∧
    continues b = false ∧ unitsOfByte b = lenUtf16 c ∧ ∀ t ∈ tail, continues t = true := by
  have wide : c.val < 0x10000 ↔ c.val.toNat < 0x10000 := UInt32.lt_iff_toNat_lt
  have valid : c.val.toNat < 0x110000 := by
    have bound := c.valid
    rcases bound with low | high
    · exact Nat.lt_trans low (by decide)
    · exact high.2
  have within_ : ∀ {n : Nat}, 0x80 ≤ n → n < 0xC0 → continues (UInt8.ofNat n) = true := fun low high =>
    (continues_ofNat (by omega)).trans (decide_eq_true ⟨low, high⟩)
  have lead : ∀ {n : Nat}, n < 256 → (n < 0x80 ∨ 0xC0 ≤ n) → continues (UInt8.ofNat n) = false := fun byte out =>
    (continues_ofNat byte).trans (decide_eq_false (by omega))
  rw [lenUtf16, String.utf8EncodeChar]
  split
  · refine ⟨_, _, rfl, lead (by omega) (by omega), ?_, List.forall_mem_nil _⟩
    rw [unitsOfByte_ofNat (by omega), if_pos (by omega), if_pos (wide.mpr (by omega))]
  split
  · refine ⟨_, _, rfl, lead (by omega) (by omega), ?_, ?_⟩
    · rw [unitsOfByte_ofNat (by omega), if_neg (by omega), if_neg (by omega), if_pos (by omega),
        if_pos (wide.mpr (by omega))]
    · exact List.forall_mem_singleton.mpr (within_ (by omega) (by omega))
  split
  · refine ⟨_, _, rfl, lead (by omega) (by omega), ?_, ?_⟩
    · rw [unitsOfByte_ofNat (by omega), if_neg (by omega), if_neg (by omega), if_pos (by omega),
        if_pos (wide.mpr (by omega))]
    · simp only [List.forall_mem_cons]
      exact ⟨within_ (by omega) (by omega), within_ (by omega) (by omega), List.forall_mem_nil _⟩
  · refine ⟨_, _, rfl, lead (by omega) (by omega), ?_, ?_⟩
    · rw [unitsOfByte_ofNat (by omega), if_neg (by omega), if_neg (by omega), if_neg (by omega),
        if_neg (mt wide.mp (by omega))]
    · simp only [List.forall_mem_cons]
      exact ⟨within_ (by omega) (by omega), within_ (by omega) (by omega), within_ (by omega) (by omega), List.forall_mem_nil _⟩

theorem sum_continues {tail : List UInt8} (all : ∀ t ∈ tail, continues t = true) :
    (tail.map unitsOfByte).sum = 0 := by
  rw [List.sum_eq_zero_iff_forall_eq_nat]
  exact List.forall_mem_map.mpr fun t listed => unitsOfByte_continues (all t listed)

theorem units_encodeChar (c : Char) : ((String.utf8EncodeChar c).map unitsOfByte).sum = lenUtf16 c := by
  obtain ⟨b, tail, bytes, -, first, rest⟩ := encodeChar_units c
  rw [bytes, List.map_cons, List.sum_cons, first, sum_continues rest, Nat.add_zero]

theorem utf16_len_eq (s : String) : utf16_len s = units s.toList := by
  rw [utf16_len, utf8]
  induction s.toList with
  | nil => rfl
  | cons c cs ih => rw [List.flatMap_cons, List.map_append, List.sum_append, units_encodeChar, ih, units_cons]

theorem read_offsets (length : Nat) (done : List UInt8) : (read length done).offsets =
    done.zipIdx.foldl (fun out b => if b.1 = 0x0A then out ++ [b.2 + 1] else out) [0] := by
  induction done using List.reverseRecOn with
  | nil => rfl
  | append_singleton done b ih =>
    rw [read_snoc, List.zipIdx_append, List.foldl_append, ← ih, Nat.zero_add, List.zipIdx_singleton,
      List.foldl_cons, List.foldl_nil, buildByte]
    split
    · rfl
    split
    · rfl
    split
    · split <;> rfl
    · rfl

theorem offsets_ofCode (code : String) : (AwaitedIndex.ofCode code).offsets = lineStarts code :=
  read_offsets _ _

theorem lenUtf16_pos (c : Char) : 0 < lenUtf16 c := by
  rw [lenUtf16]
  split <;> decide

theorem advanceFrom_front {n seen : Nat} (le : seen + units cs ≤ n) (after : List Char) :
    advanceFrom n seen (cs ++ after) = byteLength cs + advanceFrom n (seen + units cs) after := by
  induction cs generalizing seen with
  | nil => rw [byteLength_nil, Nat.zero_add, units_nil, Nat.add_zero, List.nil_append]
  | cons c cs ih =>
    have positive := lenUtf16_pos c
    rw [units_cons] at le
    rw [List.cons_append, advanceFrom, if_neg (by omega), ih (by omega), byteLength_cons, units_cons,
      ← Nat.add_assoc, ← Nat.add_assoc]

theorem advanceFrom_stop (n : Nat) (after : List Char) : advanceFrom n n after = 0 := by
  cases after with
  | nil => rfl
  | cons c after => rw [advanceFrom, if_pos (Nat.le_refl n)]

/-- At a boundary of the code the line and the column lead back to the offset. -/
theorem line_col_boundary (whole : code.toList = before ++ after) :
    (AwaitedIndex.ofCode code).line_col (byteLength before) =
        some (before.count '\n' + 1, units (lastOf before)) ∧
      (AwaitedIndex.ofCode code).referenceEnd (before.count '\n' + 1) (units (lastOf before)) =
        some (byteLength before) := by
  obtain ⟨front, parts, row, line⟩ := slice_line whole
  constructor
  · rw [AwaitedIndex.line_col, offsets_ofCode, line_number whole, Nat.add_sub_cancel, row]
    show (do
      let text ← slice code (byteLength front) (byteLength before)
      some (before.count '\n' + 1, utf16_len text)) = _
    rw [line]
    show some (before.count '\n' + 1, utf16_len (String.ofList (lastOf before))) = _
    rw [utf16_len_eq, String.toList_ofList]
  · have split_ : code.toList = front ++ (lastOf before ++ after) := by
      rw [whole, ← List.append_assoc, ← parts]
    have inside : byteLength front ≤ (utf8 code).length := by
      rw [length_utf8, split_, byteLength_append]
      exact Nat.le_add_right _ _
    have walk := advanceFrom_front (Nat.le_of_eq (Nat.zero_add (units (lastOf before)))) after
    rw [Nat.zero_add, advanceFrom_stop, Nat.add_zero] at walk
    rw [AwaitedIndex.referenceEnd, offsets_ofCode, Nat.add_sub_cancel, row, Option.getD_some]
    show advance_units code (min (byteLength front) (utf8 code).length) _ = _
    rw [Nat.min_eq_left inside, advance_units, CharOffsets.splitAt_eq.mpr ⟨split_, rfl⟩, Option.map_some, walk,
      ← byteLength_append, ← parts]

/-! ### Positions of the source -/

theorem units_lastOf (t : Text) : units (lastOf t) = ((marks t).reverse.takeWhile (· == false)).length := by
  induction t using List.reverseRecOn with
  | nil => rfl
  | append_singleton t c ih =>
    have one : marks [c] = if c = '\n' then [true] else List.replicate (lenUtf16 c) false := by
      rw [marks_cons]
      exact List.append_nil _
    rw [lastOf, List.reverse_append, List.reverse_singleton, List.singleton_append, marks_append,
      List.reverse_append, one]
    split
    · next newline =>
      rw [List.takeWhile_cons_of_neg (by simpa using newline)]
      rfl
    · next other =>
      rw [List.takeWhile_cons_of_pos (by simpa using other), List.reverse_cons, List.reverse_replicate,
        units_append, units_cons, units_nil, Nat.add_zero, List.takeWhile_append_of_pos, List.length_append,
        List.length_replicate, ← ih, Nat.add_comm]
      · rfl
      · intro b listed
        rw [List.eq_of_mem_replicate listed]
        rfl

theorem lastOf_lineStart (line : cs = [] ∨ cs.getLast? = some '\n') : lastOf cs = [] := by
  rcases line with rfl | ends
  · rfl
  · obtain ⟨pre, rfl⟩ := List.getLast?_eq_some_iff.mp ends
    rw [lastOf, List.reverse_append, List.reverse_singleton, List.singleton_append,
      List.takeWhile_cons_of_neg (by decide), List.reverse_nil]

theorem eq_nil_of_units (none_ : units cs = 0) : cs = [] := by
  cases cs with
  | nil => rfl
  | cons c cs =>
    have positive := lenUtf16_pos c
    rw [units_cons] at none_
    omega

structure KeepsPositions (raw : String) : Prop where
  length : (utf16 (AwaitedIndex.build raw).code).length = (utf16 raw).length
  newlines : ∀ k : Nat, (utf16 (AwaitedIndex.build raw).code)[k]? = some 0x0A ↔ (utf16 raw)[k]? = some 0x0A
  lines : (AwaitedIndex.build raw).offsets.length = raw.toList.count '\n' + 1
  /-- The start of a source line. -/
  starts : ∀ before after, raw.toList = before ++ after → before = [] ∨ before.getLast? = some '\n' →
    ∃ before' after', (AwaitedIndex.build raw).code.toList = before' ++ after' ∧
      units before' = units before ∧
      (AwaitedIndex.build raw).offsets[before.count '\n']? = some (byteLength before')
  /-- The line and the column of a place of the source. -/
  inverts : ∀ before after, raw.toList = before ++ after →
    ∃ before' after', (AwaitedIndex.build raw).code.toList = before' ++ after' ∧
      units before' = units before ∧
      (AwaitedIndex.build raw).referenceEnd (before.count '\n' + 1) (units (lastOf before)) =
        some (byteLength before') ∧
      (AwaitedIndex.build raw).line_col (byteLength before') =
        some (before.count '\n' + 1, units (lastOf before))

theorem offsets_build (raw : String) :
    (AwaitedIndex.build raw).offsets = lineStarts (AwaitedIndex.build raw).code := offsets_ofCode _

theorem marks_toList (s : String) : marks s.toList = (utf16 s).map (· == 0x0A) := rfl

theorem keepsPositions (masked : Masked raw.toList (AwaitedIndex.build raw).code.toList) :
    KeepsPositions raw where
  length := by rw [length_utf16, length_utf16, masked.units_eq]
  newlines k := by
    have same := congrArg (·[k]?) masked.marks_eq
    simp only [marks_toList, List.getElem?_map] at same
    constructor
    · intro found
      rw [found] at same
      obtain ⟨u, found', newline⟩ := Option.map_eq_some_iff.mp same.symm
      rw [found', beq_iff_eq.mp newline]
    · intro found
      rw [found] at same
      obtain ⟨u, found', newline⟩ := Option.map_eq_some_iff.mp same
      rw [found', beq_iff_eq.mp newline]
  lines := by
    rw [offsets_build, lineStarts_eq, List.length_cons, length_startsFrom, ← count_marks, masked.marks_eq,
      count_marks]
  starts before after whole line := by
    rw [whole] at masked
    obtain ⟨before', after', whole', first, -⟩ := masked.split
    refine ⟨before', after', whole', first.units_eq, ?_⟩
    obtain ⟨front, parts, row, -⟩ := slice_line whole'
    have none_ : lastOf before' = [] := by
      refine eq_nil_of_units ?_
      rw [units_lastOf, first.marks_eq, ← units_lastOf, lastOf_lineStart line, units_nil]
    rw [none_, List.append_nil] at parts
    rw [← parts] at row
    rw [offsets_build, ← count_marks, ← first.marks_eq, count_marks, row]
  inverts before after whole := by
    rw [whole] at masked
    obtain ⟨before', after', whole', first, -⟩ := masked.split
    obtain ⟨there, back⟩ := line_col_boundary whole'
    rw [← count_marks, first.marks_eq, count_marks, units_lastOf, first.marks_eq, ← units_lastOf] at there back
    exact ⟨before', after', whole', first.units_eq, back, there⟩

/-- The index keeps positions and scopes unless a literal of the text without its comments goes on
behind an escaped line break. -/
theorem awaited_index_keeps_iff (raw : String) :
    KeepsPositions raw ∧ KeepsScopes (AwaitedIndex.build raw).code ↔
      ¬ContinuesLine (strip_ts_comments raw.toList) := by
  have stripped : Masked raw.toList (strip_ts_comments raw.toList) := strip_masked _ _ _
  have code : (AwaitedIndex.build raw).code.toList = blank_string_contents (strip_ts_comments raw.toList) :=
    String.toList_ofList
  constructor
  · rintro ⟨keeps, -⟩ continues
    have lost := blank_loses continues
    -- as many newlines: the units agree one by one
    have same : marks (AwaitedIndex.build raw).code.toList = marks raw.toList := by
      rw [marks_toList, marks_toList]
      refine List.ext_getElem (by rw [List.length_map, List.length_map, keeps.length]) fun k inside inside' => ?_
      rw [List.length_map] at inside inside'
      have newlines := keeps.newlines k
      rw [List.getElem?_eq_getElem inside, List.getElem?_eq_getElem inside', Option.some.injEq,
        Option.some.injEq] at newlines
      rw [List.getElem_map, List.getElem_map, Bool.eq_iff_iff, beq_iff_eq, beq_iff_eq, newlines]
    rw [← count_marks, ← count_marks, ← code, same, stripped.marks_eq] at lost
    exact absurd lost (Nat.lt_irrefl _)
  · intro clean
    refine ⟨keepsPositions ?_, keepsScopes _⟩
    rw [code]
    exact stripped.trans (blank_masked clean)

def continuedText : String := String.ofList ['\'', '\\', '\n', '\'']

/-- Its line break is blanked. -/
theorem continuedText_joined : ¬(KeepsPositions continuedText ∧
    KeepsScopes (AwaitedIndex.build continuedText).code) := by
  rintro ⟨keeps, -⟩
  have newline : (utf16 continuedText)[2]? = some 0x0A := by decide +kernel
  have blank : (utf16 (AwaitedIndex.build continuedText).code)[2]? = some 0x20 := by decide +kernel
  have found := (keeps.newlines 2).mpr newline
  rw [blank] at found
  exact absurd found (by decide)

end CodeGraph.Resolution.Awaited
