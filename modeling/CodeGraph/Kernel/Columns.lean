import CodeGraph.Foundation.CharOffsets
import CodeGraph.Foundation.PartitionPoint

/-! Lines and UTF-16 columns of byte offsets. -/
namespace CodeGraph.Kernel.Columns

open Text CharOffsets PartitionPoint

/-! ### Line starts and columns -/

def lineStarts (src : String) : List Nat :=
  (utf8 src).zipIdx.foldl (fun out b => if b.1 = 0x0A then out ++ [b.2 + 1] else out) [0]

def utf16Len (s : String) : Nat := (s.toList.map lenUtf16).sum

def isAscii (src : String) : Bool := (utf8 src).all (· < 0x80)

def col16 (src : String) (starts : List Nat) (row bytePos : Nat) : Option UInt32 :=
  let ls := starts[row]?.getD 0
  if bytePos ≤ ls then some 0
  else (slice src ls bytePos).map fun line => UInt32.ofNat (utf16Len line)

structure Filling where
  out : List UInt32
  units : UInt32
  i : Nat

def fillChar (s : Filling) (ch : Char) : Filling :=
  let len := ch.utf8Size
  { out := (List.range len).foldl (fun out k => out.set (s.i + k) s.units) s.out
    units := s.units + UInt32.ofNat (lenUtf16 ch)
    i := s.i + len }

/-- UTF-16 units before each byte offset. -/
def utf16Prefix (src : String) : List UInt32 :=
  let bytes := utf8 src
  let s := src.toList.foldl fillChar ⟨List.replicate (bytes.length + 1) 0, 0, 0⟩
  s.out.set bytes.length s.units

structure Cols where
  starts : List Nat
  ascii : Bool
  table : Option (List UInt32)

namespace Cols

def new (src : String) : Cols := ⟨lineStarts src, isAscii src, none⟩

def col (cols : Cols) (src : String) (row bytePos : Nat) : UInt32 × Cols :=
  let ls := cols.starts[row]?.getD 0
  if bytePos ≤ ls then (0, cols)
  else if cols.ascii then (UInt32.ofNat (bytePos - ls), cols)
  else
    let table := cols.table.getD (utf16Prefix src)
    let unitsAt (b : Nat) := table[b]?.getD (table.getLastD 0)
    (unitsAt bytePos - unitsAt ls, { cols with table := some table })

/-- The 1-based line and the column. -/
def position (cols : Cols) (src : String) (bytePos : Nat) : (UInt32 × UInt32) × Cols :=
  let row := partitionPoint (· ≤ bytePos) cols.starts - 1
  let (col, cols) := cols.col src row bytePos
  ((UInt32.ofNat row + 1, col), cols)

inductive Serves (src : String) : Cols → Prop where
  | new : Serves src (new src)
  | col {cols : Cols} (row bytePos : Nat) : Serves src cols → Serves src (cols.col src row bytePos).2
  | position {cols : Cols} (bytePos : Nat) : Serves src cols → Serves src (cols.position src bytePos).2

end Cols

/-- The UTF-16 index that a tree's row gets for a byte offset. -/
def idx16 (src : String) (byte : Nat) : Option UInt32 :=
  if isAscii src then some (UInt32.ofNat byte) else (utf16Prefix src)[byte]?

/-- The range of a tree-sitter node, whose offsets are 32-bit. -/
structure NodeRange where
  startByte : UInt32
  endByte : UInt32

def newlines (s : String) : Nat := s.toList.count '\n'

def lastLine (s : String) : String := String.ofList (s.toList.reverse.takeWhile (· ≠ '\n')).reverse

variable {src : String} {cs before after : List Char} {c : Char}

def startsFrom (i : Nat) : List Char → List Nat
  | [] => []
  | c :: cs => if c = '\n' then (i + 1) :: startsFrom (i + 1) cs else startsFrom (i + c.utf8Size) cs

theorem newline_byte (listed : (0x0A : UInt8) ∈ String.utf8EncodeChar c) : c = '\n' := by
  obtain ⟨single, same⟩ := byte_of_ascii listed (by decide)
  have small : c.val.toNat ≤ 127 := Char.utf8Size_eq_one_iff.mp single
  have value := congrArg UInt8.toNat same
  rw [UInt8.toNat_ofNat', Nat.mod_eq_of_lt (by omega)] at value
  exact Char.ext (UInt32.toNat_inj.mp value.symm)

theorem lineStarts_bytes (bytes : List UInt8) (none_ : (0x0A : UInt8) ∉ bytes) (i : Nat) (out : List Nat) :
    (bytes.zipIdx i).foldl (fun out b => if b.1 = 0x0A then out ++ [b.2 + 1] else out) out = out := by
  induction bytes generalizing i with
  | nil => rfl
  | cons b bytes ih =>
    rw [List.mem_cons, not_or] at none_
    rw [List.zipIdx_cons, List.foldl_cons, if_neg fun same => none_.1 same.symm]
    exact ih none_.2 (i + 1)

theorem lineStarts_from (cs : List Char) (i : Nat) (out : List Nat) :
    ((cs.flatMap String.utf8EncodeChar).zipIdx i).foldl
      (fun out b => if b.1 = 0x0A then out ++ [b.2 + 1] else out) out = out ++ startsFrom i cs := by
  induction cs generalizing i out with
  | nil => exact (List.append_nil out).symm
  | cons c cs ih =>
    rw [List.flatMap_cons, List.zipIdx_append, List.foldl_append, String.length_utf8EncodeChar, startsFrom]
    by_cases newline : c = '\n'
    · subst newline
      have bytes : String.utf8EncodeChar '\n' = [0x0A] := by decide
      have size : '\n'.utf8Size = 1 := by decide
      rw [bytes, size, if_pos rfl, List.zipIdx_singleton, List.foldl_cons, if_pos rfl, List.foldl_nil, ih,
        List.append_assoc]
      rfl
    · rw [lineStarts_bytes _ (fun listed => newline (newline_byte listed)), if_neg newline, ih]

theorem lineStarts_eq (src : String) : lineStarts src = 0 :: startsFrom 0 src.toList :=
  lineStarts_from src.toList 0 [0]

theorem startsFrom_append (i : Nat) : startsFrom i (before ++ after) =
    startsFrom i before ++ startsFrom (i + byteLength before) after := by
  induction before generalizing i with
  | nil => rfl
  | cons c cs ih =>
    rw [List.cons_append, startsFrom, startsFrom, byteLength_cons, ih, ih, ← Nat.add_assoc]
    split
    · next newline =>
      subst newline
      rfl
    · rfl

theorem length_startsFrom (i : Nat) (cs : List Char) : (startsFrom i cs).length = cs.count '\n' := by
  induction cs generalizing i with
  | nil => rfl
  | cons c cs ih =>
    rw [startsFrom, List.count_cons]
    split
    · next newline => simp [ih, newline]
    · next other => simp [ih, other]

theorem startsFrom_bounds {i j : Nat} (listed : j ∈ startsFrom i cs) : i < j ∧ j ≤ i + byteLength cs := by
  induction cs generalizing i with
  | nil => cases listed
  | cons c cs ih =>
    have positive := c.utf8Size_pos
    rw [startsFrom] at listed
    rw [byteLength_cons]
    split at listed
    · rcases List.mem_cons.mp listed with rfl | later
      · omega
      · have bounds := ih later
        omega
    · have bounds := ih listed
      omega

def lastOf (cs : List Char) : List Char := (cs.reverse.takeWhile (· ≠ '\n')).reverse

theorem line_parts (cs : List Char) : ∃ front, cs = front ++ lastOf cs ∧ '\n' ∉ lastOf cs ∧
    (front = [] ∨ ∃ pre, front = pre ++ ['\n']) := by
  have whole : (cs.reverse.dropWhile (· ≠ '\n')).reverse ++ lastOf cs = cs := by
    rw [lastOf, ← List.reverse_append, List.takeWhile_append_dropWhile, List.reverse_reverse]
  refine ⟨(cs.reverse.dropWhile (· ≠ '\n')).reverse, whole.symm, fun listed => ?_, ?_⟩
  · have kept := List.mem_takeWhile_imp (List.mem_reverse.mp listed)
    simp at kept
  · cases rest : cs.reverse.dropWhile (· ≠ '\n') with
    | nil => exact .inl rfl
    | cons c rest' =>
      have stops := List.head?_dropWhile_not (· ≠ '\n') cs.reverse
      rw [rest] at stops
      have newline : c = '\n' := by simpa using stops
      exact .inr ⟨rest'.reverse, by rw [List.reverse_cons, newline]⟩

theorem row_start {front last : List Char} (clean : '\n' ∉ last)
    (ends : front = [] ∨ ∃ pre, front = pre ++ ['\n']) (whole : src.toList = front ++ last ++ after) :
    (lineStarts src)[(front ++ last).count '\n']? = some (byteLength front) := by
  have none_ : last.count '\n' = 0 := List.count_eq_zero.mpr clean
  rw [lineStarts_eq, whole, List.count_append, none_, Nat.add_zero, List.append_assoc, startsFrom_append]
  rcases ends with rfl | ⟨pre, rfl⟩
  · rfl
  · have one : startsFrom (0 + byteLength pre) ['\n'] = [byteLength (pre ++ ['\n'])] := by
      have size : '\n'.utf8Size = 1 := by decide
      simp [startsFrom, size]
    rw [startsFrom_append, one, List.count_append, List.count_singleton_self, List.getElem?_cons_succ,
      ← length_startsFrom 0 pre, List.append_assoc, List.getElem?_append_right (Nat.le_refl _), Nat.sub_self]
    rfl

/-- The search ends behind the starts of the lines up to the offset's own. -/
theorem line_number (whole : src.toList = before ++ after) :
    partitionPoint (· ≤ byteLength before) (lineStarts src) = before.count '\n' + 1 := by
  have parts : lineStarts src = (0 :: startsFrom 0 before) ++ startsFrom (byteLength before) after := by
    rw [lineStarts_eq, whole, startsFrom_append, Nat.zero_add, List.cons_append]
  have below : ∀ j ∈ 0 :: startsFrom 0 before, decide (j ≤ byteLength before) = true := by
    intro j listed
    rcases List.mem_cons.mp listed with rfl | later
    · exact decide_eq_true (Nat.zero_le _)
    · have bounds := startsFrom_bounds later
      exact decide_eq_true (by omega)
  have above : ∀ j ∈ startsFrom (byteLength before) after, decide (j ≤ byteLength before) = false := by
    intro j listed
    have bounds := startsFrom_bounds listed
    exact decide_eq_false (by omega)
  rw [parts, partitionPoint_append below above, List.length_cons, length_startsFrom]

theorem position_row (whole : src.toList = before ++ after) :
    partitionPoint (· ≤ byteLength before) (lineStarts src) - 1 = before.count '\n' := by
  rw [line_number whole, Nat.add_sub_cancel]

theorem slice_line (whole : src.toList = before ++ after) : ∃ front, before = front ++ lastOf before ∧
    (lineStarts src)[before.count '\n']? = some (byteLength front) ∧
    slice src (byteLength front) (byteLength before) = some (String.ofList (lastOf before)) := by
  obtain ⟨front, parts, clean, ends⟩ := line_parts before
  have row := row_start clean ends (parts ▸ whole)
  rw [← parts] at row
  refine ⟨front, parts, row, slice_eq.mpr ⟨front, after, ?_, rfl, ?_⟩⟩
  · rw [String.toList_ofList, ← parts, whole]
  · rw [String.toList_ofList, ← byteLength_append, ← parts]

theorem length_setRange (ks : List Nat) (i : Nat) (v : UInt32) (out : List UInt32) :
    (ks.foldl (fun out k => out.set (i + k) v) out).length = out.length := by
  induction ks generalizing out with
  | nil => rfl
  | cons k ks ih => rw [List.foldl_cons, ih, List.length_set]

theorem setRange_inside {len i j : Nat} (v : UInt32) {out : List UInt32} (le : i ≤ j) (less : j < i + len)
    (short : i + len ≤ out.length) :
    ((List.range len).foldl (fun out k => out.set (i + k) v) out)[j]? = some v := by
  induction len with
  | zero => omega
  | succ len ih =>
    rw [List.range_succ, List.foldl_append, List.foldl_cons, List.foldl_nil]
    by_cases last : i + len = j
    · rw [last, List.getElem?_set_self]
      rw [length_setRange]
      omega
    · rw [List.getElem?_set_ne last]
      exact ih (by omega) (by omega)

theorem setRange_before {i j : Nat} (ks : List Nat) (v : UInt32) (out : List UInt32) (less : j < i) :
    (ks.foldl (fun out k => out.set (i + k) v) out)[j]? = out[j]? := by
  induction ks generalizing out with
  | nil => rfl
  | cons k ks ih => rw [List.foldl_cons, ih, List.getElem?_set_ne (by omega)]

/-- What the loop has written when it has been through some characters. -/
structure Filled (size : Nat) (done : List Char) (s : Filling) : Prop where
  length : s.out.length = size
  units : s.units = UInt32.ofNat (units done)
  i : s.i = byteLength done
  entries : ∀ before c after, done = before ++ c :: after →
    s.out[byteLength before]? = some (UInt32.ofNat (CharOffsets.units before))

theorem Filled.next {size : Nat} {done : List Char} {s : Filling} (filled : Filled size done s) (ch : Char)
    (fits : byteLength (done ++ [ch]) ≤ size) : Filled size (done ++ [ch]) (fillChar s ch) := by
  obtain ⟨length, units, i, entries⟩ := filled
  have positive := ch.utf8Size_pos
  rw [byteLength_append, byteLength_cons, byteLength_nil, Nat.add_zero] at fits
  refine ⟨?_, ?_, ?_, fun before c after whole => ?_⟩
  · rw [fillChar, length_setRange, length]
  · simp only [fillChar, units, units_append, units_cons, units_nil, Nat.add_zero, UInt32.ofNat_add]
  · simp only [fillChar, i, byteLength_append, byteLength_cons, byteLength_nil, Nat.add_zero]
  · rcases List.eq_nil_or_concat after with rfl | ⟨after, last, rfl⟩
    · obtain ⟨rfl, -⟩ := List.append_inj' whole rfl
      simp only [fillChar, ← i, ← units]
      exact setRange_inside s.units (Nat.le_refl _) (by omega) (by omega)
    · rw [List.concat_eq_append, ← List.cons_append, ← List.append_assoc] at whole
      obtain ⟨rfl, -⟩ := List.append_inj' whole rfl
      have less : byteLength before < s.i := by
        have some_ := c.utf8Size_pos
        rw [i, byteLength_append, byteLength_cons]
        omega
      simp only [fillChar, setRange_before _ _ _ less]
      exact entries before c after rfl

theorem filled_all {size : Nat} {done : List Char} {s : Filling} (filled : Filled size done s)
    (cs : List Char) (fits : byteLength (done ++ cs) ≤ size) :
    Filled size (done ++ cs) (cs.foldl fillChar s) := by
  induction cs generalizing done s with
  | nil => rwa [List.append_nil]
  | cons c cs ih =>
    rw [List.append_cons] at fits ⊢
    have first : byteLength (done ++ [c]) ≤ size := by
      rw [byteLength_append] at fits
      omega
    exact ih (filled.next c first) fits

/-- The table has the units before each boundary, modulo 2^32. -/
theorem utf16Prefix_get (whole : src.toList = before ++ after) :
    (utf16Prefix src)[byteLength before]? = some (UInt32.ofNat (units before)) := by
  have start : Filled (byteLength src.toList + 1) [] ⟨List.replicate (byteLength src.toList + 1) 0, 0, 0⟩ :=
    ⟨List.length_replicate, rfl, rfl, fun before c after none_ =>
      absurd none_.symm (List.append_ne_nil_of_right_ne_nil before (List.cons_ne_nil c after))⟩
  obtain ⟨length, units_, -, entries⟩ := filled_all start src.toList (Nat.le_succ _)
  rw [List.nil_append] at units_ entries
  rw [utf16Prefix, length_utf8]
  cases after with
  | nil =>
    rw [List.append_nil] at whole
    rw [← whole, List.getElem?_set_self (by omega), units_]
  | cons c after =>
    have less : byteLength before ≠ byteLength src.toList := by
      have positive := c.utf8Size_pos
      rw [whole, byteLength_append, byteLength_cons]
      omega
    rw [List.getElem?_set_ne less.symm]
    exact entries before c after whole

theorem isAscii_single (ascii : isAscii src = true) : ∀ c ∈ src.toList, c.utf8Size = 1 := by
  intro c member
  obtain ⟨b, bytes, encoded⟩ := List.exists_cons_of_ne_nil (String.utf8EncodeChar_ne_nil (c := c))
  have first : b ∈ String.utf8EncodeChar c := encoded ▸ List.mem_cons_self
  have small := List.all_eq_true.mp ascii b (List.mem_flatMap.mpr ⟨c, member, first⟩)
  exact (byte_of_ascii first (of_decide_eq_true small)).1

structure ServesText (src : String) (cols : Cols) : Prop where
  starts : cols.starts = lineStarts src
  ascii : cols.ascii = isAscii src
  table : cols.table.getD (utf16Prefix src) = utf16Prefix src

theorem ServesText.col {cols : Cols} (serves : ServesText src cols) (row bytePos : Nat) :
    ServesText src (cols.col src row bytePos).2 := by
  obtain ⟨starts, ascii, table⟩ := serves
  simp only [Cols.col]
  split
  · exact ⟨starts, ascii, table⟩
  · split
    · exact ⟨starts, ascii, table⟩
    · exact ⟨starts, ascii, table⟩

theorem Cols.Serves.text {cols : Cols} (serves : Cols.Serves src cols) : ServesText src cols := by
  induction serves with
  | new => exact ⟨rfl, rfl, rfl⟩
  | col row bytePos _ ih => exact ih.col row bytePos
  | position bytePos _ ih => exact ih.col _ bytePos

/-- The column at an offset of the offset's own row is the number of units after the last newline. -/
theorem col_units {cols : Cols} (serves : ServesText src cols) (whole : src.toList = before ++ after) :
    (cols.col src (before.count '\n') (byteLength before)).1 = UInt32.ofNat (units (lastOf before)) := by
  obtain ⟨starts, ascii, table⟩ := serves
  obtain ⟨front, parts, clean, ends⟩ := line_parts before
  have row := row_start clean ends (parts ▸ whole)
  rw [← parts] at row
  have length : byteLength before = byteLength front + byteLength (lastOf before) := by
    rw [← byteLength_append, ← parts]
  have total : units before = units front + units (lastOf before) := by
    rw [← units_append, ← parts]
  simp only [Cols.col, starts, row, Option.getD_some]
  split
  · next le =>
    have none_ : lastOf before = [] := byteLength_eq_zero.mp (by omega)
    rw [none_]
    rfl
  · split
    · next fast =>
      rw [ascii] at fast
      have single : ∀ c ∈ lastOf before, c.utf8Size = 1 := fun c member =>
        isAscii_single fast c (by
          rw [whole, parts]
          exact List.mem_append_left _ (List.mem_append_right _ member))
      rw [units_ascii single, length, Nat.add_sub_cancel_left]
    · have here := utf16Prefix_get whole
      have split_ : src.toList = front ++ (lastOf before ++ after) := by
        rw [whole, ← List.append_assoc, ← parts]
      have atStart := utf16Prefix_get split_
      simp only [table, here, atStart, Option.getD_some]
      rw [total, UInt32.ofNat_add, UInt32.add_comm, UInt32.add_sub_cancel]

theorem col16_units (whole : src.toList = before ++ after) :
    col16 src (lineStarts src) (before.count '\n') (byteLength before) =
      some (UInt32.ofNat (units (lastOf before))) := by
  obtain ⟨front, parts, row, line⟩ := slice_line whole
  simp only [col16, row, Option.getD_some]
  split
  · next le =>
    have length : byteLength before = byteLength front + byteLength (lastOf before) := by
      rw [← byteLength_append, ← parts]
    have none_ : lastOf before = [] := byteLength_eq_zero.mp (by omega)
    rw [none_]
    rfl
  · rw [line, Option.map_some, utf16Len, String.toList_ofList]
    rfl

theorem idx16_units (whole : src.toList = before ++ after) :
    idx16 src (byteLength before) = some (UInt32.ofNat (units before)) := by
  rw [idx16]
  split
  · next ascii =>
    have single : ∀ c ∈ before, c.utf8Size = 1 := fun c member =>
      isAscii_single ascii c (whole ▸ List.mem_append_left after member)
    rw [units_ascii single]
  · exact utf16Prefix_get whole

theorem before_eq {bytePos : Nat} {text : String} (found : slice src 0 bytePos = some text) :
    ∃ after, src.toList = text.toList ++ after ∧ byteLength text.toList = bytePos := by
  obtain ⟨none_, after, whole, empty, length⟩ := slice_eq.mp found
  rw [byteLength_eq_zero.mp empty, List.nil_append] at whole
  exact ⟨after, whole, by omega⟩

theorem units_lastLine (text : String) : (utf16 (lastLine text)).length = units (lastOf text.toList) := by
  rw [length_utf16, lastLine, String.toList_ofList, lastOf]

/-- What the column service of a text answers at a boundary after `text`, as 32-bit numbers, and what
the indices of a node of its tree are for. -/
theorem columns_exact (src : String) :
    (∀ cols, Cols.Serves src cols → ∀ bytePos text, slice src 0 bytePos = some text →
      (cols.position src bytePos).1 =
          (UInt32.ofNat (1 + newlines text), UInt32.ofNat (utf16 (lastLine text)).length) ∧
        col16 src (lineStarts src) (newlines text) bytePos =
          some (cols.col src (newlines text) bytePos).1) ∧
      ∀ (node : NodeRange) text, slice src node.startByte.toNat node.endByte.toNat = some text →
        ∃ start stop, idx16 src node.startByte.toNat = some start ∧
          idx16 src node.endByte.toNat = some stop ∧
          ((utf16 src).take stop.toNat).drop start.toNat = utf16 text := by
  refine ⟨fun cols serves bytePos text found => ?_, fun node text found => ?_⟩
  · obtain ⟨after, whole, rfl⟩ := before_eq found
    have column := col_units serves.text whole
    refine ⟨?_, ?_⟩
    · have row := position_row whole
      rw [← serves.text.starts] at row
      simp only [Cols.position, row, column, units_lastLine, newlines]
      rw [Nat.add_comm 1, UInt32.ofNat_add]
      rfl
    · rw [newlines, column, col16_units whole]
  · obtain ⟨before, after, whole, start, stop⟩ := slice_eq.mp found
    have first : idx16 src (byteLength before) = _ :=
      idx16_units (whole.trans (List.append_assoc before text.toList after))
    have second := idx16_units whole
    rw [byteLength_append, start, stop] at second
    rw [start] at first
    refine ⟨_, _, first, second, ?_⟩
    -- A node's offsets are below 2^32, and there are no more units than bytes.
    have small : units before < 2 ^ 32 := by
      have le := units_le before
      have bound := node.startByte.toNat_lt
      omega
    have small' : units (before ++ text.toList) < 2 ^ 32 := by
      have le := units_le (before ++ text.toList)
      have bound := node.endByte.toNat_lt
      rw [byteLength_append] at le
      omega
    rw [UInt32.toNat_ofNat_of_lt' small, UInt32.toNat_ofNat_of_lt' small', units_append]
    exact utf16_slice whole

def mixedText : String := String.ofList ['\u00E9', '\n', Char.ofNat 0x1F600, 'b']

theorem columns_exact_mixed :
    ((Cols.new mixedText).position mixedText 7).1 = (2, 2) ∧
      col16 mixedText (lineStarts mixedText) 1 7 = some ((Cols.new mixedText).col mixedText 1 7).1 := by
  have text : slice mixedText 0 7 = some (String.ofList ['\u00E9', '\n', Char.ofNat 0x1F600]) := by
    decide +kernel
  obtain ⟨position, column⟩ := (columns_exact mixedText).1 _ .new 7 _ text
  refine ⟨position.trans (by decide +kernel), ?_⟩
  have row : newlines (String.ofList ['\u00E9', '\n', Char.ofNat 0x1F600]) = 1 := by decide +kernel
  rwa [row] at column

def letters (n : Nat) : String := String.ofList (List.replicate n 'a')

theorem position_letters (n : Nat) : ((Cols.new (letters n)).position (letters n) n).1 = (1, UInt32.ofNat n) ∧
    slice (letters n) 0 n = some (letters n) ∧ (utf16 (lastLine (letters n))).length = n := by
  have bytes : ∀ n, byteLength (List.replicate n 'a') = n := by
    intro n
    induction n with
    | zero => rfl
    | succ n ih =>
      have size : 'a'.utf8Size = 1 := by decide
      rw [List.replicate_succ, byteLength_cons, ih, size, Nat.add_comm]
  have list : (letters n).toList = List.replicate n 'a' := String.toList_ofList
  have whole : (letters n).toList = List.replicate n 'a' ++ [] := by rw [list, List.append_nil]
  have other : ∀ c ∈ List.replicate n 'a', c ≠ '\n' := by
    intro c member
    rw [List.eq_of_mem_replicate member]
    decide
  have none_ : (List.replicate n 'a').count '\n' = 0 :=
    List.count_eq_zero.mpr fun listed => other _ listed rfl
  have last : lastOf (List.replicate n 'a') = List.replicate n 'a' := by
    rw [lastOf, List.takeWhile_eq_self_iff.mpr, List.reverse_reverse]
    intro c member
    exact decide_eq_true (other c (List.mem_reverse.mp member))
  have width : units (List.replicate n 'a') = n := by
    rw [units_ascii, bytes]
    intro c member
    rw [List.eq_of_mem_replicate member]
    decide
  have serves : ServesText (letters n) (Cols.new (letters n)) := Cols.Serves.new.text
  have row := position_row whole
  have column := col_units serves whole
  rw [bytes] at row column
  rw [none_, last, width] at column
  rw [none_] at row
  refine ⟨?_, ?_, ?_⟩
  · have same : (Cols.new (letters n)).starts = lineStarts (letters n) := rfl
    simp only [Cols.position, same, row, column]
    rfl
  · exact slice_eq.mpr ⟨[], [], by simp, rfl, by rw [list, bytes, Nat.zero_add]⟩
  · rw [units_lastLine, list, last, width]

/-- At the end of a line of 2^32 letters the column is 0. -/
theorem position_wraps : ((Cols.new (letters (2 ^ 32))).position (letters (2 ^ 32)) (2 ^ 32)).1 = (1, 0) ∧
    slice (letters (2 ^ 32)) 0 (2 ^ 32) = some (letters (2 ^ 32)) ∧
      (utf16 (lastLine (letters (2 ^ 32)))).length = 2 ^ 32 := by
  have zero : UInt32.ofNat (2 ^ 32) = 0 := by decide
  obtain ⟨position, text, length⟩ := position_letters (2 ^ 32)
  exact ⟨zero ▸ position, text, length⟩

end CodeGraph.Kernel.Columns
