import CodeGraph.Foundation.Decisions

/-! Fixed-width little-endian integers in lists of bytes, and tables of rows of one size. -/
namespace CodeGraph.LittleEndian

def le16 (v : UInt16) : List UInt8 :=
  [UInt8.ofNat v.toNat, UInt8.ofNat (v.toNat / 2 ^ 8)]

def le32 (v : UInt32) : List UInt8 :=
  [UInt8.ofNat v.toNat, UInt8.ofNat (v.toNat / 2 ^ 8), UInt8.ofNat (v.toNat / 2 ^ 16),
    UInt8.ofNat (v.toNat / 2 ^ 24)]

def le64 (v : UInt64) : List UInt8 :=
  [UInt8.ofNat v.toNat, UInt8.ofNat (v.toNat / 2 ^ 8), UInt8.ofNat (v.toNat / 2 ^ 16),
    UInt8.ofNat (v.toNat / 2 ^ 24), UInt8.ofNat (v.toNat / 2 ^ 32), UInt8.ofNat (v.toNat / 2 ^ 40),
    UInt8.ofNat (v.toNat / 2 ^ 48), UInt8.ofNat (v.toNat / 2 ^ 56)]

/-- A read past the end of the buffer answers `none`. -/
def readU8 (buf : List UInt8) (off : Nat) : Option UInt8 := buf[off]?

def readU16 (buf : List UInt8) (off : Nat) : Option UInt16 := do
  let b0 ← buf[off]?
  let b1 ← buf[off + 1]?
  return UInt16.ofNat (b0.toNat + b1.toNat * 2 ^ 8)

def readU32 (buf : List UInt8) (off : Nat) : Option UInt32 := do
  let b0 ← buf[off]?
  let b1 ← buf[off + 1]?
  let b2 ← buf[off + 2]?
  let b3 ← buf[off + 3]?
  return UInt32.ofNat (b0.toNat + b1.toNat * 2 ^ 8 + b2.toNat * 2 ^ 16 + b3.toNat * 2 ^ 24)

@[simp] theorem length_le16 (v : UInt16) : (le16 v).length = 2 := rfl

@[simp] theorem length_le32 (v : UInt32) : (le32 v).length = 4 := rfl

@[simp] theorem length_le64 (v : UInt64) : (le64 v).length = 8 := rfl

private theorem join16 (v : UInt16) :
    UInt16.ofNat ((UInt8.ofNat v.toNat).toNat + (UInt8.ofNat (v.toNat / 2 ^ 8)).toNat * 2 ^ 8) = v := by
  apply UInt16.toNat_inj.mp
  have bound := UInt16.toNat_lt v
  simp only [UInt16.toNat_ofNat', UInt8.toNat_ofNat']
  omega

private theorem join32 (v : UInt32) :
    UInt32.ofNat ((UInt8.ofNat v.toNat).toNat + (UInt8.ofNat (v.toNat / 2 ^ 8)).toNat * 2 ^ 8 +
      (UInt8.ofNat (v.toNat / 2 ^ 16)).toNat * 2 ^ 16 +
      (UInt8.ofNat (v.toNat / 2 ^ 24)).toNat * 2 ^ 24) = v := by
  apply UInt32.toNat_inj.mp
  have bound := UInt32.toNat_lt v
  simp only [UInt32.toNat_ofNat', UInt8.toNat_ofNat']
  omega

private theorem getElem_append_add (pre rest : List UInt8) (i : Nat) :
    (pre ++ rest)[pre.length + i]? = rest[i]? := by
  rw [List.getElem?_append_right (by omega), Nat.add_sub_cancel_left]

theorem readU16_append (pre rest : List UInt8) (v : UInt16) :
    readU16 (pre ++ (le16 v ++ rest)) pre.length = some v := by
  have h0 := getElem_append_add pre (le16 v ++ rest) 0
  rw [Nat.add_zero] at h0
  rw [readU16, h0, getElem_append_add pre (le16 v ++ rest) 1]
  exact congrArg some (join16 v)

theorem readU32_append (pre rest : List UInt8) (v : UInt32) :
    readU32 (pre ++ (le32 v ++ rest)) pre.length = some v := by
  have h0 := getElem_append_add pre (le32 v ++ rest) 0
  rw [Nat.add_zero] at h0
  rw [readU32, h0, getElem_append_add pre (le32 v ++ rest) 1,
    getElem_append_add pre (le32 v ++ rest) 2, getElem_append_add pre (le32 v ++ rest) 3]
  exact congrArg some (join32 v)

/-! ### Rows as lists of integers -/

inductive Cell where
  | byte (v : UInt8)
  | half (v : UInt16)
  | word (v : UInt32)
  | quad (v : UInt64)

namespace Cell

def bytes : Cell → List UInt8
  | byte v => [v]
  | half v => le16 v
  | word v => le32 v
  | quad v => le64 v

end Cell

def rowBytes (cells : List Cell) : List UInt8 := cells.flatMap Cell.bytes

/-- The integer that starts `off` bytes into the row. -/
def cellAt : List Cell → Nat → Option Cell
  | cell :: _, 0 => some cell
  | .byte _ :: cells, off + 1 => cellAt cells off
  | .half _ :: cells, off + 2 => cellAt cells off
  | .word _ :: cells, off + 4 => cellAt cells off
  | .quad _ :: cells, off + 8 => cellAt cells off
  | _, _ => none

@[simp] theorem cellAt_zero (cell : Cell) (cells : List Cell) :
    cellAt (cell :: cells) 0 = some cell := by
  cases cell <;> rfl

@[simp] theorem cellAt_byte (v : UInt8) (cells : List Cell) (off : Nat) :
    cellAt (.byte v :: cells) (off + 1) = cellAt cells off := rfl

@[simp] theorem cellAt_half (v : UInt16) (cells : List Cell) (off : Nat) :
    cellAt (.half v :: cells) (off + 2) = cellAt cells off := rfl

@[simp] theorem cellAt_word (v : UInt32) (cells : List Cell) (off : Nat) :
    cellAt (.word v :: cells) (off + 4) = cellAt cells off := rfl

@[simp] theorem cellAt_quad (v : UInt64) (cells : List Cell) (off : Nat) :
    cellAt (.quad v :: cells) (off + 8) = cellAt cells off := rfl

private theorem cellAt_split {cells : List Cell} {off : Nat} {cell : Cell}
    (found : cellAt cells off = some cell) :
    ∃ pre rest, rowBytes cells = pre ++ (cell.bytes ++ rest) ∧ pre.length = off := by
  fun_induction cellAt cells off with
  | case1 first cells =>
    cases found
    exact ⟨[], rowBytes cells, rfl, rfl⟩
  | case2 v cells off ih =>
    obtain ⟨pre, rest, eq, len⟩ := ih found
    exact ⟨[v] ++ pre, rest, by rw [List.append_assoc, ← eq]; rfl, by simp [len]⟩
  | case3 v cells off ih =>
    obtain ⟨pre, rest, eq, len⟩ := ih found
    refine ⟨le16 v ++ pre, rest, by rw [List.append_assoc, ← eq]; rfl, ?_⟩
    rw [List.length_append, length_le16, len, Nat.add_comm]
  | case4 v cells off ih =>
    obtain ⟨pre, rest, eq, len⟩ := ih found
    refine ⟨le32 v ++ pre, rest, by rw [List.append_assoc, ← eq]; rfl, ?_⟩
    rw [List.length_append, length_le32, len, Nat.add_comm]
  | case5 v cells off ih =>
    obtain ⟨pre, rest, eq, len⟩ := ih found
    refine ⟨le64 v ++ pre, rest, by rw [List.append_assoc, ← eq]; rfl, ?_⟩
    rw [List.length_append, length_le64, len, Nat.add_comm]
  | case6 => cases found

theorem readU8_cell {cells : List Cell} {off : Nat} {v : UInt8}
    (found : cellAt cells off = some (.byte v)) : readU8 (rowBytes cells) off = some v := by
  obtain ⟨pre, rest, eq, rfl⟩ := cellAt_split found
  rw [readU8, eq]
  exact getElem_append_add pre (Cell.bytes (.byte v) ++ rest) 0

theorem readU16_cell {cells : List Cell} {off : Nat} {v : UInt16}
    (found : cellAt cells off = some (.half v)) : readU16 (rowBytes cells) off = some v := by
  obtain ⟨pre, rest, eq, rfl⟩ := cellAt_split found
  rw [eq]
  exact readU16_append pre rest v

theorem readU32_cell {cells : List Cell} {off : Nat} {v : UInt32}
    (found : cellAt cells off = some (.word v)) : readU32 (rowBytes cells) off = some v := by
  obtain ⟨pre, rest, eq, rfl⟩ := cellAt_split found
  rw [eq]
  exact readU32_append pre rest v

section Rows

variable {α β ε : Type} (row : α → List UInt8) (size : Nat)

/-- Row `i` of a table of rows of `size` bytes. -/
def rowAt (buf : List UInt8) (i : Nat) : List UInt8 := (buf.drop (i * size)).take size

theorem length_flatMap_rows (fixed : ∀ a, (row a).length = size) (rows : List α) :
    (rows.flatMap row).length = rows.length * size := by
  induction rows with
  | nil => simp
  | cons a rows ih =>
    simp only [List.flatMap_cons, List.length_append, List.length_cons, fixed, ih]
    rw [Nat.succ_mul, Nat.add_comm]

theorem rowAt_flatMap (fixed : ∀ a, (row a).length = size) (rows : List α) (i : Nat)
    (h : i < rows.length) : rowAt size (rows.flatMap row) i = row rows[i] := by
  induction rows generalizing i with
  | nil => simp at h
  | cons a rows ih =>
    cases i with
    | zero =>
      simp only [rowAt, Nat.zero_mul, List.drop_zero, List.flatMap_cons, List.getElem_cons_zero]
      exact List.take_left' (fixed a)
    | succ i =>
      have within : i < rows.length := by simpa using h
      have skip : (i + 1) * size = (row a).length + i * size := by rw [fixed, Nat.succ_mul, Nat.add_comm]
      rw [List.getElem_cons_succ, ← ih i within, rowAt, rowAt, List.flatMap_cons, skip,
        ← List.drop_drop, List.drop_left]

theorem map_rowAt (fixed : ∀ a, (row a).length = size) (rows : List α)
    (f : List UInt8 → β) :
    (List.range rows.length).map (fun i => f (rowAt size (rows.flatMap row) i)) =
      rows.map (fun a => f (row a)) := by
  apply List.ext_getElem
  · simp
  · intro i hi _
    have within : i < rows.length := by simpa using hi
    simp only [List.getElem_map, List.getElem_range, rowAt_flatMap row size fixed rows i within]

theorem mapM_rowAt (fixed : ∀ a, (row a).length = size) (rows : List α)
    (decode : List UInt8 → Except ε β) :
    (List.range rows.length).mapM (fun i => decode (rowAt size (rows.flatMap row) i)) =
      rows.mapM (fun a => decode (row a)) := by
  have unmap : ∀ {γ : Type} (f : γ → Except ε β) (xs : List γ), xs.mapM f = (xs.map f).mapM id := by
    intro γ f xs
    rw [List.mapM_map]
    rfl
  rw [unmap, map_rowAt row size fixed rows decode, ← unmap]

theorem flatMap_rowAt (fixed : ∀ a, (row a).length = size) (rows : List α)
    (change : List UInt8 → List UInt8) :
    (List.range rows.length).flatMap (fun i => change (rowAt size (rows.flatMap row) i)) =
      rows.flatMap (fun a => change (row a)) := by
  have same := map_rowAt row size fixed rows change
  exact congrArg List.flatten same

end Rows

private theorem getElem?_rowAt {size i off : Nat} (buf : List UInt8) (within : off < size) :
    (rowAt size buf i)[off]? = buf[i * size + off]? := by
  rw [rowAt, List.getElem?_take_of_lt within, List.getElem?_drop]

theorem readU8_rowAt {size i off : Nat} (buf : List UInt8) (fits : off + 1 ≤ size) :
    readU8 buf (i * size + off) = readU8 (rowAt size buf i) off :=
  (getElem?_rowAt buf fits).symm

theorem readU16_rowAt {size i off : Nat} (buf : List UInt8) (fits : off + 2 ≤ size) :
    readU16 buf (i * size + off) = readU16 (rowAt size buf i) off := by
  rw [readU16, readU16, getElem?_rowAt buf (by omega), getElem?_rowAt buf (by omega)]
  rfl

theorem readU32_rowAt {size i off : Nat} (buf : List UInt8) (fits : off + 4 ≤ size) :
    readU32 buf (i * size + off) = readU32 (rowAt size buf i) off := by
  rw [readU32, readU32, getElem?_rowAt buf (by omega), getElem?_rowAt buf (by omega),
    getElem?_rowAt buf (by omega), getElem?_rowAt buf (by omega)]
  rfl

private theorem split_at_index {α : Type} {l : List α} {j : Nat} {v : α} (found : l[j]? = some v) :
    l = l.take j ++ v :: l.drop (j + 1) ∧ (l.take j).length = j := by
  obtain ⟨below, value⟩ := List.getElem?_eq_some_iff.mp found
  refine ⟨?_, by rw [List.length_take]; omega⟩
  rw [← value, ← List.drop_eq_getElem_cons below, List.take_append_drop]

/-- Entry `j` of a table of 16-bit numbers. -/
theorem readU16_table {l : List UInt16} {j : Nat} {v : UInt16} (found : l[j]? = some v) :
    readU16 (l.flatMap le16) (j * 2) = some v := by
  obtain ⟨split, length⟩ := split_at_index found
  have pos : ((l.take j).flatMap le16).length = j * 2 := by
    rw [length_flatMap_rows le16 2 length_le16, length]
  have whole : l.flatMap le16 = (l.take j).flatMap le16 ++
      (le16 v ++ (l.drop (j + 1)).flatMap le16) := by
    conv_lhs => rw [split]
    rw [List.flatMap_append, List.flatMap_cons]
  rw [whole, ← pos]
  exact readU16_append _ _ v

/-- Entry `j` of a table of 32-bit numbers. -/
theorem readU32_table {l : List UInt32} {j : Nat} {v : UInt32} (found : l[j]? = some v) :
    readU32 (l.flatMap le32) (j * 4) = some v := by
  obtain ⟨split, length⟩ := split_at_index found
  have pos : ((l.take j).flatMap le32).length = j * 4 := by
    rw [length_flatMap_rows le32 4 length_le32, length]
  have whole : l.flatMap le32 = (l.take j).flatMap le32 ++
      (le32 v ++ (l.drop (j + 1)).flatMap le32) := by
    conv_lhs => rw [split]
    rw [List.flatMap_append, List.flatMap_cons]
  rw [whole, ← pos]
  exact readU32_append _ _ v

end CodeGraph.LittleEndian
