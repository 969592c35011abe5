import CodeGraph.Kernel.TreeListing

/-! What the passes of the tree writer compute. -/
namespace CodeGraph.Kernel.Tree

open Buckets LittleEndian

def parentKey (r : Row) : Option Nat := if r.parent = NONE then none else some r.parent.toNat

def rowNamed (r : Row) : Bool := r.flags &&& FLAG_NAMED ≠ 0

def keys (rows : List Row) : List (Option Nat) := rows.map parentKey

def namedKeys (rows : List Row) : List (Option Nat) := keys (rows.filter rowNamed)

private theorem parentKey_none {r : Row} (absent : r.parent = NONE) : parentKey r = none :=
  if_pos absent

private theorem parentKey_some {r : Row} (present : r.parent ≠ NONE) :
    parentKey r = some r.parent.toNat := if_neg present

/-! ### The counting pass -/

private theorem count_keys_cons (r : Row) (rows : List Row) (p : Nat) :
    tally (keys (r :: rows)) (some p) =
      tally (keys rows) (some p) + if parentKey r = some p then 1 else 0 := by
  rw [keys, List.map_cons, tally_cons]
  rfl

private theorem count_namedKeys_cons (r : Row) (rows : List Row) (p : Nat) :
    tally (namedKeys (r :: rows)) (some p) =
      if rowNamed r = true then tally (namedKeys rows) (some p) + if parentKey r = some p then 1 else 0
      else tally (namedKeys rows) (some p) := by
  unfold namedKeys
  by_cases named : rowNamed r = true
  · rw [if_pos named, List.filter_cons_of_pos named, count_keys_cons]
  · rw [if_neg named, List.filter_cons_of_neg named]

private theorem modify_count {counts : List UInt32} {q p : Nat} :
    (counts.modify q (· + 1))[p]? =
      counts[p]?.map (· + UInt32.ofNat (if some q = some p then 1 else 0)) := by
  rw [List.getElem?_modify]
  by_cases same : q = p
  · subst same
    simp
  · simp [same]

private theorem map_add (c : Option UInt32) (a b : Nat) :
    (c.map (· + UInt32.ofNat a)).map (· + UInt32.ofNat b) = c.map (· + UInt32.ofNat (b + a)) := by
  rw [Option.map_map]
  congr 1
  funext x
  change x + UInt32.ofNat a + UInt32.ofNat b = _
  rw [UInt32.ofNat_add, UInt32.add_assoc, UInt32.add_comm (UInt32.ofNat a)]

/-- Each row adds one to its parent's count, modulo 2 ^ 32. -/
private theorem countLoop (rows : List Row) (counts named : List UInt32) (p : Nat) :
    (rows.foldl countStep (counts, named)).1[p]? =
        counts[p]?.map (· + UInt32.ofNat (tally (keys rows) (some p))) ∧
      (rows.foldl countStep (counts, named)).2[p]? =
        named[p]?.map (· + UInt32.ofNat (tally (namedKeys rows) (some p))) := by
  induction rows generalizing counts named with
  | nil => simp [keys, namedKeys, tally]
  | cons r rows ih =>
    rw [List.foldl_cons, count_keys_cons]
    by_cases absent : r.parent = NONE
    · have step : countStep (counts, named) r = (counts, named) := if_neg (by simp [absent])
      rw [step, count_namedKeys_cons, parentKey_none absent]
      simpa using ih counts named
    · have step : countStep (counts, named) r = (counts.modify r.parent.toNat (· + 1),
          if r.flags &&& FLAG_NAMED ≠ 0 then named.modify r.parent.toNat (· + 1) else named) :=
        if_pos absent
      obtain ⟨all, named_⟩ := ih (counts.modify r.parent.toNat (· + 1))
        (if r.flags &&& FLAG_NAMED ≠ 0 then named.modify r.parent.toNat (· + 1) else named)
      rw [step, count_namedKeys_cons, parentKey_some absent]
      refine ⟨by rw [all, modify_count, map_add], named_.trans ?_⟩
      by_cases flag : r.flags &&& FLAG_NAMED ≠ 0
      · rw [if_pos flag, if_pos (by simpa [rowNamed] using flag), modify_count, map_add]
      · rw [if_neg flag, if_neg (by simpa [rowNamed] using flag)]

/-- The counts of all rows, as 32-bit numbers. -/
def countTable (rows : List Row) (keyed : List (Option Nat)) : List UInt32 :=
  (List.range rows.length).map fun p => UInt32.ofNat (tally keyed (some p))

private theorem counts_eq (rows : List Row) :
    rows.foldl countStep (List.replicate rows.length 0, List.replicate rows.length 0) =
      (countTable rows (keys rows), countTable rows (namedKeys rows)) := by
  have each (p : Nat) (k : Nat) :
      ((List.replicate rows.length (0 : UInt32))[p]?).map (· + UInt32.ofNat k) =
        if p < rows.length then some (UInt32.ofNat k) else none := by
    rw [List.getElem?_replicate]
    split <;> simp
  have table (keyed : List (Option Nat)) (p : Nat) : (countTable rows keyed)[p]? =
      if p < rows.length then some (UInt32.ofNat (tally keyed (some p))) else none := by
    rw [countTable, List.getElem?_map]
    by_cases below : p < rows.length
    · rw [List.getElem?_range below, if_pos below]
      rfl
    · rw [List.getElem?_eq_none (by simpa using below), if_neg below]
      rfl
  apply Prod.ext
  · apply List.ext_getElem?
    intro p
    rw [(countLoop rows _ _ p).1, each, table]
  · apply List.ext_getElem?
    intro p
    rw [(countLoop rows _ _ p).2, each, table]

private theorem prefixSums_eq (acc : Nat) (counts : List Nat) :
    prefixSums (UInt32.ofNat acc) (counts.map UInt32.ofNat) =
      ((List.range counts.length).map fun p => UInt32.ofNat (acc + (counts.take p).sum),
        UInt32.ofNat (acc + counts.sum)) := by
  induction counts generalizing acc with
  | nil => rfl
  | cons count counts ih =>
    rw [List.map_cons, prefixSums, ← UInt32.ofNat_add, ih (acc + count)]
    simp [List.range_succ_eq_map, Nat.add_assoc]

private theorem offsets_eq (rows : List Row) :
    prefixSums 0 (countTable rows (keys rows)) =
      ((List.range rows.length).map fun p => UInt32.ofNat (offset (keys rows) p),
        UInt32.ofNat (offset (keys rows) rows.length)) := by
  have sums := prefixSums_eq 0 ((List.range rows.length).map fun p => tally (keys rows) (some p))
  rw [List.map_map] at sums
  refine sums.trans ?_
  have each : ∀ p ∈ List.range rows.length, UInt32.ofNat (0 + (((List.range rows.length).map
      fun q => tally (keys rows) (some q)).take p).sum) = UInt32.ofNat (offset (keys rows) p) := by
    intro p member
    have below : p ≤ rows.length := Nat.le_of_lt (List.mem_range.mp member)
    rw [Nat.zero_add, ← List.map_take, List.take_range, Nat.min_eq_left below, offset]
  rw [List.length_map, List.length_range, List.map_congr_left each, Nat.zero_add, offset]

/-- After `m` rows: the next place of each parent, and the slots and ranks of these rows. -/
private structure FillInv (ks : List (Option Nat)) (n m : Nat) (s : Fill) : Prop where
  fillLength : s.fill.length = n
  tableLength : s.child_table.length = offset ks n
  ranksLength : s.in_parent.length = n
  fill : ∀ p < n, s.fill[p]? = some (UInt32.ofNat (rank ks (some p) m))
  table : ∀ i < m, ∀ p, ks[i]? = some (some p) →
    s.child_table[offset ks p + rank ks (some p) i]? = some (UInt32.ofNat i)
  ranks : ∀ i < m, ∀ p, ks[i]? = some (some p) →
    s.in_parent[i]? = some (UInt32.ofNat (rank ks (some p) i))

private theorem fillStep_keeps {ks : List (Option Nat)} {n m : Nat} {s : Fill} {r : Row}
    {offsets : List UInt32} (inv : FillInv ks n m s) (total : ks.length = n) (small : n < 2 ^ 32)
    (found : ks[m]? = some (parentKey r)) (below : ∀ p, parentKey r = some p → p < n)
    (starts : ∀ p < n, offsets[p]? = some (UInt32.ofNat (offset ks p))) :
    FillInv ks n (m + 1) (fillStep offsets s (r, m)) := by
  have inside : m < n := by
    obtain ⟨h, _⟩ := List.getElem?_eq_some_iff.mp found
    omega
  by_cases absent : r.parent = NONE
  · have step : fillStep offsets s (r, m) = s := if_neg (by simp [absent])
    rw [parentKey_none absent] at found
    have old : ∀ i < m + 1, ∀ p, ks[i]? = some (some p) → i < m := by
      intro i less p keyed
      rcases Nat.lt_succ_iff_lt_or_eq.mp less with earlier | rfl
      · exact earlier
      · rw [found] at keyed
        cases keyed
    rw [step]
    exact { inv with
      fill := fun p h => by
        rw [inv.fill p h, rank_succ found]
        simp
      table := fun i h p keyed => inv.table i (old i h p keyed) p keyed
      ranks := fun i h p keyed => inv.ranks i (old i h p keyed) p keyed }
  · have key := parentKey_some absent
    rw [key] at found
    have within := below _ key
    let p := r.parent.toNat
    have rankLess := rank_lt_tally found
    have offsetLess : offset ks p + rank ks (some p) m < offset ks n := slot_lt within rankLess
    have totalLess := offset_le_length ks n
    have filled : s.fill.getD p 0 = UInt32.ofNat (rank ks (some p) m) := by
      rw [List.getD_eq_getElem?_getD, inv.fill p within]
      rfl
    have start : offsets.getD p 0 = UInt32.ofNat (offset ks p) := by
      rw [List.getD_eq_getElem?_getD, starts p within]
      rfl
    have slot : (offsets.getD p 0 + s.fill.getD p 0).toNat = offset ks p + rank ks (some p) m := by
      rw [filled, start, ← UInt32.ofNat_add, UInt32.toNat_ofNat']
      omega
    have step : fillStep offsets s (r, m) =
        { child_table := s.child_table.set (offset ks p + rank ks (some p) m) (UInt32.ofNat m)
          in_parent := s.in_parent.set m (UInt32.ofNat (rank ks (some p) m))
          fill := s.fill.set p (UInt32.ofNat (rank ks (some p) m) + 1) } := by
      rw [← slot, ← filled]
      exact if_pos absent
    rw [step]
    refine ⟨by rw [List.length_set, inv.fillLength], by rw [List.length_set, inv.tableLength],
      by rw [List.length_set, inv.ranksLength], ?_, ?_, ?_⟩
    · intro q h
      rw [List.getElem?_set, rank_succ found]
      by_cases same : p = q
      · subst same
        rw [if_pos rfl, if_pos (by rw [inv.fillLength]; exact h), if_pos rfl, UInt32.ofNat_add]
        rfl
      · rw [if_neg same, inv.fill q h, if_neg (fun eq => same (Option.some.inj eq)), Nat.add_zero]
    · intro i h q keyed
      rw [List.getElem?_set]
      rcases Nat.lt_succ_iff_lt_or_eq.mp h with earlier | rfl
      · have apart : offset ks p + rank ks (some p) m ≠ offset ks q + rank ks (some q) i := by
          intro same
          obtain ⟨rfl, equal⟩ := slot_injective rankLess (rank_lt_tally keyed) same
          -- One rank in one bucket is one position.
          have twice := bucket_rank found
          rw [equal, bucket_rank keyed] at twice
          have := Option.some.inj twice
          omega
        rw [if_neg apart]
        exact inv.table i earlier q keyed
      · rw [found] at keyed
        cases keyed
        rw [if_pos rfl, if_pos (by rw [inv.tableLength]; exact offsetLess)]
    · intro i h q keyed
      rw [List.getElem?_set]
      rcases Nat.lt_succ_iff_lt_or_eq.mp h with earlier | rfl
      · rw [if_neg (by omega)]
        exact inv.ranks i earlier q keyed
      · rw [found] at keyed
        cases keyed
        rw [if_pos rfl, if_pos (by rw [inv.ranksLength]; exact inside)]

private theorem fillLoop {ks : List (Option Nat)} {n : Nat} {offsets : List UInt32}
    (total : ks.length = n) (small : n < 2 ^ 32)
    (starts : ∀ p < n, offsets[p]? = some (UInt32.ofNat (offset ks p))) (rest : List Row)
    {m : Nat} {s : Fill} (inv : FillInv ks n m s) (tail : ks.drop m = keys rest)
    (below : ∀ r ∈ rest, ∀ p, parentKey r = some p → p < n) :
    FillInv ks n (m + rest.length) ((rest.zipIdx m).foldl (fillStep offsets) s) := by
  induction rest generalizing m s with
  | nil => exact inv
  | cons r rest ih =>
    have found : ks[m]? = some (parentKey r) := by
      have first := congrArg List.head? tail
      rwa [List.head?_drop] at first
    have tail' : ks.drop (m + 1) = keys rest := by
      have later := congrArg List.tail tail
      rwa [List.tail_drop] at later
    have next := ih (fillStep_keeps inv total small found (below r List.mem_cons_self) starts) tail'
      (fun q member => below q (List.mem_cons_of_mem _ member))
    rw [List.zipIdx_cons, List.foldl_cons, List.length_cons]
    rwa [Nat.add_assoc, Nat.add_comm 1] at next

/-! ### The rows' bytes -/

private def treeCells (r : Row) (links : Links) (extra_off : UInt32) : List Cell :=
  [.half r.kind, .byte r.flags, .byte 0, .half r.field, .half (UInt16.ofNat r.extra_fields.length),
    .word r.parent, .word r.start_byte, .word r.end_byte, .word r.start_row, .word r.start_col,
    .word r.end_row, .word r.end_col, .word r.start_idx, .word r.end_idx, .word links.offset,
    .word links.count, .word links.named, .word links.in_parent, .word extra_off]

private theorem rowBytes_treeCells (r : Row) (links : Links) (extra_off : UInt32) :
    rowBytes (treeCells r links extra_off) = treeRowBytes r links extra_off := by
  simp only [rowBytes, treeCells, treeRowBytes, rowWords, Cell.bytes, List.flatMap_cons,
    List.flatMap_nil, List.append_assoc, List.cons_append, List.nil_append, List.append_nil]

private theorem length_treeRowBytes (r : Row) (links : Links) (extra_off : UInt32) :
    (treeRowBytes r links extra_off).length = TREE_ROW_SIZE := by
  simp [treeRowBytes, rowWords, TREE_ROW_SIZE]

/-- How many extra fields the rows before row `i` have. -/
def extraOffset (rows : List Row) (i : Nat) : Nat :=
  ((rows.take i).map fun r => r.extra_fields.length).sum

private theorem serializeRows_fields (l : List (Row × Links)) (fields : List UInt16) :
    (serializeRows l (fields.flatMap le16)).2 =
      (fields ++ (l.map Prod.fst).flatMap Row.extra_fields).flatMap le16 := by
  induction l generalizing fields with
  | nil => simp [serializeRows]
  | cons entry l ih =>
    obtain ⟨r, links⟩ := entry
    rw [serializeRows, ← List.flatMap_append, ih (fields ++ r.extra_fields)]
    simp

private theorem serializeRows_row (l : List (Row × Links)) (fields : List UInt16) (i : Nat)
    {r : Row} {links : Links} (found : l[i]? = some (r, links)) :
    rowAt TREE_ROW_SIZE (serializeRows l (fields.flatMap le16)).1 i =
      treeRowBytes r links
        (UInt32.ofNat (fields.length + extraOffset (l.map Prod.fst) i)) := by
  induction l generalizing fields i with
  | nil => simp at found
  | cons entry l ih =>
    obtain ⟨first, firstLinks⟩ := entry
    have half : (fields.flatMap le16).length / 2 = fields.length := by
      rw [length_flatMap_rows le16 2 length_le16]
      exact Nat.mul_div_cancel _ (by decide)
    rw [serializeRows, half, ← List.flatMap_append]
    cases i with
    | zero =>
      cases found
      rw [rowAt, Nat.zero_mul, List.drop_zero]
      exact List.take_left' (length_treeRowBytes _ _ _)
    | succ i =>
      rw [List.getElem?_cons_succ] at found
      have skip : (i + 1) * TREE_ROW_SIZE = (treeRowBytes first firstLinks
          (UInt32.ofNat fields.length)).length + i * TREE_ROW_SIZE := by
        rw [length_treeRowBytes, Nat.succ_mul, Nat.add_comm]
      have rest := ih (fields ++ first.extra_fields) i found
      rw [rowAt, skip, ← List.drop_drop, List.drop_left]
      refine rest.trans ?_
      rw [List.length_append, List.map_cons, extraOffset, extraOffset, List.take_succ_cons,
        List.map_cons, List.sum_cons, Nat.add_assoc]

private theorem read16_row {nodes row : List UInt8} {i off : Nat} {v : UInt16}
    (slice : rowAt TREE_ROW_SIZE nodes i = row) (fits : off + 2 ≤ TREE_ROW_SIZE)
    (read : readU16 row off = some v) :
    readUInt16LE nodes (i * TREE_ROW_SIZE + off) = .ok v := by
  rw [readUInt16LE, readU16_rowAt nodes fits, slice, read]
  rfl

private theorem read32_row {nodes row : List UInt8} {i off : Nat} {v : UInt32}
    (slice : rowAt TREE_ROW_SIZE nodes i = row) (fits : off + 4 ≤ TREE_ROW_SIZE)
    (read : readU32 row off = some v) :
    readUInt32LE nodes (i * TREE_ROW_SIZE + off) = .ok v := by
  rw [readUInt32LE, readU32_rowAt nodes fits, slice, read]
  rfl

private theorem read8_row {nodes row : List UInt8} {i off : Nat} {v : UInt8}
    (slice : rowAt TREE_ROW_SIZE nodes i = row) (fits : off + 1 ≤ TREE_ROW_SIZE)
    (read : readU8 row off = some v) :
    readUInt8 nodes (i * TREE_ROW_SIZE + off) = .ok v := by
  rw [readUInt8, readU8_rowAt nodes fits, slice, read]
  rfl

open NativeNode (u8 u16 u32)

structure RowFields (d : TreeData) (i : Nat) (r : Row) (links : Links) (extra_off : UInt32) :
    Prop where
  kind : u16 d i ROW.kind = .ok r.kind
  flags : u8 d i ROW.flags = .ok r.flags
  field : u16 d i ROW.field = .ok r.field
  extraFieldCount : u16 d i ROW.extraFieldCount = .ok (UInt16.ofNat r.extra_fields.length)
  parent : u32 d i ROW.parent = .ok r.parent
  startRow : u32 d i ROW.startRow = .ok r.start_row
  startCol : u32 d i ROW.startCol = .ok r.start_col
  endRow : u32 d i ROW.endRow = .ok r.end_row
  endCol : u32 d i ROW.endCol = .ok r.end_col
  startIndex : u32 d i ROW.startIndex = .ok r.start_idx
  endIndex : u32 d i ROW.endIndex = .ok r.end_idx
  childOff : u32 d i ROW.childOff = .ok links.offset
  childCount : u32 d i ROW.childCount = .ok links.count
  namedChildCount : u32 d i ROW.namedChildCount = .ok links.named
  indexInParent : u32 d i ROW.indexInParent = .ok links.in_parent
  extraFieldsOff : u32 d i ROW.extraFieldsOff = .ok extra_off

private theorem row_fields {d : TreeData} {i : Nat} {r : Row} {links : Links} {extra_off : UInt32}
    (slice : rowAt TREE_ROW_SIZE d.nodes i = treeRowBytes r links extra_off) :
    RowFields d i r links extra_off := by
  rw [← rowBytes_treeCells] at slice
  refine ⟨read16_row slice (by decide) (readU16_cell ?_), read8_row slice (by decide)
    (readU8_cell ?_), read16_row slice (by decide) (readU16_cell ?_), read16_row slice (by decide)
    (readU16_cell ?_), read32_row slice (by decide) (readU32_cell ?_), read32_row slice (by decide)
    (readU32_cell ?_), read32_row slice (by decide) (readU32_cell ?_), read32_row slice (by decide)
    (readU32_cell ?_), read32_row slice (by decide) (readU32_cell ?_), read32_row slice (by decide)
    (readU32_cell ?_), read32_row slice (by decide) (readU32_cell ?_), read32_row slice (by decide)
    (readU32_cell ?_), read32_row slice (by decide) (readU32_cell ?_), read32_row slice (by decide)
    (readU32_cell ?_), read32_row slice (by decide) (readU32_cell ?_), read32_row slice (by decide)
    (readU32_cell ?_)⟩
  all_goals simp [treeCells, ROW.kind, ROW.flags, ROW.field, ROW.extraFieldCount, ROW.parent,
    ROW.startRow, ROW.startCol, ROW.endRow, ROW.endCol, ROW.startIndex, ROW.endIndex, ROW.childOff,
    ROW.childCount, ROW.namedChildCount, ROW.indexInParent, ROW.extraFieldsOff]

/-! ### The buffers -/

private def offsetTable (rows : List Row) : List UInt32 :=
  (List.range rows.length).map fun p => UInt32.ofNat (offset (keys rows) p)

private def filledOf (rows : List Row) : Fill :=
  rows.zipIdx.foldl (fillStep (offsetTable rows)) ⟨List.replicate rows.length 0,
    List.replicate (UInt32.ofNat (offset (keys rows) rows.length)).toNat 0,
    List.replicate rows.length 0⟩

private def linksOf (rows : List Row) (entry : Row × Nat) : Row × Links :=
  (entry.1, ⟨(offsetTable rows).getD entry.2 0, (countTable rows (keys rows)).getD entry.2 0,
    (countTable rows (namedKeys rows)).getD entry.2 0, (filledOf rows).in_parent.getD entry.2 0⟩)

private theorem finish_eq (rows : List Row) (root_has_error : Bool) :
    (finish rows root_has_error).nodes = (serializeRows (rows.zipIdx.map (linksOf rows)) []).1 ∧
      (finish rows root_has_error).fields =
        (serializeRows (rows.zipIdx.map (linksOf rows)) []).2 ∧
      (finish rows root_has_error).children = (filledOf rows).child_table.flatMap le32 := by
  unfold finish
  simp only [counts_eq, offsets_eq]
  exact ⟨rfl, rfl, rfl⟩

private theorem length_serializeRows (l : List (Row × Links)) (fields : List UInt8) :
    (serializeRows l fields).1.length = l.length * TREE_ROW_SIZE := by
  induction l generalizing fields with
  | nil => simp [serializeRows]
  | cons entry l ih =>
    obtain ⟨r, links⟩ := entry
    rw [serializeRows, List.length_append, length_treeRowBytes, ih, List.length_cons, Nat.succ_mul,
      Nat.add_comm]

theorem length_finish_nodes (rows : List Row) (root_has_error : Bool) :
    (finish rows root_has_error).nodes.length = rows.length * TREE_ROW_SIZE := by
  rw [(finish_eq rows root_has_error).1, length_serializeRows, List.length_map, List.length_zipIdx]

private theorem linksOf_rows (rows : List Row) :
    (rows.zipIdx.map (linksOf rows)).map Prod.fst = rows := by
  rw [List.map_map]
  exact List.zipIdx_map_fst 0 rows

private theorem getD_range {n i : Nat} (below : i < n) (f : Nat → Nat) :
    ((List.range n).map fun p => UInt32.ofNat (f p)).getD i 0 = UInt32.ofNat (f i) := by
  simp [List.getD_eq_getElem?_getD, List.getElem?_range below]

variable {rows : List Row} {root_has_error : Bool} {d : TreeData}

private theorem finish_slice (nodes : d.nodes = (finish rows root_has_error).nodes) {i : Nat}
    {r : Row} (found : rows[i]? = some r) :
    RowFields d i r ⟨UInt32.ofNat (offset (keys rows) i),
      UInt32.ofNat (tally (keys rows) (some i)), UInt32.ofNat (tally (namedKeys rows) (some i)),
        (filledOf rows).in_parent.getD i 0⟩ (UInt32.ofNat (extraOffset rows i)) := by
  obtain ⟨below, _⟩ := List.getElem?_eq_some_iff.mp found
  have entry : (rows.zipIdx.map (linksOf rows))[i]? = some (linksOf rows (r, i)) := by
    rw [List.getElem?_map, List.getElem?_zipIdx, found]
    simp
  have slice := serializeRows_row _ [] i entry
  rw [linksOf_rows, List.length_nil, Nat.zero_add] at slice
  have offset_ := getD_range below (offset (keys rows))
  have count := getD_range below fun p => tally (keys rows) (some p)
  have named := getD_range below fun p => tally (namedKeys rows) (some p)
  rw [← offset_, ← count, ← named]
  refine row_fields ?_
  rw [nodes, (finish_eq rows root_has_error).1]
  exact slice

/-- What the rows of the buffers hold, whether or not the numbers fit 32 bits. -/
theorem finish_row (nodes : d.nodes = (finish rows root_has_error).nodes) {i : Nat} {r : Row}
    (found : rows[i]? = some r) :
    ∃ in_parent, RowFields d i r ⟨UInt32.ofNat (offset (keys rows) i),
      UInt32.ofNat (tally (keys rows) (some i)), UInt32.ofNat (tally (namedKeys rows) (some i)),
        in_parent⟩ (UInt32.ofNat (extraOffset rows i)) := ⟨_, finish_slice nodes found⟩

theorem finish_extra (fields : d.fields = (finish rows root_has_error).fields) {j : Nat}
    {f : UInt16} (found : (rows.flatMap Row.extra_fields)[j]? = some f) :
    readUInt16LE d.fields (j * 2) = .ok f := by
  have table := serializeRows_fields (rows.zipIdx.map (linksOf rows)) []
  rw [linksOf_rows, List.nil_append] at table
  rw [fields, (finish_eq rows root_has_error).2.1, readUInt16LE]
  change (readU16 (serializeRows _ (List.flatMap le16 [])).2 _).elim _ _ = _
  rw [table, readU16_table found]
  rfl

section Small

variable (small : rows.length < 2 ^ 32)
  (within : ∀ r ∈ rows, ∀ p, parentKey r = some p → p < rows.length)

include small within

private theorem filled_inv : FillInv (keys rows) rows.length rows.length (filledOf rows) := by
  have total : (keys rows).length = rows.length := List.length_map _
  have fits : (UInt32.ofNat (offset (keys rows) rows.length)).toNat =
      offset (keys rows) rows.length := by
    have bound := offset_le_length (keys rows) rows.length
    rw [UInt32.toNat_ofNat']
    omega
  have start : FillInv (keys rows) rows.length 0 ⟨List.replicate rows.length 0,
      List.replicate (UInt32.ofNat (offset (keys rows) rows.length)).toNat 0,
      List.replicate rows.length 0⟩ := {
    fillLength := List.length_replicate
    tableLength := by rw [List.length_replicate, fits]
    ranksLength := List.length_replicate
    fill := by
      intro p below
      rw [List.getElem?_replicate, if_pos below, rank, List.take_zero]
      rfl
    table := fun i h => absurd h (Nat.not_lt_zero i)
    ranks := fun i h => absurd h (Nat.not_lt_zero i) }
  have starts : ∀ p < rows.length, (offsetTable rows)[p]? =
      some (UInt32.ofNat (offset (keys rows) p)) := by
    intro p below
    rw [offsetTable, List.getElem?_map, List.getElem?_range below]
    rfl
  have filled := fillLoop total small starts rows start List.drop_zero within
  rwa [Nat.zero_add] at filled

theorem finish_rank (nodes : d.nodes = (finish rows root_has_error).nodes) {i p : Nat}
    (child : (keys rows)[i]? = some (some p)) :
    u32 d i ROW.indexInParent = .ok (UInt32.ofNat (rank (keys rows) (some p) i)) := by
  obtain ⟨r, found, key⟩ : ∃ r, rows[i]? = some r ∧ parentKey r = some p := by
    rw [keys, List.getElem?_map] at child
    exact Option.map_eq_some_iff.mp child
  obtain ⟨below, _⟩ := List.getElem?_eq_some_iff.mp found
  have placed := (filled_inv small within).ranks i below p child
  rw [(finish_slice nodes found).indexInParent, List.getD_eq_getElem?_getD, placed]
  rfl

theorem finish_child (children : d.children = (finish rows root_has_error).children) {p k j : Nat}
    (child : (bucket (some p) 0 (keys rows))[k]? = some j) :
    readUInt32LE d.children ((offset (keys rows) p + k) * 4) = .ok (UInt32.ofNat j) := by
  obtain ⟨key, rank_⟩ := bucket_position child
  obtain ⟨below, _⟩ := List.getElem?_eq_some_iff.mp key
  rw [keys, List.length_map] at below
  have placed := (filled_inv small within).table j below p key
  rw [rank_] at placed
  rw [children, (finish_eq rows root_has_error).2.2, readUInt32LE, readU32_table placed]
  rfl

end Small

end CodeGraph.Kernel.Tree
