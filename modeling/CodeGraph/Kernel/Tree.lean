import CodeGraph.Kernel.Buffers

/-! Whole parse trees as flat buffers: the kernel's writer and the facade that reads them. -/
namespace CodeGraph.Kernel.Tree

open LittleEndian Text

def TREE_ROW_SIZE : Nat := 64
def TREE_ABI_VERSION : UInt32 := 1

def FLAG_NAMED : UInt8 := 1
def FLAG_HAS_ERROR : UInt8 := 2
def FLAG_MISSING : UInt8 := 4

structure Row where
  kind : UInt16
  flags : UInt8
  field : UInt16
  parent : UInt32
  start_byte : UInt32
  end_byte : UInt32
  start_row : UInt32
  start_col : UInt32
  end_row : UInt32
  end_col : UInt32
  start_idx : UInt32
  end_idx : UInt32
  extra_fields : List UInt16

structure TreeBuffers where
  «meta» : List UInt8
  nodes : List UInt8
  children : List UInt8
  fields : List UInt8

/-! ### Writing -/

def countStep (s : List UInt32 × List UInt32) (r : Row) : List UInt32 × List UInt32 :=
  if r.parent ≠ NONE then
    (s.1.modify r.parent.toNat (· + 1),
      if r.flags &&& FLAG_NAMED ≠ 0 then s.2.modify r.parent.toNat (· + 1) else s.2)
  else s

def prefixSums (acc : UInt32) : List UInt32 → List UInt32 × UInt32
  | [] => ([], acc)
  | count :: counts =>
    let (offsets, total) := prefixSums (acc + count) counts
    (acc :: offsets, total)

structure Fill where
  fill : List UInt32
  child_table : List UInt32
  in_parent : List UInt32

/-- One round of the filling pass, at row `i`. -/
def fillStep (offsets : List UInt32) (s : Fill) (entry : Row × Nat) : Fill :=
  let (r, i) := entry
  if r.parent ≠ NONE then
    let p := r.parent.toNat
    let filled := s.fill.getD p 0
    let slot := offsets.getD p 0 + filled
    { child_table := s.child_table.set slot.toNat (UInt32.ofNat i)
      in_parent := s.in_parent.set i filled
      fill := s.fill.set p (filled + 1) }
  else s

structure Links where
  offset : UInt32
  count : UInt32
  named : UInt32
  in_parent : UInt32

def rowWords (r : Row) (links : Links) (extra_off : UInt32) : List UInt32 :=
  [r.parent, r.start_byte, r.end_byte, r.start_row, r.start_col, r.end_row, r.end_col, r.start_idx,
    r.end_idx, links.offset, links.count, links.named, links.in_parent, extra_off]

def treeRowBytes (r : Row) (links : Links) (extra_off : UInt32) : List UInt8 :=
  le16 r.kind ++ [r.flags, 0] ++ le16 r.field ++ le16 (UInt16.ofNat r.extra_fields.length) ++
    (rowWords r links extra_off).flatMap le32

/-- The rows' bytes and the table of extra fields, which has `fields` in it already. -/
def serializeRows : List (Row × Links) → List UInt8 → List UInt8 × List UInt8
  | [], fields => ([], fields)
  | (r, links) :: rest, fields =>
    let extra_off := UInt32.ofNat (fields.length / 2)
    let (nodes, all) := serializeRows rest (fields ++ r.extra_fields.flatMap le16)
    (treeRowBytes r links extra_off ++ nodes, all)

def finish (rows : List Row) (root_has_error : Bool) : TreeBuffers :=
  let n := rows.length
  let (counts, named) := rows.foldl countStep (List.replicate n 0, List.replicate n 0)
  let (offsets, acc) := prefixSums 0 counts
  let filled := rows.zipIdx.foldl (fillStep offsets)
    ⟨List.replicate n 0, List.replicate acc.toNat 0, List.replicate n 0⟩
  let links := rows.zipIdx.map fun (r, i) =>
    (r, Links.mk (offsets.getD i 0) (counts.getD i 0) (named.getD i 0) (filled.in_parent.getD i 0))
  let (nodes, fields) := serializeRows links []
  { «meta» := [TREE_ABI_VERSION, UInt32.ofNat n, if root_has_error then 1 else 0].flatMap le32
    nodes, fields
    children := filled.child_table.flatMap le32 }

/-- What a grammar answers for the ids of its kinds, from 0, and of its fields, from 1. -/
structure Grammar where
  kinds : List (Option String)
  fields : List (Option String)

structure TreeNames where
  kind_count : UInt32
  field_count : UInt32
  names : List UInt8

/-- The ids run up to the count cut off at 16 bits. -/
def tree_names (g : Grammar) : TreeNames :=
  let spell (names : List (Option String)) : List Char :=
    (names.take (names.length % 2 ^ 16)).flatMap fun name => (name.getD "").toList ++ ['\x00']
  { kind_count := UInt32.ofNat g.kinds.length
    field_count := UInt32.ofNat g.fields.length + 1
    names := utf8 (String.ofList (spell g.kinds ++ ['\x00'] ++ spell g.fields)) }

/-! ### Reading -/

inductive ReadError where
  /-- A read past the end of a buffer. -/
  | outOfRange
  /-- The fuel of a loop ran out; no run of the facade ends so. -/
  | unfinished
  deriving DecidableEq, Repr

abbrev Reads := Except ReadError

def readUInt8 (buf : List UInt8) (off : Nat) : Reads UInt8 :=
  (readU8 buf off).elim (.error .outOfRange) .ok

def readUInt16LE (buf : List UInt8) (off : Nat) : Reads UInt16 :=
  (readU16 buf off).elim (.error .outOfRange) .ok

def readUInt32LE (buf : List UInt8) (off : Nat) : Reads UInt32 :=
  (readU32 buf off).elim (.error .outOfRange) .ok

namespace ROW

def kind := 0
def flags := 2
def field := 4
def extraFieldCount := 6
def parent := 8
def startByte := 12
def endByte := 16
def startRow := 20
def startCol := 24
def endRow := 28
def endCol := 32
def startIndex := 36
def endIndex := 40
def childOff := 44
def childCount := 48
def namedChildCount := 52
def indexInParent := 56
def extraFieldsOff := 60

end ROW

/-- The buffers of one tree; `fields_` is the table of field names. -/
structure TreeData where
  source : JsString
  nodes : List UInt8
  children : List UInt8
  fields : List UInt8
  kinds : List String
  fields_ : List String

/-! ### A facade node is its preorder index -/

namespace NativeNode

variable (d : TreeData)

def u32 (id off : Nat) : Reads UInt32 := readUInt32LE d.nodes (id * TREE_ROW_SIZE + off)

def u16 (id off : Nat) : Reads UInt16 := readUInt16LE d.nodes (id * TREE_ROW_SIZE + off)

def u8 (id off : Nat) : Reads UInt8 := readUInt8 d.nodes (id * TREE_ROW_SIZE + off)

def type (id : Nat) : Reads String := do
  let kind ← u16 d id ROW.kind
  return if kind = 0xffff then "ERROR" else d.kinds[kind.toNat]?.getD ""

def hasFlag (id : Nat) (flag : UInt8) : Reads Bool := do
  let flags ← u8 d id ROW.flags
  return flags &&& flag ≠ 0

def isNamed (id : Nat) : Reads Bool := hasFlag d id FLAG_NAMED

def hasError (id : Nat) : Reads Bool := hasFlag d id FLAG_HAS_ERROR

def isMissing (id : Nat) : Reads Bool := hasFlag d id FLAG_MISSING

def startIndex (id : Nat) : Reads UInt32 := u32 d id ROW.startIndex

def endIndex (id : Nat) : Reads UInt32 := u32 d id ROW.endIndex

def startPosition (id : Nat) : Reads (UInt32 × UInt32) := do
  return (← u32 d id ROW.startRow, ← u32 d id ROW.startCol)

def endPosition (id : Nat) : Reads (UInt32 × UInt32) := do
  return (← u32 d id ROW.endRow, ← u32 d id ROW.endCol)

def text (id : Nat) : Reads JsString := do
  let start ← startIndex d id
  let stop ← endIndex d id
  return (d.source.take stop.toNat).drop start.toNat

def parent (id : Nat) : Reads (Option Nat) := do
  let p ← u32 d id ROW.parent
  return if p = NONE then none else some p.toNat

def childCount (id : Nat) : Reads Nat := return (← u32 d id ROW.childCount).toNat

def namedChildCount (id : Nat) : Reads Nat := return (← u32 d id ROW.namedChildCount).toNat

/-- `child(i)!` below the count. -/
def childAt (id i : Nat) : Reads Nat := do
  let off ← u32 d id ROW.childOff
  return (← readUInt32LE d.children ((off.toNat + i) * 4)).toNat

def child (id : Nat) (i : Int) : Reads (Option Nat) := do
  let count ← childCount d id
  if i < 0 ∨ (count : Int) ≤ i then return none
  return some (← childAt d id i.toNat)

def children (id : Nat) : Reads (List Nat) := do
  let count ← childCount d id
  (List.range count).mapM (childAt d id)

def namedChildren (id : Nat) : Reads (List Nat) := do
  (← children d id).filterM (isNamed d)

/-- The loop of `namedChild`, with `seen` named children behind it. -/
def namedChildFrom (id i : Nat) : List Nat → Nat → Reads (Option Nat)
  | [], _ => return none
  | k :: ks, seen => do
    let c ← childAt d id k
    if !(← isNamed d c) then namedChildFrom id i ks seen
    else if seen = i then return some c
    else namedChildFrom id i ks (seen + 1)

def namedChild (id : Nat) (i : Int) : Reads (Option Nat) := do
  if i < 0 then return none
  let count ← childCount d id
  namedChildFrom d id i.toNat (List.range count) 0

def firstChild (id : Nat) : Reads (Option Nat) := child d id 0

def lastChild (id : Nat) : Reads (Option Nat) := do
  let count ← childCount d id
  child d id ((count : Int) - 1)

/-- The sibling `by_` places on. -/
def siblingBy (by_ : Int) (id : Nat) : Reads (Option Nat) := do
  match ← parent d id with
  | none => return none
  | some p =>
    let index ← u32 d id ROW.indexInParent
    child d p ((index.toNat : Int) + by_)

def nextSibling (id : Nat) : Reads (Option Nat) := siblingBy d 1 id

def previousSibling (id : Nat) : Reads (Option Nat) := siblingBy d (-1) id

/-- `while (s && !s.isNamed) s = next(s)`. -/
def skipUnnamed (next : Nat → Reads (Option Nat)) : Nat → Option Nat → Reads (Option Nat)
  | _, none => return none
  | 0, some _ => .error .unfinished
  | fuel + 1, some s => do
    if ← isNamed d s then return some s
    skipUnnamed next fuel (← next s)

def nextNamedSibling (id : Nat) : Reads (Option Nat) := do
  skipUnnamed d (nextSibling d) d.nodes.length (← nextSibling d id)

def previousNamedSibling (id : Nat) : Reads (Option Nat) := do
  skipUnnamed d (previousSibling d) d.nodes.length (← previousSibling d id)

def fieldName (id : Nat) : Reads (Option String) := do
  let field ← u16 d id ROW.field
  return if field = 0 then none else d.fields_[field.toNat]?

def extraFields (id : Nat) : Reads (List UInt16) := do
  let count ← u16 d id ROW.extraFieldCount
  if count = 0 then return []
  let off ← u32 d id ROW.extraFieldsOff
  (List.range count.toNat).mapM fun i => readUInt16LE d.fields ((off.toNat + i) * 2)

/-- An empty name counts as none. -/
def truthy (name : Option String) : List String := (name.filter (· ≠ "")).toList

def fieldNames (id : Nat) : Reads (List String) := do
  let primary ← fieldName d id
  let extra ← extraFields d id
  return truthy primary ++ extra.flatMap fun f => truthy d.fields_[f.toNat]?

def hasField (name : String) (id : Nat) : Reads Bool := do
  if (← fieldName d id) = some name then return true
  let extra ← extraFields d id
  return extra.any fun f => d.fields_[f.toNat]? = some name

def fieldNameForChild (id : Nat) (index : Int) : Reads (Option String) := do
  match ← child d id index with
  | none => return none
  | some c => fieldName d c

def fieldNameForNamedChild (id : Nat) (index : Int) : Reads (Option String) := do
  match ← namedChild d id index with
  | none => return none
  | some c => fieldName d c

/-- The loop of `childForFieldName` over the children from `ks`. -/
def childForFieldFrom (name : String) (id : Nat) : List Nat → Reads (Option Nat)
  | [] => return none
  | k :: ks => do
    let c ← childAt d id k
    if ← hasField d name c then return some c
    childForFieldFrom name id ks

def childForFieldName (id : Nat) (name : String) : Reads (Option Nat) := do
  let count ← childCount d id
  childForFieldFrom d name id (List.range count)

def childrenForFieldName (id : Nat) (name : String) : Reads (List Nat) := do
  (← children d id).filterM fun c => return (← fieldName d c) = some name

end NativeNode

/-- `count` names from position `pos` on, and the position after them. -/
def splitNames (buf : List UInt8) : Nat → Nat → List String × Nat
  | 0, pos => ([], pos)
  | count + 1, pos =>
    match (buf.drop pos).findIdx? (· = 0) with
    | none =>
      -- `indexOf` answers -1: an empty name, and the next search starts at 0.
      let (names, next) := splitNames buf count 0
      ("" :: names, next)
    | some length =>
      let (names, next) := splitNames buf count (pos + length + 1)
      (utf8Decode ((buf.drop pos).take length) :: names, next)

def namesFor (t : TreeNames) : List String × List String :=
  let (kinds, next) := splitNames t.names t.kind_count.toNat 0
  let (fields, _) := splitNames t.names t.field_count.toNat next
  (kinds, fields)

def parseNativeTree (source : JsString) (names : TreeNames) (buffers : TreeBuffers) : TreeData :=
  let (kinds, fields) := namesFor names
  { source, kinds
    nodes := buffers.nodes
    children := buffers.children
    fields := buffers.fields
    fields_ := fields }

open Text

structure Grammar.Named (g : Grammar) : Prop where
  kindIds : g.kinds.length < 2 ^ 16
  fieldIds : g.fields.length < 2 ^ 16
  kindNames : ∀ name ∈ g.kinds, '\x00' ∉ (name.getD "").toList
  fieldNames : ∀ name ∈ g.fields, ∃ s, name = some s ∧ s ≠ "" ∧ '\x00' ∉ s.toList

def Grammar.kindTable (g : Grammar) : List String := g.kinds.map (·.getD "")

/-- Field ids start at 1. -/
def Grammar.fieldTable (g : Grammar) : List String := "" :: g.fields.map (·.getD "")

/-! ### Bytes of names -/

private theorem ofNat_ne_zero {n : Nat} (positive : 0 < n) (small : n < 256) :
    (0 : UInt8) ≠ UInt8.ofNat n := by
  intro same
  have numbers := congrArg UInt8.toNat same
  rw [UInt8.toNat_ofNat', Nat.mod_eq_of_lt small] at numbers
  exact Nat.ne_of_lt positive numbers

/-- Only U+0000 is encoded with a zero byte. -/
private theorem zero_not_mem_encodeChar {c : Char} (other : c ≠ '\x00') :
    (0 : UInt8) ∉ String.utf8EncodeChar c := by
  have positive : 0 < c.val.toNat := by
    rcases Nat.eq_zero_or_pos c.val.toNat with zero | positive
    · exact (other (Char.ext (UInt32.toNat_inj.mp zero))).elim
    · exact positive
  unfold String.utf8EncodeChar
  simp only
  -- One case for each length; every byte of the longer ones has its high bit set.
  split
  · simp only [List.mem_singleton]
    exact ofNat_ne_zero positive (by omega)
  · split
    · simp only [List.mem_cons, List.not_mem_nil, or_false, not_or]
      exact ⟨ofNat_ne_zero (by omega) (by omega), ofNat_ne_zero (by omega) (by omega)⟩
    · split
      · simp only [List.mem_cons, List.not_mem_nil, or_false, not_or]
        exact ⟨ofNat_ne_zero (by omega) (by omega), ofNat_ne_zero (by omega) (by omega),
          ofNat_ne_zero (by omega) (by omega)⟩
      · simp only [List.mem_cons, List.not_mem_nil, or_false, not_or]
        exact ⟨ofNat_ne_zero (by omega) (by omega), ofNat_ne_zero (by omega) (by omega),
          ofNat_ne_zero (by omega) (by omega), ofNat_ne_zero (by omega) (by omega)⟩

private theorem zero_not_mem_utf8 {s : String} (clean : '\x00' ∉ s.toList) :
    (0 : UInt8) ∉ utf8 s := by
  intro zero
  obtain ⟨c, member, byte⟩ := List.mem_flatMap.mp zero
  exact zero_not_mem_encodeChar (fun same => clean (same ▸ member)) byte

private def nameBytes (s : String) : List UInt8 := utf8 s ++ [0]

private theorem findIdx?_name {s : String} (clean : '\x00' ∉ s.toList) (rest : List UInt8) :
    (nameBytes s ++ rest).findIdx? (· = 0) = some (utf8 s).length := by
  rw [nameBytes, List.append_assoc, List.findIdx?_append]
  have absent : (utf8 s).findIdx? (· = 0) = none := by
    rw [List.findIdx?_eq_none_iff]
    intro b member
    simp only [decide_eq_false_iff_not]
    rintro rfl
    exact zero_not_mem_utf8 clean member
  rw [absent]
  simp [List.findIdx?_cons]

private theorem splitNames_names (names : List String) (clean : ∀ s ∈ names, '\x00' ∉ s.toList)
    (before after : List UInt8) :
    splitNames (before ++ names.flatMap nameBytes ++ after) names.length before.length =
      (names, (before ++ names.flatMap nameBytes).length) := by
  induction names generalizing before with
  | nil => simp [splitNames]
  | cons s names ih =>
    have here : (before ++ (s :: names).flatMap nameBytes ++ after).drop before.length =
        nameBytes s ++ (names.flatMap nameBytes ++ after) := by
      rw [List.append_assoc, List.drop_left, List.flatMap_cons, List.append_assoc]
    have regroup : before ++ (s :: names).flatMap nameBytes =
        before ++ nameBytes s ++ names.flatMap nameBytes := by
      rw [List.flatMap_cons, List.append_assoc]
    have length : before.length + (utf8 s).length + 1 = (before ++ nameBytes s).length := by
      rw [nameBytes, List.length_append, List.length_append, List.length_singleton]
      omega
    have first : (nameBytes s ++ (names.flatMap nameBytes ++ after)).take (utf8 s).length =
        utf8 s := by
      rw [nameBytes, List.append_assoc, List.take_left]
    have rest := ih (fun q member => clean q (List.mem_cons_of_mem _ member))
      (before ++ nameBytes s)
    rw [List.length_cons, splitNames, here, findIdx?_name (clean s List.mem_cons_self)]
    simp only
    rw [regroup, length, rest, first, utf8Decode_utf8]

private theorem utf8_ofList (chars : List Char) :
    utf8 (String.ofList chars) = chars.flatMap String.utf8EncodeChar := by
  rw [utf8, String.toList_ofList]

private theorem spell_bytes (names : List (Option String)) :
    (names.flatMap fun name => (name.getD "").toList ++ ['\x00']).flatMap String.utf8EncodeChar =
      (names.map (·.getD "")).flatMap nameBytes := by
  induction names with
  | nil => rfl
  | cons name names ih =>
    rw [List.flatMap_cons, List.flatMap_append, ih, List.map_cons, List.flatMap_cons,
      List.flatMap_append]
    rfl

private theorem tree_names_bytes {g : Grammar} (named : g.Named) :
    (tree_names g).names = g.kindTable.flatMap nameBytes ++ g.fieldTable.flatMap nameBytes := by
  have kinds : g.kinds.take (g.kinds.length % 2 ^ 16) = g.kinds := by
    rw [Nat.mod_eq_of_lt named.kindIds, List.take_length]
  have fields : g.fields.take (g.fields.length % 2 ^ 16) = g.fields := by
    rw [Nat.mod_eq_of_lt named.fieldIds, List.take_length]
  simp only [tree_names, kinds, fields]
  rw [utf8_ofList, List.flatMap_append, List.flatMap_append, spell_bytes, spell_bytes,
    Grammar.kindTable, Grammar.fieldTable, List.flatMap_cons, List.append_assoc]
  rfl

private theorem fieldTable_clean {g : Grammar} (named : g.Named) :
    ∀ s ∈ g.fieldTable, '\x00' ∉ s.toList := by
  intro s member
  rcases List.mem_cons.mp member with rfl | inside
  · simp
  · obtain ⟨name, listed, rfl⟩ := List.mem_map.mp inside
    obtain ⟨s, rfl, -, clean⟩ := named.fieldNames name listed
    exact clean

theorem namesFor_tree_names {g : Grammar} (named : g.Named) :
    namesFor (tree_names g) = (g.kindTable, g.fieldTable) := by
  have kindIds := named.kindIds
  have fieldIds := named.fieldIds
  have kind_count : (tree_names g).kind_count.toNat = g.kindTable.length := by
    rw [tree_names, Grammar.kindTable, List.length_map, UInt32.toNat_ofNat']
    exact Nat.mod_eq_of_lt (by omega)
  have field_count : (tree_names g).field_count.toNat = g.fieldTable.length := by
    rw [tree_names, Grammar.fieldTable, List.length_cons, List.length_map, UInt32.toNat_add,
      UInt32.toNat_ofNat', Nat.mod_eq_of_lt (Nat.lt_trans fieldIds (by decide))]
    exact Nat.mod_eq_of_lt (by change _ + 1 < _; omega)
  have clean : ∀ s ∈ g.kindTable, '\x00' ∉ s.toList := by
    intro s member
    obtain ⟨name, listed, rfl⟩ := List.mem_map.mp member
    exact named.kindNames name listed
  have kinds := splitNames_names g.kindTable clean [] (g.fieldTable.flatMap nameBytes)
  have fields := splitNames_names g.fieldTable (fieldTable_clean named)
    (g.kindTable.flatMap nameBytes) []
  rw [List.nil_append, List.length_nil] at kinds
  rw [List.append_nil] at fields
  unfold namesFor
  rw [tree_names_bytes named, kind_count, field_count, kinds]
  simp only [fields]

def Grammar.fieldName (g : Grammar) (f : UInt16) : Option String :=
  if f = 0 then none else g.fields[f.toNat - 1]?.join

theorem fieldTable_get {g : Grammar} (named : g.Named) {f : UInt16} (present : f ≠ 0) :
    g.fieldTable[f.toNat]? = g.fieldName f := by
  have positive : f.toNat ≠ 0 := fun zero => present (UInt16.toNat_inj.mp zero)
  obtain ⟨k, index⟩ := Nat.exists_eq_succ_of_ne_zero positive
  rw [Grammar.fieldName, if_neg present, Grammar.fieldTable, index, Nat.succ_eq_add_one,
    List.getElem?_cons_succ, List.getElem?_map, Nat.add_sub_cancel]
  cases found : g.fields[k]? with
  | none => rfl
  | some name =>
    obtain ⟨s, rfl, -, -⟩ := named.fieldNames name (List.mem_of_getElem? found)
    rfl

theorem fieldName_ne_empty {g : Grammar} (named : g.Named) {f : UInt16} {s : String}
    (found : g.fieldName f = some s) : s ≠ "" := by
  rw [Grammar.fieldName] at found
  split at found
  · cases found
  · have listed := List.mem_of_getElem? (Option.join_eq_some_iff.mp found)
    obtain ⟨_, ⟨⟩, nonempty, -⟩ := named.fieldNames _ listed
    exact nonempty

end CodeGraph.Kernel.Tree
