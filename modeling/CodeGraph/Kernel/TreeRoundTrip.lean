import CodeGraph.Kernel.TreeFinish

/-! A parse tree that is written and read back through the facade is the same tree. -/
namespace CodeGraph.Kernel.Tree

open Buckets Text LittleEndian
open NativeNode (u8 u16 u32)

/-! ### Loops of the facade -/

section Loops

variable {α β : Type}

@[simp] private theorem reads_bind (x : α) (f : α → Reads β) :
    ((Except.ok x : Reads α) >>= f) = f x := rfl

@[simp] private theorem reads_pure (x : α) : (pure x : Reads α) = .ok x := rfl

private theorem mapM_reads {f : Nat → Reads α} {start : Nat} {l : List α}
    (each : ∀ k x, l[k]? = some x → f (start + k) = .ok x) :
    (List.range' start l.length).mapM f = .ok l := by
  induction l generalizing start with
  | nil => rfl
  | cons x l ih =>
    have later : ∀ k y, l[k]? = some y → f (start + 1 + k) = .ok y := by
      intro k y found
      have shift : start + 1 + k = start + (k + 1) := by omega
      rw [shift]
      exact each (k + 1) y found
    have rest := ih later
    have first : f start = .ok x := each 0 x rfl
    rw [List.length_cons, List.range'_succ, List.mapM_cons, first, reads_bind, rest]
    rfl

private theorem filterAuxM_reads {f : α → Reads Bool} {q : α → Bool} {l : List α} (acc : List α)
    (each : ∀ x ∈ l, f x = .ok (q x)) :
    List.filterAuxM f l acc = .ok ((l.filter q).reverse ++ acc) := by
  induction l generalizing acc with
  | nil => rfl
  | cons x l ih =>
    rw [List.filterAuxM, each x List.mem_cons_self, reads_bind,
      ih _ fun y member => each y (List.mem_cons_of_mem _ member)]
    cases value : q x <;> simp [value]

private theorem filterM_reads {f : α → Reads Bool} {q : α → Bool} {l : List α}
    (each : ∀ x ∈ l, f x = .ok (q x)) : l.filterM f = .ok (l.filter q) := by
  rw [List.filterM, filterAuxM_reads [] each, reads_bind, List.append_nil, List.reverse_reverse]
  rfl

variable {d : TreeData} {id start : Nat} {l : List Nat}
  (each : ∀ k x, l[k]? = some x → NativeNode.childAt d id (start + k) = .ok x)

include each

private theorem each_tail {x : Nat} {tail : List Nat} (eq : l = x :: tail) :
    NativeNode.childAt d id start = .ok x ∧
      ∀ k y, tail[k]? = some y → NativeNode.childAt d id (start + 1 + k) = .ok y := by
  subst eq
  refine ⟨each 0 x rfl, fun k y found => ?_⟩
  have shift : start + 1 + k = start + (k + 1) := by omega
  rw [shift]
  exact each (k + 1) y found

private theorem namedChildFrom_reads {q : Nat → Bool} (i seen : Nat) (le : seen ≤ i)
    (named : ∀ x ∈ l, NativeNode.isNamed d x = .ok (q x)) :
    NativeNode.namedChildFrom d id i (List.range' start l.length) seen =
      .ok (l.filter q)[i - seen]? := by
  induction l generalizing start seen with
  | nil => rfl
  | cons x l ih =>
    obtain ⟨first, later⟩ := each_tail each rfl
    have rest (seen : Nat) (le : seen ≤ i) := ih later seen le fun y member =>
      named y (List.mem_cons_of_mem _ member)
    rw [List.length_cons, List.range'_succ, NativeNode.namedChildFrom, first, reads_bind,
      named x List.mem_cons_self, reads_bind]
    cases value : q x with
    | false => simpa [value] using rest seen le
    | true =>
      rw [List.filter_cons_of_pos value]
      by_cases found : seen = i
      · simp [found]
      · obtain ⟨k, gap⟩ : ∃ k, i - seen = k + 1 := ⟨i - seen - 1, by omega⟩
        have gap' : i - (seen + 1) = k := by omega
        rw [gap, List.getElem?_cons_succ, ← gap']
        simpa [found] using rest (seen + 1) (by omega)

private theorem childForFieldFrom_reads {q : Nat → Bool} {name : String}
    (carries : ∀ x ∈ l, NativeNode.hasField d name x = .ok (q x)) :
    NativeNode.childForFieldFrom d name id (List.range' start l.length) = .ok (l.find? q) := by
  induction l generalizing start with
  | nil => rfl
  | cons x l ih =>
    obtain ⟨first, later⟩ := each_tail each rfl
    have rest := ih later fun y member => carries y (List.mem_cons_of_mem _ member)
    rw [List.length_cons, List.range'_succ, NativeNode.childForFieldFrom, first, reads_bind,
      carries x List.mem_cons_self, reads_bind]
    cases value : q x with
    | false => simpa [value] using rest
    | true => simp [value]

omit each in
private theorem skipUnnamed_reads {next : Nat → Reads (Option Nat)} {q : Nat → Bool} {fuel : Nat}
    (steps : ∀ m x, l[m]? = some x → next x = .ok l[m + 1]?)
    (named : ∀ x ∈ l, NativeNode.isNamed d x = .ok (q x)) (enough : l.length ≤ fuel) :
    NativeNode.skipUnnamed d next fuel l.head? = .ok (l.find? q) := by
  induction l generalizing fuel with
  | nil => cases fuel <;> rfl
  | cons x l ih =>
    cases fuel with
    | zero => exact absurd enough (Nat.not_succ_le_zero _)
    | succ fuel =>
      have rest := ih (fun m y found => steps (m + 1) y found)
        (fun y member => named y (List.mem_cons_of_mem _ member)) (Nat.le_of_succ_le_succ enough)
      have onward : next x = .ok l.head? := by
        rw [steps 0 x rfl, List.getElem?_cons_succ, ← List.head?_eq_getElem?]
      rw [List.head?_cons, NativeNode.skipUnnamed, named x List.mem_cons_self, reads_bind]
      cases value : q x with
      | true => simp [value]
      | false => simpa [value, onward] using rest

end Loops

/-! ### The rows of a listing -/

def flagsOf (info : NodeInfo) : UInt8 :=
  (if info.isNamed then FLAG_NAMED else 0) ||| (if info.hasError then FLAG_HAS_ERROR else 0) |||
    (if info.isMissing then FLAG_MISSING else 0)

def toRow (e : Entry) : Row where
  kind := e.info.kind
  flags := flagsOf e.info
  field := e.info.field.elim 0 Subtype.val
  parent := e.parent.elim NONE UInt32.ofNat
  start_byte := e.info.start_byte
  end_byte := e.info.end_byte
  start_row := e.info.start_row
  start_col := e.info.start_col
  end_row := e.info.end_row
  end_col := e.info.end_col
  start_idx := e.info.start_idx
  end_idx := e.info.end_idx
  extra_fields := e.info.extra_fields.map Subtype.val

def rowsOf (t : CstTree) : List Row := (entries t).map toRow

/-- The widths of the row format: an index is below `NONE`, and a node counts its extra fields in 16
bits and finds them in a table of 32. -/
structure Fits (t : CstTree) : Prop where
  nodes : t.size < 2 ^ 32
  extras : ∀ e ∈ entries t, e.info.extra_fields.length < 2 ^ 16
  allExtras : ((entries t).map fun e => e.info.extra_fields.length).sum < 2 ^ 32

def Grammar.typeName (g : Grammar) (kind : UInt16) : String :=
  if kind = 0xffff then "ERROR" else g.kinds[kind.toNat]?.join.getD ""

def Entry.fieldName (g : Grammar) (e : Entry) : Option String :=
  e.info.field.bind fun f => g.fieldName f.val

def Entry.fieldNames (g : Grammar) (e : Entry) : List String :=
  (e.fieldName g).toList ++ e.info.extra_fields.filterMap fun f => g.fieldName f.val

def siblings (es : List Entry) (e : Entry) : List Nat :=
  (e.parent.bind (es[·]?)).elim [] Entry.children

def following (es : List Entry) (i : Nat) (e : Entry) : List Nat :=
  (siblings es e).drop ((siblings es e).idxOf i + 1)

def preceding (es : List Entry) (i : Nat) (e : Entry) : List Nat :=
  ((siblings es e).take ((siblings es e).idxOf i)).reverse

def namedAt (es : List Entry) (i : Nat) : Bool := es[i]?.any fun e => e.info.isNamed

def fieldAt (g : Grammar) (es : List Entry) (i : Nat) : Option String :=
  es[i]?.bind fun e => e.fieldName g

def carries (g : Grammar) (es : List Entry) (name : String) (i : Nat) : Bool :=
  es[i]?.any fun e => name ∈ e.fieldNames g

def itemAt (l : List Nat) (k : Int) : Option Nat := if k < 0 then none else l[k.toNat]?

/-- The facade node `i` is the entry `e` of the listing. -/
structure ReadsBack (g : Grammar) (d : TreeData) (es : List Entry) (i : Nat) (e : Entry) : Prop where
  type : NativeNode.type d i = .ok (g.typeName e.info.kind)
  isNamed : NativeNode.isNamed d i = .ok e.info.isNamed
  hasError : NativeNode.hasError d i = .ok e.info.hasError
  isMissing : NativeNode.isMissing d i = .ok e.info.isMissing
  startIndex : NativeNode.startIndex d i = .ok e.info.start_idx
  endIndex : NativeNode.endIndex d i = .ok e.info.end_idx
  startPosition : NativeNode.startPosition d i = .ok (e.info.start_row, e.info.start_col)
  endPosition : NativeNode.endPosition d i = .ok (e.info.end_row, e.info.end_col)
  text : NativeNode.text d i =
    .ok ((d.source.take e.info.end_idx.toNat).drop e.info.start_idx.toNat)
  parent : NativeNode.parent d i = .ok e.parent
  children : NativeNode.children d i = .ok e.children
  childCount : NativeNode.childCount d i = .ok e.children.length
  child : ∀ k, NativeNode.child d i k = .ok (itemAt e.children k)
  inverse : ∀ c < es.length,
    NativeNode.parent d c = .ok (some i) ↔ ∃ k, NativeNode.child d i k = .ok (some c)
  firstChild : NativeNode.firstChild d i = .ok e.children.head?
  lastChild : NativeNode.lastChild d i = .ok e.children.getLast?
  namedChildren : NativeNode.namedChildren d i = .ok (e.children.filter (namedAt es))
  namedChildCount : NativeNode.namedChildCount d i = .ok (e.children.filter (namedAt es)).length
  namedChild : ∀ k, NativeNode.namedChild d i k = .ok (itemAt (e.children.filter (namedAt es)) k)
  nextSibling : NativeNode.nextSibling d i = .ok (following es i e).head?
  previousSibling : NativeNode.previousSibling d i = .ok (preceding es i e).head?
  nextNamedSibling : NativeNode.nextNamedSibling d i = .ok ((following es i e).find? (namedAt es))
  previousNamedSibling :
    NativeNode.previousNamedSibling d i = .ok ((preceding es i e).find? (namedAt es))
  fieldNames : NativeNode.fieldNames d i = .ok (e.fieldNames g)
  childForFieldName : ∀ name,
    NativeNode.childForFieldName d i name = .ok (e.children.find? (carries g es name))
  childrenForFieldName : ∀ name, NativeNode.childrenForFieldName d i name =
    .ok (e.children.filter fun c => fieldAt g es c = some name)
  fieldNameForChild : ∀ k, NativeNode.fieldNameForChild d i k =
    .ok ((itemAt e.children k).bind (fieldAt g es))
  fieldNameForNamedChild : ∀ k, NativeNode.fieldNameForNamedChild d i k =
    .ok ((itemAt (e.children.filter (namedAt es)) k).bind (fieldAt g es))

/-! ### Reading the rows -/

private structure Crossed (g : Grammar) (t : CstTree) (root_has_error : Bool) (d : TreeData) :
    Prop where
  named : g.Named
  fits : Fits t
  nodes : d.nodes = (finish (rowsOf t) root_has_error).nodes
  children : d.children = (finish (rowsOf t) root_has_error).children
  fields : d.fields = (finish (rowsOf t) root_has_error).fields
  kinds : d.kinds = g.kindTable
  names : d.fields_ = g.fieldTable

private theorem toRow_extra_fields (e : Entry) :
    (toRow e).extra_fields = e.info.extra_fields.map Subtype.val := rfl

private theorem toNat_ofNat {n : Nat} (small : n < 2 ^ 32) : (UInt32.ofNat n).toNat = n :=
  UInt32.toNat_ofNat_of_lt' small

private theorem rowsOf_get {t : CstTree} {i : Nat} {e : Entry} (found : (entries t)[i]? = some e) :
    (rowsOf t)[i]? = some (toRow e) := by
  rw [rowsOf, List.getElem?_map, found]
  rfl

private theorem length_entries (t : CstTree) : (entries t).length = t.size :=
  length_listing none 0 t

private theorem index_lt {t : CstTree} {i : Nat} {e : Entry}
    (found : (entries t)[i]? = some e) : i < t.size := by
  obtain ⟨below, _⟩ := List.getElem?_eq_some_iff.mp found
  rwa [length_entries] at below

private theorem parentKey_toRow {t : CstTree} (fits : Fits t) {i : Nat} {e : Entry}
    (found : (entries t)[i]? = some e) : parentKey (toRow e) = e.parent := by
  cases parent : e.parent with
  | none => simp [parentKey, toRow, parent]
  | some p =>
    have below := entries_parent found parent
    have small := fits.nodes
    rw [length_entries] at below
    have number : (UInt32.ofNat p).toNat = p := toNat_ofNat (by omega)
    have present : UInt32.ofNat p ≠ NONE := by
      intro same
      -- The last index that fits is below the mark for no parent.
      have numbers := congrArg UInt32.toNat same
      rw [number] at numbers
      have : NONE.toNat = 2 ^ 32 - 1 := rfl
      omega
    simp [parentKey, toRow, parent, present, number]

private theorem keys_rowsOf {t : CstTree} (fits : Fits t) : keys (rowsOf t) = parents (entries t) := by
  rw [keys, rowsOf, parents, List.map_map]
  apply List.map_congr_left
  intro e member
  obtain ⟨i, found⟩ := List.getElem?_of_mem member
  exact parentKey_toRow fits found

private theorem flagsOf_test (info : NodeInfo) :
    decide (flagsOf info &&& FLAG_NAMED ≠ 0) = info.isNamed ∧
      decide (flagsOf info &&& FLAG_HAS_ERROR ≠ 0) = info.hasError ∧
      decide (flagsOf info &&& FLAG_MISSING ≠ 0) = info.isMissing := by
  unfold flagsOf
  generalize info.isNamed = named
  generalize info.hasError = error
  generalize info.isMissing = missing
  revert named error missing
  decide

private theorem rowNamed_toRow (e : Entry) : rowNamed (toRow e) = e.info.isNamed :=
  (flagsOf_test e.info).1

private theorem namedKeys_rowsOf {t : CstTree} (fits : Fits t) :
    namedKeys (rowsOf t) = parents ((entries t).filter fun e => e.info.isNamed) := by
  rw [namedKeys, rowsOf, List.filter_map, keys, List.map_map, parents]
  have same : (rowNamed ∘ toRow) = fun e : Entry => e.info.isNamed := funext rowNamed_toRow
  rw [same]
  apply List.map_congr_left
  intro e member
  obtain ⟨i, found⟩ := List.getElem?_of_mem (List.mem_filter.mp member).1
  exact parentKey_toRow fits found

section Reads

variable {g : Grammar} {t : CstTree} {root_has_error : Bool} {d : TreeData}

theorem entries_child_iff {i k j : Nat} {e : Entry} (found : (entries t)[i]? = some e)
    (child : e.children[k]? = some j) :
    ∃ c, (entries t)[j]? = some c ∧ c.parent = some i ∧ rank (parents (entries t)) (some i) j = k := by
  rw [entries_children found] at child
  obtain ⟨key, rank_⟩ := bucket_position child
  rw [parents, List.getElem?_map] at key
  obtain ⟨c, there, parent⟩ := Option.map_eq_some_iff.mp key
  exact ⟨c, there, parent, rank_⟩

theorem entries_parent_child {i p : Nat} {e : Entry} (found : (entries t)[i]? = some e)
    (parent : e.parent = some p) :
    ∃ (q : Entry) (k : Nat), (entries t)[p]? = some q ∧ q.children[k]? = some i := by
  have below := entries_parent found parent
  have there := List.getElem?_eq_getElem below
  refine ⟨_, rank (parents (entries t)) (some p) i, there, ?_⟩
  rw [entries_children there]
  apply bucket_rank
  rw [parents, List.getElem?_map, found, Option.map_some, parent]

private theorem rows_within (fits : Fits t) :
    ∀ r ∈ rowsOf t, ∀ p, parentKey r = some p → p < (rowsOf t).length := by
  intro r member p key
  obtain ⟨e, listed, rfl⟩ := List.mem_map.mp member
  obtain ⟨i, found⟩ := List.getElem?_of_mem listed
  rw [parentKey_toRow fits found] at key
  rw [rowsOf, List.length_map]
  exact entries_parent found key

private theorem rows_small (fits : Fits t) : (rowsOf t).length < 2 ^ 32 := by
  rw [rowsOf, List.length_map, length_entries]
  exact fits.nodes

section Crossed

variable (crossed : Crossed g t root_has_error d)

include crossed

private theorem length_children {i : Nat} {e : Entry} (found : (entries t)[i]? = some e) :
    e.children.length = tally (keys (rowsOf t)) (some i) ∧ e.children.length ≤ t.size := by
  rw [entries_children found, length_bucket, ← keys_rowsOf crossed.fits]
  refine ⟨rfl, ?_⟩
  have bound := tally_le_length (keys (rowsOf t)) (some i)
  have length : (keys (rowsOf t)).length = t.size := by
    rw [keys, List.length_map, rowsOf, List.length_map, length_entries]
  omega

private theorem childCount_read {i : Nat} {e : Entry} (found : (entries t)[i]? = some e) :
    NativeNode.childCount d i = .ok e.children.length := by
  obtain ⟨links, row⟩ := finish_row crossed.nodes (rowsOf_get found)
  obtain ⟨count, bound⟩ := length_children crossed found
  have small := crossed.fits.nodes
  rw [NativeNode.childCount, row.childCount, reads_bind, reads_pure, ← count,
    toNat_ofNat (by omega)]

private theorem childAt_read {i k j : Nat} {e : Entry} (found : (entries t)[i]? = some e)
    (child : e.children[k]? = some j) : NativeNode.childAt d i k = .ok j := by
  obtain ⟨links, row⟩ := finish_row crossed.nodes (rowsOf_get found)
  obtain ⟨c, there, -, -⟩ := entries_child_iff found child
  have small := rows_small crossed.fits
  have total := offset_le_length (keys (rowsOf t)) i
  have below := index_lt there
  have nodes := crossed.fits.nodes
  rw [keys, List.length_map, ← keys] at total
  rw [entries_children found, ← keys_rowsOf crossed.fits] at child
  have read := finish_child small (rows_within crossed.fits) crossed.children child
  rw [NativeNode.childAt, row.childOff, reads_bind, toNat_ofNat (by omega), read, reads_bind,
    reads_pure, toNat_ofNat (by omega)]

private theorem child_read {i : Nat} {e : Entry} (found : (entries t)[i]? = some e) (k : Int) :
    NativeNode.child d i k = .ok (itemAt e.children k) := by
  rw [NativeNode.child, childCount_read crossed found, reads_bind, itemAt]
  by_cases negative : k < 0
  · rw [if_pos (.inl negative), if_pos negative]
    rfl
  · rw [if_neg negative]
    by_cases beyond : (e.children.length : Int) ≤ k
    · rw [if_pos (.inr beyond), List.getElem?_eq_none (by omega)]
      rfl
    · have below : k.toNat < e.children.length := by omega
      have item := List.getElem?_eq_getElem below
      rw [if_neg (by omega), childAt_read crossed found item, item]
      rfl

private theorem children_read {i : Nat} {e : Entry} (found : (entries t)[i]? = some e) :
    NativeNode.children d i = .ok e.children := by
  rw [NativeNode.children, childCount_read crossed found, reads_bind, List.range_eq_range']
  apply mapM_reads
  intro k x child
  rw [Nat.zero_add]
  exact childAt_read crossed found child

private theorem parent_read {i : Nat} {e : Entry} (found : (entries t)[i]? = some e) :
    NativeNode.parent d i = .ok e.parent := by
  obtain ⟨links, row⟩ := finish_row crossed.nodes (rowsOf_get found)
  rw [NativeNode.parent, row.parent, reads_bind, ← parentKey_toRow crossed.fits found]
  rfl

private theorem flag_read {i : Nat} {e : Entry} (found : (entries t)[i]? = some e) (flag : UInt8) :
    NativeNode.hasFlag d i flag = .ok (flagsOf e.info &&& flag ≠ 0) := by
  obtain ⟨links, row⟩ := finish_row crossed.nodes (rowsOf_get found)
  rw [NativeNode.hasFlag, row.flags]
  rfl

private theorem isNamed_read {i : Nat} {e : Entry} (found : (entries t)[i]? = some e) :
    NativeNode.isNamed d i = .ok (namedAt (entries t) i) := by
  have same := rowNamed_toRow e
  rw [NativeNode.isNamed, flag_read crossed found, namedAt, found, Option.any_some, ← same]
  rfl

private theorem child_isNamed {i : Nat} {e : Entry} (found : (entries t)[i]? = some e) :
    ∀ j ∈ e.children, NativeNode.isNamed d j = .ok (namedAt (entries t) j) := by
  intro j member
  obtain ⟨k, child⟩ := List.getElem?_of_mem member
  obtain ⟨c, there, -, -⟩ := entries_child_iff found child
  exact isNamed_read crossed there

private theorem namedChildren_read {i : Nat} {e : Entry} (found : (entries t)[i]? = some e) :
    NativeNode.namedChildren d i = .ok (e.children.filter (namedAt (entries t))) := by
  rw [NativeNode.namedChildren, children_read crossed found, reads_bind]
  exact filterM_reads (child_isNamed crossed found)

private theorem namedChildCount_read {i : Nat} {e : Entry} (found : (entries t)[i]? = some e) :
    NativeNode.namedChildCount d i = .ok (e.children.filter (namedAt (entries t))).length := by
  obtain ⟨links, row⟩ := finish_row crossed.nodes (rowsOf_get found)
  have bound := (length_children crossed found).2
  have fewer := List.length_filter_le (namedAt (entries t)) e.children
  have small := crossed.fits.nodes
  have count : (e.children.filter (namedAt (entries t))).length =
      tally (namedKeys (rowsOf t)) (some i) := by
    rw [entries_children found, namedKeys_rowsOf crossed.fits]
    apply length_filter_bucket
    intro j c there
    rw [Nat.zero_add, namedAt, there, Option.any_some]
  rw [NativeNode.namedChildCount, row.namedChildCount, reads_bind, reads_pure, ← count,
    toNat_ofNat (by omega)]

private theorem namedChild_read {i : Nat} {e : Entry} (found : (entries t)[i]? = some e) (k : Int) :
    NativeNode.namedChild d i k = .ok (itemAt (e.children.filter (namedAt (entries t))) k) := by
  rw [NativeNode.namedChild, itemAt]
  by_cases negative : k < 0
  · rw [if_pos negative, if_pos negative]
    rfl
  · have items : ∀ m x, e.children[m]? = some x → NativeNode.childAt d i (0 + m) = .ok x := by
      intro m x child
      rw [Nat.zero_add]
      exact childAt_read crossed found child
    rw [if_neg negative, if_neg negative, childCount_read crossed found, reads_bind,
      List.range_eq_range']
    exact namedChildFrom_reads items k.toNat 0 (Nat.zero_le _) (child_isNamed crossed found)

/-! ### Siblings -/

private theorem siblingBy_read {p k j : Nat} {e : Entry} (found : (entries t)[p]? = some e)
    (child : e.children[k]? = some j) (by_ : Int) :
    NativeNode.siblingBy d by_ j = .ok (itemAt e.children (k + by_)) := by
  obtain ⟨c, there, parent, rank_⟩ := entries_child_iff found child
  have keyed : (keys (rowsOf t))[j]? = some (some p) := by
    rw [keys_rowsOf crossed.fits, parents, List.getElem?_map, there, Option.map_some, parent]
  have place := finish_rank (rows_small crossed.fits) (rows_within crossed.fits) crossed.nodes keyed
  have bound := (length_children crossed found).2
  have small := crossed.fits.nodes
  obtain ⟨below, _⟩ := List.getElem?_eq_some_iff.mp child
  rw [keys_rowsOf crossed.fits, rank_] at place
  rw [NativeNode.siblingBy, parent_read crossed there, reads_bind, parent]
  simp only
  rw [place, reads_bind, toNat_ofNat (by omega), child_read crossed found]

private theorem nextSibling_read {p k j : Nat} {e : Entry} (found : (entries t)[p]? = some e)
    (child : e.children[k]? = some j) : NativeNode.nextSibling d j = .ok e.children[k + 1]? := by
  rw [NativeNode.nextSibling, siblingBy_read crossed found child, itemAt, if_neg (by omega)]
  rfl

private theorem previousSibling_read {p k j : Nat} {e : Entry} (found : (entries t)[p]? = some e)
    (child : e.children[k]? = some j) :
    NativeNode.previousSibling d j = .ok (if k = 0 then none else e.children[k - 1]?) := by
  rw [NativeNode.previousSibling, siblingBy_read crossed found child, itemAt]
  by_cases first : k = 0
  · subst first
    rfl
  · have index : ((k : Int) + -1).toNat = k - 1 := by omega
    rw [if_neg (by omega), if_neg first, index]

omit crossed in
private theorem siblings_cases {i : Nat} {e : Entry} (found : (entries t)[i]? = some e) :
    (e.parent = none ∧ siblings (entries t) e = []) ∨
      ∃ (p : Nat) (q : Entry) (k : Nat), (entries t)[p]? = some q ∧ q.children[k]? = some i ∧
        siblings (entries t) e = q.children ∧ q.children.idxOf i = k := by
  cases parent : e.parent with
  | none => exact .inl ⟨rfl, by simp [siblings, parent]⟩
  | some p =>
    obtain ⟨q, k, there, child⟩ := entries_parent_child found parent
    refine .inr ⟨p, q, k, there, child, by simp [siblings, parent, there], ?_⟩
    have nodup : q.children.Nodup := by
      rw [entries_children there]
      exact bucket_nodup _ _ _
    obtain ⟨below, rfl⟩ := List.getElem?_eq_some_iff.mp child
    exact nodup.idxOf_getElem k below

private theorem root_siblingBy {i : Nat} {e : Entry} (found : (entries t)[i]? = some e)
    (root : e.parent = none) (by_ : Int) : NativeNode.siblingBy d by_ i = .ok none := by
  rw [NativeNode.siblingBy, parent_read crossed found, reads_bind, root]
  rfl

private theorem nextSibling_following {i : Nat} {e : Entry} (found : (entries t)[i]? = some e) :
    NativeNode.nextSibling d i = .ok (following (entries t) i e).head? := by
  rcases siblings_cases found with ⟨root, none_⟩ | ⟨p, q, k, there, child, all, place⟩
  · rw [NativeNode.nextSibling, root_siblingBy crossed found root, following, none_]
    rfl
  · rw [nextSibling_read crossed there child, following, all, place, List.head?_drop]

private theorem previousSibling_preceding {i : Nat} {e : Entry}
    (found : (entries t)[i]? = some e) :
    NativeNode.previousSibling d i = .ok (preceding (entries t) i e).head? := by
  rcases siblings_cases found with ⟨root, none_⟩ | ⟨p, q, k, there, child, all, place⟩
  · rw [NativeNode.previousSibling, root_siblingBy crossed found root, preceding, none_]
    rfl
  · obtain ⟨below, _⟩ := List.getElem?_eq_some_iff.mp child
    rw [previousSibling_read crossed there child, preceding, all, place, List.head?_reverse,
      List.getLast?_take]
    by_cases first : k = 0
    · rw [if_pos first, if_pos first]
    · have item := List.getElem?_eq_getElem (l := q.children) (i := k - 1) (by omega)
      rw [if_neg first, if_neg first, item, Option.some_or]

private theorem enough_fuel {p : Nat} {q : Entry} (there : (entries t)[p]? = some q) :
    q.children.length ≤ d.nodes.length := by
  have bound := (length_children crossed there).2
  have nodes := length_finish_nodes (rowsOf t) root_has_error
  rw [← crossed.nodes, rowsOf, List.length_map, length_entries, TREE_ROW_SIZE] at nodes
  omega

private theorem nextNamedSibling_following {i : Nat} {e : Entry}
    (found : (entries t)[i]? = some e) : NativeNode.nextNamedSibling d i =
      .ok ((following (entries t) i e).find? (namedAt (entries t))) := by
  rw [NativeNode.nextNamedSibling, nextSibling_following crossed found, reads_bind]
  rcases siblings_cases found with ⟨root, none_⟩ | ⟨p, q, k, there, child, all, place⟩
  · rw [following, none_]
    cases d.nodes.length <;> rfl
  · have enough := enough_fuel crossed there
    rw [following, all, place]
    refine skipUnnamed_reads (fun m x item => ?_) (fun x member => ?_)
      (by rw [List.length_drop]; omega)
    · rw [List.getElem?_drop] at item ⊢
      exact nextSibling_read crossed there item
    · exact child_isNamed crossed there x (List.mem_of_mem_drop member)

private theorem previousNamedSibling_preceding {i : Nat} {e : Entry}
    (found : (entries t)[i]? = some e) : NativeNode.previousNamedSibling d i =
      .ok ((preceding (entries t) i e).find? (namedAt (entries t))) := by
  rw [NativeNode.previousNamedSibling, previousSibling_preceding crossed found, reads_bind]
  rcases siblings_cases found with ⟨root, none_⟩ | ⟨p, q, k, there, child, all, place⟩
  · rw [preceding, none_]
    cases d.nodes.length <;> rfl
  · have enough := enough_fuel crossed there
    obtain ⟨below, _⟩ := List.getElem?_eq_some_iff.mp child
    have length : (q.children.take k).length = k := by
      rw [List.length_take]
      omega
    -- Item `m` of the reversed list is item `k - 1 - m` of the children.
    have item (m : Nat) : (q.children.take k).reverse[m]? =
        if m < k then q.children[k - 1 - m]? else none := by
      by_cases inside : m < k
      · rw [if_pos inside, List.getElem?_reverse (by omega), length,
          List.getElem?_take_of_lt (by omega)]
      · rw [if_neg inside, List.getElem?_eq_none (by rw [List.length_reverse]; omega)]
    rw [preceding, all, place]
    refine skipUnnamed_reads (fun m x listed => ?_) (fun x member => ?_)
      (by rw [List.length_reverse]; omega)
    · rw [item] at listed ⊢
      split at listed
      · next inside =>
        rw [previousSibling_read crossed there listed]
        by_cases last : k - 1 - m = 0
        · rw [if_pos last, if_neg (by omega)]
        · have index : k - 1 - m - 1 = k - 1 - (m + 1) := by omega
          rw [if_neg last, if_pos (by omega), index]
      · cases listed
    · exact child_isNamed crossed there x (List.mem_of_mem_take (List.mem_reverse.mp member))

/-! ### Fields -/

private theorem fieldName_read {i : Nat} {e : Entry} (found : (entries t)[i]? = some e) :
    NativeNode.fieldName d i = .ok (e.fieldName g) := by
  obtain ⟨links, row⟩ := finish_row crossed.nodes (rowsOf_get found)
  have field : (toRow e).field = e.info.field.elim 0 Subtype.val := rfl
  rw [NativeNode.fieldName, row.field, reads_bind, crossed.names, field, Entry.fieldName]
  cases e.info.field with
  | none => rfl
  | some f =>
    rw [Option.elim_some, if_neg f.property, fieldTable_get crossed.named f.property]
    rfl

omit crossed in
private theorem extra_at (rows : List Row) {i k : Nat} {r : Row} {f : UInt16}
    (found : rows[i]? = some r) (listed : r.extra_fields[k]? = some f) :
    (rows.flatMap Row.extra_fields)[extraOffset rows i + k]? = some f := by
  induction rows generalizing i with
  | nil => cases found
  | cons first rows ih =>
    cases i with
    | zero =>
      cases found
      obtain ⟨below, _⟩ := List.getElem?_eq_some_iff.mp listed
      have start : extraOffset (r :: rows) 0 = 0 := rfl
      rw [start, Nat.zero_add, List.flatMap_cons, List.getElem?_append_left below]
      exact listed
    | succ i =>
      have skip : extraOffset (first :: rows) (i + 1) =
          first.extra_fields.length + extraOffset rows i := by
        simp [extraOffset]
      rw [skip, Nat.add_assoc, List.flatMap_cons, List.getElem?_append_right (by omega),
        Nat.add_sub_cancel_left]
      exact ih found

omit crossed in
private theorem extraOffset_le (fits : Fits t) (i : Nat) : extraOffset (rowsOf t) i < 2 ^ 32 := by
  have all := fits.allExtras
  have lengths : (rowsOf t).map (fun r => r.extra_fields.length) =
      (entries t).map fun e => e.info.extra_fields.length := by
    rw [rowsOf, List.map_map]
    apply List.map_congr_left
    intro e _
    exact List.length_map _
  have split : (((rowsOf t).map fun r => r.extra_fields.length).take i).sum +
      (((rowsOf t).map fun r => r.extra_fields.length).drop i).sum =
        ((rowsOf t).map fun r => r.extra_fields.length).sum := by
    rw [← List.sum_append, List.take_append_drop]
  rw [extraOffset, List.map_take]
  rw [lengths] at split ⊢
  omega

private theorem extraFields_read {i : Nat} {e : Entry} (found : (entries t)[i]? = some e) :
    NativeNode.extraFields d i = .ok (e.info.extra_fields.map Subtype.val) := by
  obtain ⟨links, row⟩ := finish_row crossed.nodes (rowsOf_get found)
  have few := crossed.fits.extras e (List.mem_of_getElem? found)
  have length : (toRow e).extra_fields.length = e.info.extra_fields.length := List.length_map _
  have count : (UInt16.ofNat (toRow e).extra_fields.length).toNat =
      (toRow e).extra_fields.length := UInt16.toNat_ofNat_of_lt' (by rw [length]; exact few)
  have read : ∀ k f, (toRow e).extra_fields[k]? = some f → readUInt16LE d.fields
      (((UInt32.ofNat (extraOffset (rowsOf t) i)).toNat + (0 + k)) * 2) = .ok f := by
    intro k f listed
    rw [toNat_ofNat (extraOffset_le crossed.fits i), Nat.zero_add]
    exact finish_extra crossed.fields (extra_at _ (rowsOf_get found) listed)
  rw [NativeNode.extraFields, row.extraFieldCount, reads_bind]
  by_cases none_ : UInt16.ofNat (toRow e).extra_fields.length = 0
  · rw [none_] at count
    have empty : (toRow e).extra_fields = [] := List.length_eq_zero_iff.mp count.symm
    rw [if_pos none_, ← toRow_extra_fields, empty]
    rfl
  · rw [if_neg none_, row.extraFieldsOff, reads_bind, count, List.range_eq_range']
    exact mapM_reads read

omit crossed in
private theorem truthy_named (named : g.Named) {f : UInt16} :
    NativeNode.truthy (g.fieldName f) = (g.fieldName f).toList := by
  rw [NativeNode.truthy]
  cases found : g.fieldName f with
  | none => rfl
  | some s => simp [fieldName_ne_empty named found]

private theorem extraName {f : {f : UInt16 // f ≠ 0}} :
    d.fields_[f.val.toNat]? = g.fieldName f := by
  rw [crossed.names, fieldTable_get crossed.named f.property]

private theorem fieldNames_read {i : Nat} {e : Entry} (found : (entries t)[i]? = some e) :
    NativeNode.fieldNames d i = .ok (e.fieldNames g) := by
  have primary : NativeNode.truthy (e.fieldName g) = (e.fieldName g).toList := by
    rw [Entry.fieldName]
    cases e.info.field with
    | none => rfl
    | some f => exact truthy_named crossed.named
  have extra : (e.info.extra_fields.map Subtype.val).flatMap
      (fun f => NativeNode.truthy d.fields_[f.toNat]?) = e.info.extra_fields.filterMap
        fun f => g.fieldName f.val := by
    induction e.info.extra_fields with
    | nil => rfl
    | cons f fs ih =>
      rw [List.map_cons, List.flatMap_cons, ih, extraName crossed, truthy_named crossed.named,
        List.filterMap_cons]
      cases g.fieldName f <;> rfl
  rw [NativeNode.fieldNames, fieldName_read crossed found, reads_bind,
    extraFields_read crossed found, reads_bind, primary, extra]
  rfl

private theorem hasField_read {i : Nat} {e : Entry} (found : (entries t)[i]? = some e)
    (name : String) : NativeNode.hasField d name i = .ok (carries g (entries t) name i) := by
  have extra : (e.info.extra_fields.map Subtype.val).any
      (fun f => d.fields_[f.toNat]? = some name) =
        decide (name ∈ e.info.extra_fields.filterMap fun f => g.fieldName f.val) := by
    rw [List.any_map, Bool.eq_iff_iff, List.any_eq_true, decide_eq_true_iff, List.mem_filterMap]
    simp only [Function.comp_apply, decide_eq_true_iff, extraName crossed]
  rw [NativeNode.hasField, fieldName_read crossed found, reads_bind, carries, found,
    Option.any_some, Entry.fieldNames]
  by_cases primary : e.fieldName g = some name
  · simp [primary]
  · rw [if_neg primary, extraFields_read crossed found, reads_bind, extra]
    have absent : name ∉ (e.fieldName g).toList := by
      rw [Option.mem_toList]
      exact primary
    simp [absent]

private theorem childForFieldName_read {i : Nat} {e : Entry} (found : (entries t)[i]? = some e)
    (name : String) : NativeNode.childForFieldName d i name =
      .ok (e.children.find? (carries g (entries t) name)) := by
  rw [NativeNode.childForFieldName, childCount_read crossed found, reads_bind,
    List.range_eq_range']
  apply childForFieldFrom_reads
  · intro k x child
    rw [Nat.zero_add]
    exact childAt_read crossed found child
  · intro x member
    obtain ⟨k, child⟩ := List.getElem?_of_mem member
    obtain ⟨c, there, -, -⟩ := entries_child_iff found child
    exact hasField_read crossed there name

private theorem child_fieldName {i : Nat} {e : Entry} (found : (entries t)[i]? = some e) :
    ∀ j ∈ e.children, NativeNode.fieldName d j = .ok (fieldAt g (entries t) j) := by
  intro j member
  obtain ⟨k, child⟩ := List.getElem?_of_mem member
  obtain ⟨c, there, -, -⟩ := entries_child_iff found child
  rw [fieldName_read crossed there, fieldAt, there]
  rfl

private theorem childrenForFieldName_read {i : Nat} {e : Entry}
    (found : (entries t)[i]? = some e) (name : String) :
    NativeNode.childrenForFieldName d i name =
      .ok (e.children.filter fun c => fieldAt g (entries t) c = some name) := by
  rw [NativeNode.childrenForFieldName, children_read crossed found, reads_bind]
  apply filterM_reads
  intro c member
  rw [child_fieldName crossed found c member]
  rfl

omit crossed in
private theorem mem_itemAt {l : List Nat} {k : Int} {c : Nat} (item : itemAt l k = some c) :
    c ∈ l := by
  rw [itemAt] at item
  split at item
  · cases item
  · exact List.mem_of_getElem? item

private theorem fieldNameForChild_read {i : Nat} {e : Entry} (found : (entries t)[i]? = some e)
    (k : Int) : NativeNode.fieldNameForChild d i k =
      .ok ((itemAt e.children k).bind (fieldAt g (entries t))) := by
  rw [NativeNode.fieldNameForChild, child_read crossed found, reads_bind]
  cases item : itemAt e.children k with
  | none => rfl
  | some c => exact child_fieldName crossed found c (mem_itemAt item)

private theorem fieldNameForNamedChild_read {i : Nat} {e : Entry}
    (found : (entries t)[i]? = some e) (k : Int) : NativeNode.fieldNameForNamedChild d i k =
      .ok ((itemAt (e.children.filter (namedAt (entries t))) k).bind (fieldAt g (entries t))) := by
  rw [NativeNode.fieldNameForNamedChild, namedChild_read crossed found, reads_bind]
  cases item : itemAt (e.children.filter (namedAt (entries t))) k with
  | none => rfl
  | some c => exact child_fieldName crossed found c (List.mem_filter.mp (mem_itemAt item)).1

private theorem type_read {i : Nat} {e : Entry} (found : (entries t)[i]? = some e) :
    NativeNode.type d i = .ok (g.typeName e.info.kind) := by
  obtain ⟨links, row⟩ := finish_row crossed.nodes (rowsOf_get found)
  have name : g.kindTable[e.info.kind.toNat]?.getD "" =
      g.kinds[e.info.kind.toNat]?.join.getD "" := by
    rw [Grammar.kindTable, List.getElem?_map]
    rcases g.kinds[e.info.kind.toNat]? with _ | _ | s <;> rfl
  rw [NativeNode.type, row.kind, reads_bind, crossed.kinds, Grammar.typeName, toRow, name]
  rfl

private theorem parent_inverse {i c : Nat} {e : Entry} (found : (entries t)[i]? = some e)
    (below : c < (entries t).length) :
    NativeNode.parent d c = .ok (some i) ↔ ∃ k, NativeNode.child d i k = .ok (some c) := by
  have there := List.getElem?_eq_getElem below
  rw [parent_read crossed there]
  constructor
  · intro parent
    obtain ⟨q, k, atParent, child⟩ := entries_parent_child there (Except.ok.inj parent)
    have same : q = e := Option.some.inj (atParent.symm.trans found)
    refine ⟨k, ?_⟩
    rw [child_read crossed found, itemAt, if_neg (by omega), ← same]
    exact congrArg Except.ok child
  · rintro ⟨k, child⟩
    rw [child_read crossed found] at child
    obtain ⟨j, item⟩ := List.getElem?_of_mem (mem_itemAt (Except.ok.inj child))
    obtain ⟨q, atChild, parent, -⟩ := entries_child_iff found item
    have same : q = (entries t)[c] := Option.some.inj (atChild.symm.trans there)
    rw [← same, parent]

private theorem readsBack {i : Nat} {e : Entry} (found : (entries t)[i]? = some e) :
    ReadsBack g d (entries t) i e := by
  obtain ⟨links, row⟩ := finish_row crossed.nodes (rowsOf_get found)
  obtain ⟨named, error, missing⟩ := flagsOf_test e.info
  have startIndex : NativeNode.startIndex d i = .ok e.info.start_idx := row.startIndex
  have endIndex : NativeNode.endIndex d i = .ok e.info.end_idx := row.endIndex
  exact {
    type := type_read crossed found
    isNamed := by rw [NativeNode.isNamed, flag_read crossed found, named]
    hasError := by rw [NativeNode.hasError, flag_read crossed found, error]
    isMissing := by rw [NativeNode.isMissing, flag_read crossed found, missing]
    startIndex, endIndex
    startPosition := by
      rw [NativeNode.startPosition, row.startRow, reads_bind, row.startCol]
      rfl
    endPosition := by
      rw [NativeNode.endPosition, row.endRow, reads_bind, row.endCol]
      rfl
    text := by
      rw [NativeNode.text, startIndex, reads_bind, endIndex]
      rfl
    parent := parent_read crossed found
    children := children_read crossed found
    childCount := childCount_read crossed found
    child := child_read crossed found
    inverse := fun c below => parent_inverse crossed found below
    firstChild := by
      rw [NativeNode.firstChild, child_read crossed found, List.head?_eq_getElem?]
      rfl
    lastChild := by
      rw [NativeNode.lastChild, childCount_read crossed found, reads_bind,
        child_read crossed found, List.getLast?_eq_getElem?, itemAt]
      cases e.children with
      | nil => rfl
      | cons c cs =>
        have index : (((c :: cs).length : Int) - 1).toNat = (c :: cs).length - 1 := by
          rw [List.length_cons]
          omega
        rw [if_neg (by rw [List.length_cons]; omega), index]
    namedChildren := namedChildren_read crossed found
    namedChildCount := namedChildCount_read crossed found
    namedChild := namedChild_read crossed found
    nextSibling := nextSibling_following crossed found
    previousSibling := previousSibling_preceding crossed found
    nextNamedSibling := nextNamedSibling_following crossed found
    previousNamedSibling := previousNamedSibling_preceding crossed found
    fieldNames := fieldNames_read crossed found
    childForFieldName := childForFieldName_read crossed found
    childrenForFieldName := childrenForFieldName_read crossed found
    fieldNameForChild := fieldNameForChild_read crossed found
    fieldNameForNamedChild := fieldNameForNamedChild_read crossed found }

end Crossed

end Reads

/-- Every node of a tree that fits the row format is read back as it was written, and the name tables
give every kind and every field its own name. -/
theorem parseNativeTree_finish {g : Grammar} {t : CstTree} (named : g.Named) (fits : Fits t)
    (root_has_error : Bool) (source : JsString) :
    let d := parseNativeTree source (tree_names g) (finish (rowsOf t) root_has_error)
    (∀ i e, (entries t)[i]? = some e → ReadsBack g d (entries t) i e) ∧
      d.source = source ∧ d.kinds = g.kindTable ∧ d.fields_ = g.fieldTable := by
  have tables := namesFor_tree_names named
  have kinds := congrArg Prod.fst tables
  have fields := congrArg Prod.snd tables
  have crossed : Crossed g t root_has_error
      (parseNativeTree source (tree_names g) (finish (rowsOf t) root_has_error)) :=
    ⟨named, fits, rfl, rfl, rfl, kinds, fields⟩
  exact ⟨fun i e found => readsBack crossed found, rfl, kinds, fields⟩

/-! ### A call, and a node with too many fields -/

private def plain (kind : UInt16) (field : Option {f : UInt16 // f ≠ 0})
    (extra_fields : List {f : UInt16 // f ≠ 0}) : NodeInfo where
  kind := kind
  isNamed := true
  hasError := false
  isMissing := false
  field := field
  start_byte := 0
  end_byte := 3
  start_row := 0
  start_col := 0
  end_row := 0
  end_col := 3
  start_idx := 0
  end_idx := 3
  extra_fields := extra_fields

private def callGrammar : Grammar where
  kinds := [some "end", some "call", some "identifier", none]
  fields := [some "function", some "arguments"]

private theorem callGrammar_named : callGrammar.Named where
  kindIds := by decide
  fieldIds := by decide
  kindNames := by decide
  fieldNames := by
    intro name member
    simp only [callGrammar, List.mem_cons, List.not_mem_nil, or_false] at member
    rcases member with rfl | rfl
    · exact ⟨"function", rfl, by decide, by decide⟩
    · exact ⟨"arguments", rfl, by decide, by decide⟩

private def callTree : CstTree :=
  .node (plain 1 none [])
    [.node (plain 2 (some ⟨1, by decide⟩) []) [], .node (plain 3 none [⟨2, by decide⟩]) []]

/-- The arguments have their field through a hidden rule only. -/
theorem parseNativeTree_finish_call :
    NativeNode.childForFieldName (parseNativeTree [] (tree_names callGrammar)
      (finish (rowsOf callTree) false)) 0 "arguments" = .ok (some 2) := by
  have fits : Fits callTree := ⟨by decide, by decide, by decide⟩
  exact ((parseNativeTree_finish callGrammar_named fits false []).1 0 _ rfl).childForFieldName
    "arguments"

private theorem uncounted_fieldNames {d : TreeData} {info : NodeInfo} (root_has_error : Bool)
    (nodes : d.nodes = (finish (rowsOf (.node info [])) root_has_error).nodes)
    (field : info.field = none) (wraps : UInt16.ofNat info.extra_fields.length = 0) :
    NativeNode.fieldNames d 0 = .ok [] := by
  have found : (rowsOf (.node info []))[0]? = some (toRow ⟨info, none, []⟩) := rfl
  obtain ⟨links, row⟩ := finish_row nodes found
  have none_ : NativeNode.u16 d 0 ROW.extraFieldCount = .ok 0 := by
    rw [row.extraFieldCount, toRow_extra_fields, List.length_map, wraps]
  have absent : NativeNode.u16 d 0 ROW.field = .ok 0 := by
    rw [row.field, toRow, field]
    rfl
  rw [NativeNode.fieldNames, NativeNode.fieldName, absent, reads_bind, NativeNode.extraFields, none_]
  rfl

private def crowded (n : Nat) : NodeInfo := plain 1 none (List.replicate n ⟨1, by decide⟩)

private theorem length_crowded_fieldNames (n : Nat) (parent : Option Nat) (children : List Nat) :
    (Entry.fieldNames callGrammar ⟨crowded n, parent, children⟩).length = n := by
  have names : (List.replicate n (⟨1, by decide⟩ : {f : UInt16 // f ≠ 0})).filterMap
      (fun f => callGrammar.fieldName f.val) = List.replicate n "function" :=
    List.filterMap_replicate_of_some rfl
  have field : (crowded n).field = none := rfl
  have extra : (crowded n).extra_fields = List.replicate n ⟨1, by decide⟩ := rfl
  rw [Entry.fieldNames, Entry.fieldName, field, extra, names]
  simp

/-- A node's 2 ^ 16 extra fields are counted as none. -/
theorem parseNativeTree_finish_loses : ¬ ∀ (g : Grammar) (t : CstTree) (root_has_error : Bool)
    (source : JsString), g.Named → ∀ i e, (entries t)[i]? = some e →
      ReadsBack g (parseNativeTree source (tree_names g) (finish (rowsOf t) root_has_error))
        (entries t) i e := by
  intro faithful
  have wraps : UInt16.ofNat (crowded (2 ^ 16)).extra_fields.length = 0 := by
    have length : (crowded (2 ^ 16)).extra_fields.length = 2 ^ 16 := List.length_replicate
    rw [length]
    rfl
  have back := (faithful callGrammar (.node (crowded (2 ^ 16)) []) false [] callGrammar_named 0
    ⟨crowded (2 ^ 16), none, []⟩ rfl).fieldNames
  have uncounted := uncounted_fieldNames false (d := parseNativeTree [] (tree_names callGrammar)
    (finish (rowsOf (.node (crowded (2 ^ 16)) [])) false)) rfl rfl wraps
  rw [uncounted] at back
  have lengths := congrArg List.length (Except.ok.inj back)
  rw [length_crowded_fieldNames] at lengths
  exact absurd lengths (by decide)

end CodeGraph.Kernel.Tree
