import CodeGraph.Db.NameSubstringExact

/-!
# The rows that the index answers with

What the build records of the rows, and the answer as a query over them: the rows of the kinds whose
name matches, in the order of the query, cut to its limit.
-/
namespace CodeGraph.Db.NameSubstring

open Text Utf16 PrefixCodes CharOffsets InsertionMap Buckets

instance (pattern name : String) : Decidable (Contains pattern name) :=
  decidable_of_iff (∃ after ∈ name.toList.tails, BeginsWith pattern.toList after) (by
    simp only [List.mem_tails, Contains]
    constructor
    · rintro ⟨after, ⟨before, split⟩, here⟩
      exact ⟨before, after, split.symm, here⟩
    · rintro ⟨before, after, split, here⟩
      exact ⟨after, ⟨before, split.symm⟩, here⟩)

instance (pattern name : String) : Decidable (StartsWith pattern name) :=
  inferInstanceAs (Decidable (BeginsWith pattern.toList name.toList))

def Selects (substring : String) (kinds : List String) (excludePrefix : Bool) (row : Row) : Prop :=
  row.kind ∈ kinds ∧ Contains substring row.name ∧
    ¬(excludePrefix = true ∧ StartsWith substring row.name)

instance (substring : String) (kinds : List String) (excludePrefix : Bool) (row : Row) :
    Decidable (Selects substring kinds excludePrefix row) :=
  inferInstanceAs (Decidable (_ ∧ _ ∧ ¬(_ ∧ _)))

def Row.Before (a b : Row) : Prop :=
  a.name.length < b.name.length ∨ a.name.length = b.name.length ∧
    (a.kind < b.kind ∨ a.kind = b.kind ∧ a.rowid ≤ b.rowid)

private theorem code_of_mem {kind : String} (held : kind ∈ NAME_SUBSTRING_KINDS) :
    NAME_SUBSTRING_KINDS.idxOf? kind = some (NAME_SUBSTRING_KINDS.idxOf kind) := by
  rw [List.idxOf_eq_getD_idxOf?]
  cases found : NAME_SUBSTRING_KINDS.idxOf? kind with
  | none => exact absurd held (List.idxOf?_eq_none_iff.mp found)
  | some code => rfl

private theorem code_lt_iff {a b : String} (first : a ∈ NAME_SUBSTRING_KINDS)
    (second : b ∈ NAME_SUBSTRING_KINDS) :
    NAME_SUBSTRING_KINDS.idxOf a < NAME_SUBSTRING_KINDS.idxOf b ↔ a < b := by
  have all : ∀ a ∈ NAME_SUBSTRING_KINDS, ∀ b ∈ NAME_SUBSTRING_KINDS,
      NAME_SUBSTRING_KINDS.idxOf a < NAME_SUBSTRING_KINDS.idxOf b ↔ a < b := by decide
  exact all a first b second

private theorem code_inj {a b : String} (first : a ∈ NAME_SUBSTRING_KINDS)
    (same : NAME_SUBSTRING_KINDS.idxOf a = NAME_SUBSTRING_KINDS.idxOf b) : a = b :=
  (List.idxOf_inj first).mp same

structure Built (b : Building) (rows : List Row) (names : List (List Char)) : Prop where
  nameIds : b.nameIds = b.names.zipIdx
  texts : b.names = names.map (·.flatMap charUnits)
  rowids : b.rowids = rows.map (·.rowid)
  kinds : b.kinds = rows.map fun row => NAME_SUBSTRING_KINDS.idxOf row.kind
  lengths : b.lengths = rows.map (·.name.length)
  nameOf : b.nameOf.map (names[·]?) = rows.map fun row => some (lowered row.name)

private theorem sqliteLength_utf16 (s : String) : sqliteLength (utf16 s) = s.length := by
  have total : ∀ text : JsString, pairs text + (codePoints text).length = text.length := by
    intro text
    induction text using codePoints.induct with
    | case1 => rfl
    | case2 u => rfl
    | case3 u v s pair ih =>
      rw [pairs, codePoints, if_pos pair, if_pos pair, List.length_cons, List.length_cons,
        List.length_cons]
      omega
    | case4 u v s alone ih =>
      rw [pairs, codePoints, if_neg alone, if_neg alone, List.length_cons, List.length_cons]
      omega
  have here := total (utf16 s)
  rw [sqliteLength, ← here, Nat.add_sub_cancel_left, utf16, codePoints_flatMap, List.length_map,
    String.length_toList]

private theorem idFor_spec {b : Building} {rows : List Row} {names : List (List Char)}
    (built : Built b rows names) (name : List Char) :
    ∃ names', Built (b.idFor (name.flatMap charUnits)).2 rows names' ∧
      names'[(b.idFor (name.flatMap charUnits)).1]? = some name := by
  have injective : Function.Injective fun name : List Char => name.flatMap charUnits := by
    intro left right same
    have word : left.map charUnits = right.map charUnits := by
      rw [← codePoints_flatMap, ← codePoints_flatMap]
      exact congrArg codePoints same
    exact List.map_injective_iff.mpr (fun _ _ => charUnits_injective) word
  rw [Building.idFor]
  split
  next id found =>
    refine ⟨names, built, ?_⟩
    have listed := mem_of_lookup found
    rw [built.nameIds] at listed
    have here := List.mk_mem_zipIdx_iff_getElem?.mp listed
    rw [built.texts, List.getElem?_map] at here
    obtain ⟨other, there, same⟩ := Option.map_eq_some_iff.mp here
    rwa [injective same] at there
  next absent =>
    have keep : ∀ {id : Nat} {known : List Char}, names[id]? = some known →
        (names ++ [name])[id]? = some known := by
      intro id known there
      rw [List.getElem?_append_left (List.getElem?_eq_some_iff.mp there).1, there]
    refine ⟨names ++ [name], ?_, ?_⟩
    · constructor
      · dsimp only
        rw [assign_absent (lookup_none.mp absent), built.nameIds, List.zipIdx_append]
        simp
      · simp [built.texts]
      · exact built.rowids
      · exact built.kinds
      · exact built.lengths
      · rw [← built.nameOf]
        apply List.map_congr_left
        intro id listed
        have mapped : names[id]? ∈ rows.map fun row => some (lowered row.name) := by
          rw [← built.nameOf]
          exact List.mem_map_of_mem listed
        obtain ⟨row, _, there⟩ := List.mem_map.mp mapped
        rw [← there, keep there.symm]
    · simp [built.texts]

private theorem addRow_spec {b : Building} {rows : List Row} {names : List (List Char)}
    (built : Built b rows names) {row : Row} (plain : '\x00' ∉ row.name.toList) :
    ∃ b' names', b.addRow row = some b' ∧
      Built b' (rows ++ if row.kind ∈ NAME_SUBSTRING_KINDS then [row] else []) names' := by
  rw [Building.addRow]
  by_cases held : row.kind ∈ NAME_SUBSTRING_KINDS
  · obtain ⟨names', kept, placed⟩ := idFor_spec built (lowered row.name)
    have clean : ¬((lowered row.name).flatMap charUnits).contains SEPARATOR = true := by
      rw [List.contains_iff_mem, mem_flatMap_charUnits (u := SEPARATOR) (d := '\x00') rfl (by decide),
        mem_lowered (by decide)]
      exact plain
    rw [code_of_mem held, if_pos held]
    simp only [asciiLower_utf16, if_neg clean]
    refine ⟨_, names', rfl, kept.nameIds, kept.texts, ?_, ?_, ?_, ?_⟩
    · simp [kept.rowids]
    · simp [kept.kinds]
    · simp [kept.lengths, sqliteLength_utf16]
    · simp [kept.nameOf, placed]
  · rw [List.idxOf?_eq_none_iff.mpr held, if_neg held, List.append_nil]
    exact ⟨b, names, rfl, built⟩

private theorem addRows_spec {rows : List Row} (plain : ∀ row ∈ rows, '\x00' ∉ row.name.toList)
    {b : Building} {earlier : List Row} {names : List (List Char)} (built : Built b earlier names) :
    ∃ b' names', rows.foldlM Building.addRow b = some b' ∧
      Built b' (earlier ++ rows.filter (·.kind ∈ NAME_SUBSTRING_KINDS)) names' := by
  induction rows generalizing b earlier names with
  | nil => exact ⟨b, names, rfl, by simpa using built⟩
  | cons row rows ih =>
    obtain ⟨b', names', added, next⟩ := addRow_spec built (plain row List.mem_cons_self)
    obtain ⟨last, names'', rest, all⟩ :=
      ih (fun other listed => plain other (List.mem_cons_of_mem row listed)) next
    refine ⟨last, names'', by rw [List.foldlM_cons, added]; exact rest, ?_⟩
    by_cases held : row.kind ∈ NAME_SUBSTRING_KINDS
    · simpa [held] using all
    · simpa [held] using all

private theorem wanted_spec {index : NameSubstringIndex} (held : index.kinds = NAME_SUBSTRING_KINDS)
    {kinds : List String} (known : ∀ kind ∈ kinds, kind ∈ NAME_SUBSTRING_KINDS) :
    ∃ table, index.wanted kinds = some table ∧ ∀ kind ∈ NAME_SUBSTRING_KINDS,
      table.getD (NAME_SUBSTRING_KINDS.idxOf kind) false = true ↔ kind ∈ kinds := by
  have run : ∀ start : List Bool, start.length = NAME_SUBSTRING_KINDS.length →
      ∃ table, kinds.foldlM (fun table kind =>
          (NAME_SUBSTRING_KINDS.idxOf? kind).map fun code => table.set code true) start = some table ∧
        ∀ kind ∈ NAME_SUBSTRING_KINDS, table.getD (NAME_SUBSTRING_KINDS.idxOf kind) false = true ↔
          start.getD (NAME_SUBSTRING_KINDS.idxOf kind) false = true ∨ kind ∈ kinds := by
    induction kinds with
    | nil => exact fun start _ => ⟨start, rfl, fun _ _ => by simp⟩
    | cons first kinds ih =>
      intro start size
      have here : first ∈ NAME_SUBSTRING_KINDS := known first List.mem_cons_self
      obtain ⟨table, rest, exact_⟩ := ih (fun kind listed => known kind (List.mem_cons_of_mem _ listed))
        (start.set (NAME_SUBSTRING_KINDS.idxOf first) true) (by rw [List.length_set, size])
      refine ⟨table, by rw [List.foldlM_cons, code_of_mem here]; exact rest, ?_⟩
      intro kind listed
      have inside : NAME_SUBSTRING_KINDS.idxOf kind < start.length := by
        rw [size]
        exact List.idxOf_lt_length_iff.mpr listed
      rw [exact_ kind listed, List.mem_cons, List.getD_eq_getElem?_getD, List.getElem?_set]
      by_cases same : NAME_SUBSTRING_KINDS.idxOf first = NAME_SUBSTRING_KINDS.idxOf kind
      · obtain rfl := code_inj here same
        simp [inside]
      · have other : kind ≠ first := fun equal => same (equal ▸ rfl)
        simp [same, other]
  obtain ⟨table, built, exact_⟩ := run (List.replicate NAME_SUBSTRING_KINDS.length false)
    List.length_replicate
  refine ⟨table, by rw [NameSubstringIndex.wanted, held]; exact built, fun kind listed => ?_⟩
  have unset : (List.replicate NAME_SUBSTRING_KINDS.length false).getD
      (NAME_SUBSTRING_KINDS.idxOf kind) false = false := by
    rw [List.getD_eq_getElem?_getD, List.getElem?_replicate]
    split <;> rfl
  rw [exact_ kind listed, unset]
  simp

section Answer

variable {b : Building} {rows : List Row} {names : List (List Char)}

private theorem entry_of_row (built : Built b rows names) {e : Nat} {row : Row}
    (found : rows[e]? = some row) :
    b.rowids.getD e 0 = row.rowid ∧ b.kinds.getD e 0 = NAME_SUBSTRING_KINDS.idxOf row.kind ∧
      b.lengths.getD e 0 = row.name.length := by
  rw [built.rowids, built.kinds, built.lengths]
  simp [List.getD_eq_getElem?_getD, found]

private theorem name_of_row (built : Built b rows names) {e : Nat} {row : Row}
    (found : rows[e]? = some row) :
    ∃ id, b.nameOf[e]? = some id ∧ names[id]? = some (lowered row.name) := by
  have mapped := congrArg (·[e]?) built.nameOf
  simp only [List.getElem?_map, found, Option.map_some] at mapped
  obtain ⟨id, there, text⟩ := Option.map_eq_some_iff.mp mapped
  exact ⟨id, there, text⟩

private theorem length_nameOf (built : Built b rows names) : b.nameOf.length = rows.length := by
  have sizes := congrArg List.length built.nameOf
  rwa [List.length_map, List.length_map] at sizes

private theorem nameOf_lt (built : Built b rows names) : ∀ id ∈ b.nameOf, id < names.length := by
  intro id listed
  have mapped : names[id]? ∈ rows.map fun row => some (lowered row.name) := by
    rw [← built.nameOf]
    exact List.mem_map_of_mem listed
  obtain ⟨row, _, there⟩ := List.mem_map.mp mapped
  exact (List.getElem?_eq_some_iff.mp there.symm).1

private theorem entriesOf_eq (built : Built b rows names) (table : List Bool) {id : Nat}
    (within : id < names.length) :
    b.index.entriesOf table id = (bucket id 0 b.nameOf).filter fun e =>
      table.getD (b.kinds.getD e 0) false := by
  have size : b.names.length = names.length := by rw [built.texts, List.length_map]
  have slice := CountingSort.slice_eq (nameOf_lt built) within
  rw [← slice, NameSubstringIndex.entriesOf, Building.index, size]

private theorem hits_perm (built : Built b rows names) (ps : List Char) (excludePrefix : Bool)
    (table : List Bool) :
    (names.zipIdx.flatMap fun entry =>
        if isHit ps excludePrefix entry.1 then b.index.entriesOf table entry.2 else []).Perm
      ((List.range rows.length).filter fun e => rows[e]?.any fun row =>
        table.getD (NAME_SUBSTRING_KINDS.idxOf row.kind) false &&
          isHit ps excludePrefix (lowered row.name)) := by
  have inside : ∀ entry ∈ names.zipIdx, names[entry.2]? = some entry.1 := by
    rintro ⟨name, id⟩ listed
    exact List.mk_mem_zipIdx_iff_getElem?.mp listed
  have listed_iff : ∀ e entry, entry ∈ names.zipIdx →
      (e ∈ (if isHit ps excludePrefix entry.1 then b.index.entriesOf table entry.2 else []) ↔
        isHit ps excludePrefix entry.1 = true ∧ b.nameOf[e]? = some entry.2 ∧
          table.getD (b.kinds.getD e 0) false = true) := by
    intro e entry listed
    have within := (List.getElem?_eq_some_iff.mp (inside entry listed)).1
    rw [entriesOf_eq built table within]
    split
    next hit => simp [hit, mem_bucket]
    next miss => simp [miss]
  rw [List.perm_ext_iff_of_nodup]
  · intro e
    rw [List.mem_flatMap, List.mem_filter, List.mem_range]
    constructor
    · rintro ⟨entry, listed, member⟩
      obtain ⟨hit, named, wanted⟩ := (listed_iff e entry listed).mp member
      have less : e < rows.length := by
        rw [← length_nameOf built]
        exact (List.getElem?_eq_some_iff.mp named).1
      have found := List.getElem?_eq_getElem less
      obtain ⟨id, named', text⟩ := name_of_row built found
      obtain rfl := Option.some.inj (named'.symm.trans named)
      have same := Option.some.inj ((inside entry listed).symm.trans text)
      rw [(entry_of_row built found).2.1] at wanted
      rw [same] at hit
      refine ⟨less, ?_⟩
      rw [found, Option.any_some, wanted, hit]
      rfl
    · rintro ⟨less, passes⟩
      have found := List.getElem?_eq_getElem less
      rw [found, Option.any_some, Bool.and_eq_true] at passes
      obtain ⟨id, named, text⟩ := name_of_row built found
      have listed := List.mk_mem_zipIdx_iff_getElem?.mpr text
      refine ⟨_, listed, (listed_iff e _ listed).mpr ⟨passes.2, named, ?_⟩⟩
      rw [(entry_of_row built found).2.1]
      exact passes.1
  · rw [List.nodup_flatMap]
    constructor
    · intro entry listed
      have within := (List.getElem?_eq_some_iff.mp (inside entry listed)).1
      rw [entriesOf_eq built table within]
      split
      next => exact (bucket_nodup _ _ _).filter _
      next => exact List.nodup_nil
    · have distinct : names.zipIdx.Pairwise fun left right => left.2 ≠ right.2 := by
        rw [← List.pairwise_map, List.zipIdx_map_snd]
        exact List.nodup_range'
      refine distinct.imp_of_mem fun first second apart => ?_
      intro e left right
      have one := ((listed_iff e _ first).mp left).2.1
      have two := ((listed_iff e _ second).mp right).2.1
      exact apart (Option.some.inj (one.symm.trans two))
  · exact List.nodup_range.filter _

/-! ### The answer -/

private theorem compare_le (index : NameSubstringIndex) (a b : Nat) :
    index.compare a b ≤ 0 ↔
      index.entryLength.getD a 0 < index.entryLength.getD b 0 ∨
        index.entryLength.getD a 0 = index.entryLength.getD b 0 ∧
          (index.entryKind.getD a 0 < index.entryKind.getD b 0 ∨
            index.entryKind.getD a 0 = index.entryKind.getD b 0 ∧
              index.entryRowid.getD a 0 ≤ index.entryRowid.getD b 0) := by
  simp only [NameSubstringIndex.compare]
  split
  · omega
  · split <;> omega

private theorem compare_row (built : Built b rows names)
    (known : ∀ row ∈ rows, row.kind ∈ NAME_SUBSTRING_KINDS) {e f : Nat} {row other : Row}
    (first : rows[e]? = some row) (second : rows[f]? = some other) :
    b.index.compare e f ≤ 0 ↔ row.Before other := by
  obtain ⟨id, kind, length⟩ := entry_of_row built first
  obtain ⟨id', kind', length'⟩ := entry_of_row built second
  have one := known row (List.mem_of_getElem? first)
  have two := known other (List.mem_of_getElem? second)
  have fields : b.index.entryLength = b.lengths ∧ b.index.entryKind = b.kinds ∧
      b.index.entryRowid = b.rowids := ⟨rfl, rfl, rfl⟩
  rw [compare_le, fields.1, fields.2.1, fields.2.2, id, id', kind, kind', length, length',
    Row.Before, code_lt_iff one two, List.idxOf_inj one]

private instance (index : NameSubstringIndex) :
    Std.Total fun a b : Nat => index.compare a b ≤ 0 where
  total a b := by
    rw [compare_le, compare_le]
    omega

private instance (index : NameSubstringIndex) :
    IsTrans Nat fun a b : Nat => index.compare a b ≤ 0 where
  trans a b c := by
    rw [compare_le, compare_le, compare_le]
    omega

private def rowAt (rows : List Row) (e : Nat) : Row := rows.getD e ⟨0, "", ""⟩

private theorem rowAt_eq {e : Nat} (less : e < rows.length) :
    rows[e]? = some (rowAt rows e) := by
  rw [rowAt, List.getD_eq_getElem?_getD, List.getElem?_eq_getElem less, Option.getD_some]

private theorem rows_of_entries (rows : List Row) (q : Row → Bool) :
    ((List.range rows.length).filter fun e => rows[e]?.any q).map (rowAt rows) = rows.filter q := by
  have all : (List.range rows.length).map (rowAt rows) = rows := by
    apply List.ext_getElem?
    intro e
    rcases Nat.lt_or_ge e rows.length with less | past
    · rw [List.getElem?_map, List.getElem?_range less, Option.map_some, rowAt_eq less]
    · rw [List.getElem?_eq_none past, List.getElem?_eq_none (by simpa using past)]
  have tests : (List.range rows.length).filter (fun e => rows[e]?.any q) =
      (List.range rows.length).filter (q ∘ rowAt rows) := by
    apply List.filter_congr
    intro e listed
    rw [rowAt_eq (List.mem_range.mp listed), Option.any_some]
    rfl
  rw [tests, ← List.filter_map, all]

private theorem answer_spec (built : Built b rows names)
    (known : ∀ row ∈ rows, row.kind ∈ NAME_SUBSTRING_KINDS) {q : Row → Bool} {hits : List Nat}
    (found : hits.Perm ((List.range rows.length).filter fun e => rows[e]?.any q)) :
    ∃ sorted : List Row, sorted.Perm (rows.filter q) ∧ sorted.Pairwise Row.Before ∧
      ∀ limit : Int, b.index.answer limit hits =
        (if 0 ≤ limit then sorted.take limit.toNat else sorted).map (·.rowid) := by
  have order : (hits.insertionSort fun a b_ => b.index.compare a b_ ≤ 0).Perm hits :=
    List.perm_insertionSort _ hits
  have inside : ∀ e ∈ hits.insertionSort fun a b_ => b.index.compare a b_ ≤ 0,
      e < rows.length := by
    intro e listed
    have passes := (order.trans found).mem_iff.mp listed
    exact List.mem_range.mp (List.mem_filter.mp passes).1
  refine ⟨(hits.insertionSort fun a b_ => b.index.compare a b_ ≤ 0).map (rowAt rows), ?_, ?_, ?_⟩
  · rw [← rows_of_entries]
    exact (order.trans found).map _
  · rw [List.pairwise_map]
    refine (List.pairwise_insertionSort _ hits).imp_of_mem ?_
    intro e f first second le
    exact (compare_row built known (rowAt_eq (inside e first)) (rowAt_eq (inside f second))).mp le
  · intro limit
    have ids : ∀ es : List Nat, (∀ e ∈ es, e < rows.length) →
        es.map (fun e => b.index.entryRowid.getD e 0) = (es.map (rowAt rows)).map (·.rowid) := by
      intro es within
      rw [List.map_map]
      apply List.map_congr_left
      intro e listed
      exact (entry_of_row built (rowAt_eq (within e listed))).1
    rw [NameSubstringIndex.answer]
    by_cases bounded : 0 ≤ limit
    · rw [if_pos bounded, ← List.map_take, ← ids _ fun e listed => inside e (List.mem_of_mem_take listed)]
      by_cases cut : limit < (hits.insertionSort fun a b_ => b.index.compare a b_ ≤ 0).length
      · rw [if_pos ⟨bounded, cut⟩]
      · rw [if_neg fun both => cut both.2, List.take_of_length_le (by omega)]
    · rw [if_neg bounded, if_neg fun both => bounded both.1, ids _ inside]

end Answer

private theorem isHit_lowered {substring : String} {excludePrefix : Bool} {row : Row}
    (plain : '\x00' ∉ row.name.toList) :
    isHit (lowered substring) excludePrefix (lowered row.name) =
      decide (Contains substring row.name ∧
        ¬(excludePrefix = true ∧ StartsWith substring row.name)) := by
  have contains : (firstFrom charUnits (matchesHead (lowered substring)) 0
      (lowered row.name)).isSome = true ↔ Contains substring row.name := by
    rw [firstFrom_isSome, lowered, lowered]
    constructor
    · rintro ⟨before, after, split, matched⟩
      obtain ⟨left, right, whole, rfl, rfl⟩ := List.map_eq_append_iff.mp split
      refine ⟨left, right, whole, (matchesHead_lowered fun listed => plain ?_).mp matched⟩
      rw [whole]
      exact List.mem_append_right _ listed
    · rintro ⟨before, after, split, begins⟩
      refine ⟨before.map Char.toLower, after.map Char.toLower, ?_, ?_⟩
      · rw [split, List.map_append]
      · refine (matchesHead_lowered fun listed => plain ?_).mpr begins
        rw [split]
        exact List.mem_append_right _ listed
  have starts : matchesHead (lowered substring) (lowered row.name) = true ↔
      StartsWith substring row.name := matchesHead_lowered plain
  rw [Bool.eq_iff_iff, isHit, Bool.and_eq_true, contains, decide_eq_true_eq, Bool.not_eq_true',
    Bool.and_eq_false_eq_eq_false_or_eq_false]
  apply and_congr_right
  intro _
  rw [← starts]
  cases excludePrefix <;> simp

/-- Over names without the separator the index is built, and it answers every search that it does
not leave to the database as the query does. -/
theorem searchNameSubstring_exact (rows : List Row)
    (plain : ∀ row ∈ rows, '\x00' ∉ row.name.toList) :
    ∃ index, buildNameSubstringIndex rows = some index ∧
      ∀ (substring : String) (kinds : List String) (excludePrefix : Bool), substring ≠ "" →
        '%' ∉ substring.toList → '\x00' ∉ substring.toList →
        (∀ kind ∈ kinds, kind ∈ NAME_SUBSTRING_KINDS) →
        ∃ sorted : List Row,
          sorted.Perm (rows.filter fun row => Selects substring kinds excludePrefix row) ∧
          sorted.Pairwise Row.Before ∧
          ∀ (limit : Int) (fuel : Nat), index.starts.length ≤ fuel →
            searchNameSubstring fuel index (utf16 substring) kinds excludePrefix limit =
              some (some ((if 0 ≤ limit then sorted.take limit.toNat else sorted).map (·.rowid))) := by
  have empty : Built Building.empty [] [] := ⟨rfl, rfl, rfl, rfl, rfl, rfl⟩
  obtain ⟨b, names, read, built⟩ := addRows_spec plain empty
  rw [List.nil_append] at built
  have known : ∀ row ∈ rows.filter (·.kind ∈ NAME_SUBSTRING_KINDS),
      row.kind ∈ NAME_SUBSTRING_KINDS := fun row listed => by simpa using (List.mem_filter.mp listed).2
  have holds : Holds b.index names := by
    constructor
    · rw [Building.index, built.texts]
    · rw [Building.index, built.texts]
  refine ⟨b.index, by rw [buildNameSubstringIndex, read]; rfl, ?_⟩
  intro substring kinds excludePrefix some_ tame clean held
  obtain ⟨table, wanted, exact_⟩ := wanted_spec (rfl : b.index.kinds = NAME_SUBSTRING_KINDS) held
  have pattern : lowered substring ≠ [] := by
    intro none_
    apply some_
    rw [lowered, List.map_eq_nil_iff] at none_
    exact String.toList_eq_nil_iff.mp none_
  have clean' : '\x00' ∉ lowered substring := fun listed => clean ((mem_lowered (by decide)).mp listed)
  have perm := hits_perm built (lowered substring) excludePrefix table
  obtain ⟨sorted, all, order, answer⟩ := answer_spec built known perm
  refine ⟨sorted, ?_, order, ?_⟩
  · -- The rows of other kinds are not read, and would not be selected.
    rw [List.filter_filter] at all
    have tests : (rows.filter fun row => Selects substring kinds excludePrefix row) =
        rows.filter fun row => (table.getD (NAME_SUBSTRING_KINDS.idxOf row.kind) false &&
          isHit (lowered substring) excludePrefix (lowered row.name)) &&
            decide (row.kind ∈ NAME_SUBSTRING_KINDS) := by
      apply List.filter_congr
      intro row listed
      rw [isHit_lowered (plain row listed), Bool.eq_iff_iff, decide_eq_true_eq, Selects]
      simp only [Bool.and_eq_true, decide_eq_true_eq]
      constructor
      · rintro ⟨kind, hit⟩
        exact ⟨⟨(exact_ _ (held _ kind)).mpr kind, hit⟩, held _ kind⟩
      · rintro ⟨⟨marked, hit⟩, inside⟩
        exact ⟨(exact_ _ inside).mp marked, hit⟩
    rw [tests]
    exact all
  · intro limit fuel enough
    have length : b.index.starts.length = names.length + 1 := by
      rw [holds.starts, startsFrom_eq, List.length_map, List.length_range]
    have finds := patternMatcher_finds pattern
    have first := next_eq holds finds pattern clean' 0
    have zero : startOf names 0 = 0 := rfl
    have hits := hitsFrom_eq holds finds pattern clean' table excludePrefix names List.drop_zero
      (show names.length < fuel by omega)
    rw [zero, List.drop_zero] at first
    rw [zero] at hits
    have accepted : ((asciiLower (utf16 substring)).isEmpty ||
        (asciiLower (utf16 substring)).contains percent ||
          (asciiLower (utf16 substring)).contains SEPARATOR) = false := by
      rw [asciiLower_utf16, Bool.or_eq_false_iff, Bool.or_eq_false_iff]
      refine ⟨⟨?_, ?_⟩, ?_⟩
      · rw [List.isEmpty_eq_false_iff]
        intro none_
        obtain ⟨c, cs, whole⟩ := List.exists_cons_of_ne_nil pattern
        rw [whole, List.flatMap_cons] at none_
        exact synchronous.nonempty c (List.append_eq_nil_iff.mp none_).1
      · rw [Bool.eq_false_iff, ne_eq, List.contains_iff_mem,
          mem_flatMap_charUnits (u := percent) (d := '%') rfl (by decide), mem_lowered (by decide)]
        exact tame
      · rw [Bool.eq_false_iff, ne_eq, List.contains_iff_mem,
          mem_flatMap_charUnits (u := SEPARATOR) (d := '\x00') rfl (by decide),
          mem_lowered (by decide)]
        exact clean
    rw [searchNameSubstring]
    simp only [accepted, wanted]
    rw [if_neg Bool.false_ne_true, asciiLower_utf16, first, hits, Option.map_some, answer]

/-- A search over two rows of one name and a third one, cut to two. -/
theorem searchNameSubstring_three :
    let rows : List Row := [⟨5, "method", "Foo"⟩, ⟨3, "class", "foo"⟩, ⟨9, "class", "xfo"⟩]
    ∃ index, buildNameSubstringIndex rows = some index ∧ ∃ sorted : List Row,
      sorted.Perm (rows.filter fun row => Selects "F_" ["class", "method"] true row) ∧
      sorted.Pairwise Row.Before ∧
      searchNameSubstring index.starts.length index (utf16 "F_") ["class", "method"] true 2 =
        some (some ((sorted.take 2).map (·.rowid))) := by
  obtain ⟨index, built, search⟩ := searchNameSubstring_exact
    [⟨5, "method", "Foo"⟩, ⟨3, "class", "foo"⟩, ⟨9, "class", "xfo"⟩] (by decide)
  obtain ⟨sorted, perm, order, answer⟩ := search "F_" ["class", "method"] true (by decide) (by decide)
    (by decide) (by decide)
  exact ⟨index, built, sorted, perm, order, answer 2 index.starts.length (Nat.le_refl _)⟩

/-- A pattern with the separator is not empty and has no percent sign, but is not answered. -/
theorem separator_not_answered :
    ∃ index, buildNameSubstringIndex [⟨1, "class", "a"⟩] = some index ∧ "\x00" ≠ "" ∧
      '%' ∉ "\x00".toList ∧ "class" ∈ NAME_SUBSTRING_KINDS ∧
      ∀ fuel, searchNameSubstring fuel index (utf16 "\x00") ["class"] false 5 = some none := by
  refine ⟨_, rfl, by decide, by decide, by decide, fun fuel => ?_⟩
  rfl

end CodeGraph.Db.NameSubstring
