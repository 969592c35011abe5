import CodeGraph.Foundation.FirstByKey
import CodeGraph.Foundation.LittleEndian
import CodeGraph.Foundation.Runs

/-!
# Candidate pairs of near-duplicate bodies

The banding of `graph/near-duplicates.ts`: rows of one table of signatures that agree on a band are
put in one bucket, and the pairs of the small buckets are considered.
-/
namespace CodeGraph.Graph.NearDuplicates

open LittleEndian

def HASHES : Nat := 64
def BANDS : Nat := 16
def ROWS : Nat := HASHES / BANDS
def BUCKET_CAP : Nat := 20

def sigBytes : Nat := HASHES * 4
def bandBytes : Nat := ROWS * 4

structure SignatureTable where
  rowids : List Nat
  sigs : List UInt8
  fits : sigs.length = rowids.length * sigBytes

def SignatureTable.count (t : SignatureTable) : Nat := t.rowids.length

variable (t : SignatureTable) (band : Fin BANDS)

def at_ (i : Nat) : Nat := i * sigBytes + band * bandBytes

def bandOf (i : Nat) : List UInt8 := (t.sigs.drop (at_ band i)).take bandBytes

/-! ### The buckets -/

/-- `sigs.readUInt32LE`, in range for the rows of the table. -/
def readUInt32LE (sigs : List UInt8) (off : Nat) : UInt32 := (readU32 sigs off).getD 0

def hash (i : Nat) : UInt32 :=
  [0, 4, 8, 12].foldl (fun h k => (h ^^^ readUInt32LE t.sigs (at_ band i + k)) * 0x01000193) 0x811c9dc5

/-- `Buffer.compare`. -/
def bufferCompare : List UInt8 → List UInt8 → Int
  | [], [] => 0
  | [], _ :: _ => -1
  | _ :: _, [] => 1
  | a :: as, b :: bs => if a < b then -1 else if b < a then 1 else bufferCompare as bs

/-- `sigs.compare` takes its target first and its source second. -/
def sameBand (a b : Nat) : Int := bufferCompare (bandOf t band b) (bandOf t band a)

def compareRows (a b : Nat) : Int :=
  let byHash : Int := (hash t band a).toNat - (hash t band b).toNat
  if byHash ≠ 0 then byHash
  else if sameBand t band a b ≠ 0 then sameBand t band a b
  else (a : Int) - b

def order : List Nat :=
  (List.range t.count).insertionSort fun a b => compareRows t band a b ≤ 0

/-- The slices of the order that `visit` is called with. -/
def forEachBandBucket : List (Nat × Nat) :=
  Runs.slices
    (fun a b => decide (hash t band a = hash t band b) && decide (sameBand t band a b = 0))
    (order t band)

def packed (slice : Nat × Nat) : List Nat :=
  if slice.2 - slice.1 < 2 ∨ slice.2 - slice.1 > BUCKET_CAP then []
  else
    (List.range' slice.1 (slice.2 - slice.1)).flatMap fun i =>
      (List.range' (i + 1) (slice.2 - (i + 1))).map fun j =>
        (order t band).getD i 0 * t.count + (order t band).getD j 0

/-- `candidates`: a set keeps the first of equal keys. -/
def candidates : List Nat :=
  ((List.finRange BANDS).flatMap fun band =>
    (forEachBandBucket t band).flatMap (packed t band)).eraseDups

def consideredPairs : List (Nat × Nat) :=
  (candidates t).map fun key => (key / t.count, key % t.count)

theorem bufferCompare_neg (a b : List UInt8) : bufferCompare b a = -bufferCompare a b := by
  induction a generalizing b with
  | nil => cases b <;> rfl
  | cons x a ih =>
    cases b with
    | nil => rfl
    | cons y b =>
      simp only [bufferCompare, ih b]
      by_cases less : x < y
      · have asymm : ¬y < x := UInt8.lt_asymm less
        simp [less, asymm]
      · by_cases more : y < x <;> simp [less, more]

theorem bufferCompare_eq (a b : List UInt8) : bufferCompare a b = 0 ↔ a = b := by
  induction a generalizing b with
  | nil => cases b <;> simp [bufferCompare]
  | cons x a ih =>
    cases b with
    | nil => simp [bufferCompare]
    | cons y b =>
      simp only [bufferCompare]
      by_cases less : x < y
      · simp [less, UInt8.ne_of_lt less]
      · by_cases more : y < x
        · simp [less, more, (UInt8.ne_of_lt more).symm]
        · have same : x = y := UInt8.le_antisymm (UInt8.not_lt.mp more) (UInt8.not_lt.mp less)
          simp [same, ih b]

theorem bufferCompare_trans {a b c : List UInt8} (ab : bufferCompare a b ≤ 0)
    (bc : bufferCompare b c ≤ 0) : bufferCompare a c ≤ 0 := by
  induction a generalizing b c with
  | nil => cases c <;> simp [bufferCompare]
  | cons x a ih =>
    cases b with
    | nil => simp [bufferCompare] at ab
    | cons y b =>
      cases c with
      | nil => simp [bufferCompare] at bc
      | cons z c =>
        simp only [bufferCompare, UInt8.lt_iff_toNat_lt] at ab bc ⊢
        split_ifs at ab bc ⊢ <;> first | omega | exact ih ab bc

/-! ### The order of the rows -/

variable {t} {band} {a b c : Nat}

private theorem compareRows_neg : compareRows t band b a = -compareRows t band a b := by
  have bytes : sameBand t band b a = -sameBand t band a b := bufferCompare_neg _ _
  simp only [compareRows, bytes]
  split_ifs <;> omega

/-- No row comes after one that is not greater: by hash, then by the bytes, then by row. -/
private theorem compareRows_nonpos :
    compareRows t band a b ≤ 0 ↔
      (hash t band a).toNat < (hash t band b).toNat ∨
        (hash t band a).toNat = (hash t band b).toNat ∧
          (sameBand t band a b < 0 ∨ sameBand t band a b = 0 ∧ a ≤ b) := by
  simp only [compareRows]
  split_ifs <;> omega

private theorem sameBand_zero : sameBand t band a b = 0 ↔ bandOf t band a = bandOf t band b :=
  (bufferCompare_eq _ _).trans eq_comm

private theorem sameBand_trans (ab : sameBand t band a b ≤ 0) (bc : sameBand t band b c ≤ 0) :
    sameBand t band a c ≤ 0 := bufferCompare_trans bc ab

private theorem sameBand_between (ab : sameBand t band a b ≤ 0) (bc : sameBand t band b c ≤ 0)
    (ac : sameBand t band a c = 0) : sameBand t band a b = 0 ∧ sameBand t band b c = 0 := by
  have bytes : bandOf t band a = bandOf t band c := sameBand_zero.mp ac
  have back : sameBand t band b c = -sameBand t band a b := by
    rw [sameBand, ← bytes]
    exact bufferCompare_neg _ _
  omega

instance : Std.Total fun a b => compareRows t band a b ≤ 0 :=
  ⟨fun a b => by
    rw [compareRows_neg (a := a) (b := b)]
    omega⟩

instance : IsTrans Nat fun a b => compareRows t band a b ≤ 0 := ⟨fun a b c ab bc => by
  rw [compareRows_nonpos] at *
  have trans := @sameBand_trans t band a b c
  have between := @sameBand_between t band a b c
  omega⟩

private theorem order_sorted (t : SignatureTable) (band : Fin BANDS) :
    (order t band).Pairwise fun a b => compareRows t band a b ≤ 0 :=
  List.pairwise_insertionSort _ _

theorem order_perm (t : SignatureTable) (band : Fin BANDS) :
    (order t band).Perm (List.range t.count) := List.perm_insertionSort _ _

private theorem readUInt32LE_band {i j k : Nat} (fits : k + 4 ≤ bandBytes)
    (bytes : bandOf t band i = bandOf t band j) :
    readUInt32LE t.sigs (at_ band i + k) = readUInt32LE t.sigs (at_ band j + k) := by
  have read : ∀ i m, m < bandBytes → t.sigs[at_ band i + m]? = (bandOf t band i)[m]? := by
    intro i m within
    rw [bandOf, List.getElem?_take_of_lt within, List.getElem?_drop]
  simp only [readUInt32LE, readU32, Nat.add_assoc]
  rw [read i k (by omega), read i (k + 1) (by omega), read i (k + 2) (by omega),
    read i (k + 3) (by omega), bytes, ← read j k (by omega), ← read j (k + 1) (by omega),
    ← read j (k + 2) (by omega), ← read j (k + 3) (by omega)]

private theorem hash_eq (bytes : bandOf t band a = bandOf t band b) :
    hash t band a = hash t band b := by
  have fits : ∀ k ∈ [0, 4, 8, 12], k + 4 ≤ bandBytes := by decide
  simp only [hash, List.foldl_cons, List.foldl_nil]
  rw [readUInt32LE_band (fits 0 (by simp)) bytes, readUInt32LE_band (fits 4 (by simp)) bytes,
    readUInt32LE_band (fits 8 (by simp)) bytes, readUInt32LE_band (fits 12 (by simp)) bytes]

/-- Rows are taken for one run exactly when their bands agree: a hash alone does not do. -/
private theorem same_iff (a b : Nat) :
    (decide (hash t band a = hash t band b) && decide (sameBand t band a b = 0)) = true ↔
      bandOf t band a = bandOf t band b := by
  rw [Bool.and_eq_true, decide_eq_true_eq, decide_eq_true_eq, sameBand_zero]
  exact and_iff_right_of_imp hash_eq

private theorem order_together (t : SignatureTable) (band : Fin BANDS) :
    Runs.Together (bandOf t band) (order t band) := by
  intro i j k a b c upto_j upto_k at_i at_j at_k equal
  have sorted := order_sorted t band
  have le_of : ∀ {i j a b : Nat}, i ≤ j → (order t band)[i]? = some a → (order t band)[j]? = some b →
      compareRows t band a b ≤ 0 := by
    intro i j a b upto at_i at_j
    rcases Nat.eq_or_lt_of_le upto with rfl | less
    · cases at_i.symm.trans at_j
      exact (total_of (fun a b => compareRows t band a b ≤ 0) a a).elim id id
    · obtain ⟨inside_i, rfl⟩ := List.getElem?_eq_some_iff.mp at_i
      obtain ⟨inside_j, rfl⟩ := List.getElem?_eq_some_iff.mp at_j
      exact List.pairwise_iff_getElem.mp sorted i j inside_i inside_j less
  have ab := compareRows_nonpos.mp (le_of upto_j at_i at_j)
  have bc := compareRows_nonpos.mp (le_of upto_k at_j at_k)
  have hashes : hash t band a = hash t band c := hash_eq equal
  rw [hashes] at ab
  have between := @sameBand_between t band a b c
  rw [← sameBand_zero] at equal ⊢
  omega

def bucket (t : SignatureTable) (band : Fin BANDS) (slice : Nat × Nat) : List Nat :=
  Runs.sub (order t band) slice

/-- What `visit` is called with for one band. -/
structure BandBuckets (t : SignatureTable) (band : Fin BANDS) : Prop where
  consecutive : Runs.Consecutive 0 (forEachBandBucket t band) t.count
  /-- Together the buckets are the rows, each once. -/
  rows : ((forEachBandBucket t band).map (bucket t band)).flatten.Perm (List.range t.count)
  ascending : ∀ slice ∈ forEachBandBucket t band, (bucket t band slice).Pairwise (· < ·)
  agree : ∀ x < t.count, ∀ y < t.count,
    (∃ slice ∈ forEachBandBucket t band, x ∈ bucket t band slice ∧ y ∈ bucket t band slice) ↔
      bandOf t band x = bandOf t band y

private theorem length_order (t : SignatureTable) (band : Fin BANDS) :
    (order t band).length = t.count := by
  rw [(order_perm t band).length_eq, List.length_range]

private theorem exists_position (band : Fin BANDS) {x : Nat} (below : x < t.count) :
    ∃ i : Nat, (order t band)[i]? = some x :=
  List.mem_iff_getElem?.mp ((order_perm t band).mem_iff.mpr (List.mem_range.mpr below))

private theorem visits_consecutive (t : SignatureTable) (band : Fin BANDS) :
    Runs.Consecutive 0 (forEachBandBucket t band) t.count := by
  rw [← length_order t band]
  exact Runs.slices_consecutive

private theorem mem_bucket {slice : Nat × Nat} (listed : slice ∈ forEachBandBucket t band) {x : Nat}
    (member : x ∈ bucket t band slice) (y : Nat) :
    y ∈ bucket t band slice ↔ y < t.count ∧ bandOf t band x = bandOf t band y := by
  obtain ⟨i, above_i, below_i, at_i⟩ := Runs.mem_sub.mp member
  constructor
  · intro other
    obtain ⟨j, above_j, below_j, at_j⟩ := Runs.mem_sub.mp other
    have in_range := (order_perm t band).mem_iff.mp (List.mem_of_getElem? at_j)
    refine ⟨List.mem_range.mp in_range, ?_⟩
    exact (Runs.same_slice_iff same_iff (order_together t band) at_i at_j).mp
      ⟨slice, listed, ⟨above_i, below_i⟩, above_j, below_j⟩
  · rintro ⟨below, equal⟩
    obtain ⟨j, at_j⟩ := exists_position band below
    obtain ⟨other, other_listed, in_i, above_j, below_j⟩ :=
      (Runs.same_slice_iff same_iff (order_together t band) at_i at_j).mpr equal
    obtain rfl := (visits_consecutive t band).unique other_listed listed in_i ⟨above_i, below_i⟩
    exact Runs.mem_sub.mpr ⟨j, above_j, below_j, at_j⟩

private theorem bucket_ascending {slice : Nat × Nat} (listed : slice ∈ forEachBandBucket t band) :
    (bucket t band slice).Pairwise (· < ·) := by
  have sub : (bucket t band slice).Sublist (order t band) :=
    (List.take_sublist _ _).trans (List.drop_sublist _ _)
  have distinct := (order_perm t band).nodup_iff.mpr List.nodup_range
  have both := ((order_sorted t band).sublist sub).and (distinct.sublist sub)
  refine List.Pairwise.imp_of_mem (fun {a b} at_a at_b => ?_) both
  rintro ⟨below, other⟩
  have equal := ((mem_bucket listed at_a b).mp at_b).2
  have cases := compareRows_nonpos.mp below
  rw [hash_eq equal, sameBand_zero.mpr equal] at cases
  omega

theorem forEachBandBucket_exact (t : SignatureTable) (band : Fin BANDS) : BandBuckets t band where
  consecutive := visits_consecutive t band
  rows := by
    have whole : ((forEachBandBucket t band).map (bucket t band)).flatten = order t band :=
      Runs.flatten_slices
    rw [whole]
    exact order_perm t band
  ascending _ listed := bucket_ascending listed
  agree x below_x y below_y := by
    constructor
    · rintro ⟨slice, listed, at_x, at_y⟩
      exact ((mem_bucket listed at_x y).mp at_y).2
    · intro equal
      obtain ⟨i, at_i⟩ := exists_position band below_x
      obtain ⟨j, at_j⟩ := exists_position band below_y
      obtain ⟨slice, listed, ⟨above_i, below_i⟩, above_j, below_j⟩ :=
        (Runs.same_slice_iff same_iff (order_together t band) at_i at_j).mpr equal
      exact ⟨slice, listed, Runs.mem_sub.mpr ⟨i, above_i, below_i, at_i⟩,
        Runs.mem_sub.mpr ⟨j, above_j, below_j, at_j⟩⟩

def bucketSize (t : SignatureTable) (band : Fin BANDS) (x : Nat) : Nat :=
  ((List.range t.count).filter fun y => bandOf t band x = bandOf t band y).length

private theorem size_bucket {slice : Nat × Nat} (listed : slice ∈ forEachBandBucket t band) {x : Nat}
    (member : x ∈ bucket t band slice) : slice.2 - slice.1 = bucketSize t band x := by
  have below : slice.2 ≤ (order t band).length := by
    rw [length_order]
    exact ((visits_consecutive t band).within listed).2.2
  rw [← Runs.length_sub below, bucketSize]
  refine List.Perm.length_eq ((List.perm_ext_iff_of_nodup ?_ ?_).mpr fun y => ?_)
  · exact (bucket_ascending listed).imp fun less => Nat.ne_of_lt less
  · exact List.nodup_range.filter _
  · rw [List.mem_filter, List.mem_range, decide_eq_true_eq]
    exact mem_bucket listed member y

private theorem mem_packed {slice : Nat × Nat} (listed : slice ∈ forEachBandBucket t band)
    {key : Nat} :
    key ∈ packed t band slice ↔ slice.2 - slice.1 ≤ BUCKET_CAP ∧
      ∃ x ∈ bucket t band slice, ∃ y ∈ bucket t band slice, x < y ∧ x * t.count + y = key := by
  have ascending := bucket_ascending listed
  have below := ((visits_consecutive t band).within listed).2.2
  -- positions in the slice are in the order of the rows
  have less_iff : ∀ {i j x y : Nat}, slice.1 ≤ i → i < slice.2 → slice.1 ≤ j → j < slice.2 →
      (order t band)[i]? = some x → (order t band)[j]? = some y → (i < j → x < y) := by
    intro i j x y above_i below_i above_j below_j at_i at_j before
    rw [← Runs.getElem?_sub above_i below_i] at at_i
    rw [← Runs.getElem?_sub above_j below_j] at at_j
    obtain ⟨inside_i, rfl⟩ := List.getElem?_eq_some_iff.mp at_i
    obtain ⟨inside_j, rfl⟩ := List.getElem?_eq_some_iff.mp at_j
    exact List.pairwise_iff_getElem.mp ascending _ _ inside_i inside_j (by omega)
  unfold packed
  split
  · next skipped =>
    refine ⟨fun none_ => (nomatch none_), ?_⟩
    rintro ⟨small, x, at_x, y, at_y, less, -⟩
    obtain ⟨i, above_i, below_i, at_i⟩ := Runs.mem_sub.mp at_x
    obtain ⟨j, above_j, below_j, at_j⟩ := Runs.mem_sub.mp at_y
    have two : i ≠ j := by
      rintro rfl
      cases at_i.symm.trans at_j
      exact Nat.lt_irrefl x less
    omega
  · next kept =>
    have exists_at : ∀ {i : Nat}, i < slice.2 →
        (order t band)[i]? = some ((order t band).getD i 0) := by
      intro i inside
      have bound : i < (order t band).length := by
        rw [length_order]
        omega
      rw [List.getD_eq_getElem?_getD, List.getElem?_eq_getElem bound]
      rfl
    simp only [List.mem_flatMap, List.mem_map, List.mem_range'_1]
    constructor
    · rintro ⟨i, ⟨above_i, below_i⟩, j, ⟨above_j, below_j⟩, rfl⟩
      have at_i := exists_at (i := i) (by omega)
      have at_j := exists_at (i := j) (by omega)
      refine ⟨by omega, _, Runs.mem_sub.mpr ⟨i, above_i, by omega, at_i⟩, _,
        Runs.mem_sub.mpr ⟨j, by omega, by omega, at_j⟩, ?_, rfl⟩
      exact less_iff above_i (by omega) (by omega) (by omega) at_i at_j (by omega)
    · rintro ⟨-, x, at_x, y, at_y, less, rfl⟩
      obtain ⟨i, above_i, below_i, at_i⟩ := Runs.mem_sub.mp at_x
      obtain ⟨j, above_j, below_j, at_j⟩ := Runs.mem_sub.mp at_y
      have before : i < j := by
        rcases Nat.lt_trichotomy i j with before | rfl | after
        · exact before
        · cases at_i.symm.trans at_j
          exact absurd less (Nat.lt_irrefl x)
        · have other := less_iff above_j below_j above_i below_i at_j at_i after
          omega
      refine ⟨i, ⟨above_i, by omega⟩, j, ⟨by omega, by omega⟩, ?_⟩
      rw [List.getD_eq_getElem?_getD, List.getD_eq_getElem?_getD, at_i, at_j]
      rfl

private theorem mem_candidates {key : Nat} :
    key ∈ candidates t ↔ ∃ x y, x < y ∧ y < t.count ∧ x * t.count + y = key ∧
      ∃ band, bandOf t band x = bandOf t band y ∧ bucketSize t band x ≤ BUCKET_CAP := by
  simp only [candidates, List.mem_eraseDups, List.mem_flatMap, List.mem_finRange, true_and]
  constructor
  · rintro ⟨band, slice, listed, here⟩
    obtain ⟨small, x, at_x, y, at_y, less, rfl⟩ := (mem_packed listed).mp here
    obtain ⟨below, equal⟩ := (mem_bucket listed at_x y).mp at_y
    refine ⟨x, y, less, below, rfl, band, equal, ?_⟩
    rwa [← size_bucket listed at_x]
  · rintro ⟨x, y, less, below, rfl, band, equal, small⟩
    obtain ⟨slice, listed, at_x, at_y⟩ :=
      ((forEachBandBucket_exact t band).agree x (by omega) y below).mpr equal
    refine ⟨band, slice, listed, (mem_packed listed).mpr ⟨?_, x, at_x, y, at_y, less, rfl⟩⟩
    rwa [size_bucket listed at_x]

/-- Each pair once, the lower row first: those that share a small bucket. -/
structure PairsExact (t : SignatureTable) : Prop where
  once : (consideredPairs t).Nodup
  exactly : ∀ x y, (x, y) ∈ consideredPairs t ↔ x < y ∧ y < t.count ∧
    ∃ band, bandOf t band x = bandOf t band y ∧ bucketSize t band x ≤ BUCKET_CAP

theorem consideredPairs_exact (t : SignatureTable) : PairsExact t where
  once := by
    refine List.Nodup.map (fun one other same => ?_) (FirstByKey.nodup_eraseDups _)
    obtain ⟨high, low⟩ := Prod.mk.inj same
    rw [← Nat.div_add_mod one t.count, ← Nat.div_add_mod other t.count, high, low]
  exactly x y := by
    simp only [consideredPairs, List.mem_map, mem_candidates, Prod.mk.injEq]
    constructor
    · rintro ⟨key, ⟨a, b, less, below, rfl, agree⟩, high, low⟩
      rw [Nat.mul_comm, Nat.mul_add_div (by omega), Nat.div_eq_of_lt below] at high
      rw [Nat.mul_comm, Nat.mul_add_mod, Nat.mod_eq_of_lt below] at low
      subst high low
      exact ⟨less, below, agree⟩
    · rintro ⟨less, below, agree⟩
      refine ⟨x * t.count + y, ⟨x, y, less, below, rfl, agree⟩, ?_, ?_⟩
      · rw [Nat.mul_comm, Nat.mul_add_div (by omega), Nat.div_eq_of_lt below, Nat.add_zero]
      · rw [Nat.mul_comm, Nat.mul_add_mod, Nat.mod_eq_of_lt below]

/-- The buckets of every band are the classes of the rows by that band, and the pairs considered
are those of the small buckets. -/
theorem nearDuplicate_candidates (t : SignatureTable) :
    (∀ band, BandBuckets t band) ∧ PairsExact t :=
  ⟨forEachBandBucket_exact t, consideredPairs_exact t⟩

end CodeGraph.Graph.NearDuplicates
