import CodeGraph.Foundation.Decisions

/-! Positions grouped by key, and their slots in one table with a slice for each key. -/
namespace CodeGraph.Buckets

variable {κ : Type} [DecidableEq κ]

/-- The positions of a key, counted from `start`, in order. -/
def bucket (key : κ) : Nat → List κ → List Nat
  | _, [] => []
  | start, k :: keys =>
    if k = key then start :: bucket key (start + 1) keys else bucket key (start + 1) keys

theorem bucket_append (key : κ) (start : Nat) (left right : List κ) :
    bucket key start (left ++ right) =
      bucket key start left ++ bucket key (start + left.length) right := by
  induction left generalizing start with
  | nil => rfl
  | cons k left ih =>
    have shift : start + 1 + left.length = start + (left.length + 1) := by omega
    simp only [List.cons_append, bucket, ih, List.length_cons, shift]
    split <;> rfl

theorem bucket_eq_nil {key : κ} {start : Nat} {keys : List κ} (absent : key ∉ keys) :
    bucket key start keys = [] := by
  induction keys generalizing start with
  | nil => rfl
  | cons k keys ih =>
    have differs : k ≠ key := fun same => absent (same ▸ List.mem_cons_self)
    rw [bucket, if_neg differs, ih fun h => absent (List.mem_cons_of_mem _ h)]

def tally (keys : List κ) (key : κ) : Nat := keys.count key

theorem tally_cons (k : κ) (keys : List κ) (key : κ) :
    tally (k :: keys) key = tally keys key + if k = key then 1 else 0 := by
  simp [tally, List.count_cons]

theorem tally_append (left right : List κ) (key : κ) :
    tally (left ++ right) key = tally left key + tally right key := List.count_append

theorem tally_le_length (keys : List κ) (key : κ) : tally keys key ≤ keys.length :=
  List.count_le_length

theorem length_bucket (key : κ) (start : Nat) (keys : List κ) :
    (bucket key start keys).length = tally keys key := by
  induction keys generalizing start with
  | nil => rfl
  | cons k keys ih =>
    rw [bucket, tally_cons]
    by_cases same : k = key
    · simp [same, ih]
    · simp [same, ih]

theorem mem_bucket {key : κ} {start j : Nat} {keys : List κ} :
    j ∈ bucket key start keys ↔ start ≤ j ∧ keys[j - start]? = some key := by
  induction keys generalizing start with
  | nil => simp [bucket]
  | cons k keys ih =>
    have tail : (start + 1 ≤ j ∧ keys[j - (start + 1)]? = some key) ↔
        (start < j ∧ (k :: keys)[j - start]? = some key) := by
      constructor
      · rintro ⟨le, found⟩
        have shift : j - start = j - (start + 1) + 1 := by omega
        exact ⟨le, by rw [shift, List.getElem?_cons_succ]; exact found⟩
      · rintro ⟨lt, found⟩
        have shift : j - start = j - (start + 1) + 1 := by omega
        rw [shift, List.getElem?_cons_succ] at found
        exact ⟨lt, found⟩
    rw [bucket]
    split
    · next same =>
      rw [List.mem_cons, ih, tail]
      constructor
      · rintro (rfl | ⟨lt, found⟩)
        · exact ⟨Nat.le_refl _, by simp [same]⟩
        · exact ⟨Nat.le_of_lt lt, found⟩
      · rintro ⟨le, found⟩
        rcases Nat.eq_or_lt_of_le le with equal | lt
        · exact .inl equal.symm
        · exact .inr ⟨lt, found⟩
    · next differs =>
      rw [ih, tail]
      refine ⟨fun h => ⟨Nat.le_of_lt h.1, h.2⟩, fun h => ⟨Nat.lt_of_le_of_ne h.1 ?_, h.2⟩⟩
      rintro rfl
      simp [differs] at h

theorem bucket_sorted (key : κ) (start : Nat) (keys : List κ) :
    (bucket key start keys).Pairwise (· < ·) := by
  induction keys generalizing start with
  | nil => exact List.Pairwise.nil
  | cons k keys ih =>
    rw [bucket]
    split
    · refine List.pairwise_cons.mpr ⟨fun j member => ?_, ih (start + 1)⟩
      exact (mem_bucket.mp member).1
    · exact ih (start + 1)

theorem bucket_nodup (key : κ) (start : Nat) (keys : List κ) : (bucket key start keys).Nodup :=
  (bucket_sorted key start keys).imp Nat.ne_of_lt

/-- A test on items counts alike in a bucket of positions and among the items with the key. -/
theorem length_filter_bucket {α : Type} {keyOf : α → κ} {q : α → Bool} {test : Nat → Bool} {key : κ}
    {start : Nat} {items : List α}
    (same : ∀ j x, items[j]? = some x → test (start + j) = q x) :
    ((bucket key start (items.map keyOf)).filter test).length =
      tally ((items.filter q).map keyOf) key := by
  induction items generalizing start with
  | nil => rfl
  | cons x items ih =>
    have later : ∀ j y, items[j]? = some y → test (start + 1 + j) = q y := by
      intro j y found
      have shift : start + 1 + j = start + (j + 1) := by omega
      rw [shift]
      exact same (j + 1) y found
    have rest := ih later
    have first : test start = q x := same 0 x rfl
    rw [List.map_cons, bucket]
    by_cases keyed : keyOf x = key
    · by_cases passes : q x = true
      · simp [first, passes, keyed, rest, tally]
      · simp [first, passes, keyed, rest]
    · by_cases passes : q x = true
      · simp [passes, keyed, rest, tally]
      · simp [passes, keyed, rest]

def rank (keys : List κ) (key : κ) (i : Nat) : Nat := tally (keys.take i) key

theorem bucket_middle (key : κ) (left right : List κ) :
    (bucket key 0 (left ++ key :: right))[tally left key]? = some left.length := by
  rw [bucket_append, ← length_bucket key 0 left, List.getElem?_append_right (Nat.le_refl _),
    Nat.sub_self, bucket, if_pos rfl, Nat.zero_add]
  rfl

omit [DecidableEq κ] in
private theorem split_at {keys : List κ} {key : κ} {i : Nat} (found : keys[i]? = some key) :
    keys = keys.take i ++ key :: keys.drop (i + 1) ∧ (keys.take i).length = i := by
  obtain ⟨below, value⟩ := List.getElem?_eq_some_iff.mp found
  refine ⟨?_, by rw [List.length_take]; omega⟩
  rw [← value, ← List.drop_eq_getElem_cons below, List.take_append_drop]

theorem bucket_rank {keys : List κ} {key : κ} {i : Nat} (found : keys[i]? = some key) :
    (bucket key 0 keys)[rank keys key i]? = some i := by
  obtain ⟨split, length⟩ := split_at found
  have middle := bucket_middle key (keys.take i) (keys.drop (i + 1))
  rw [← split, length] at middle
  exact middle

theorem bucket_position {keys : List κ} {key : κ} {k i : Nat}
    (found : (bucket key 0 keys)[k]? = some i) : keys[i]? = some key ∧ rank keys key i = k := by
  have keyed := (mem_bucket.mp (List.mem_of_getElem? found)).2
  rw [Nat.sub_zero] at keyed
  refine ⟨keyed, ?_⟩
  obtain ⟨below, _⟩ := List.getElem?_eq_some_iff.mp found
  have nodup := bucket_nodup key 0 keys
  have same := (bucket_rank keyed).trans found.symm
  exact (List.getElem?_inj (by
    obtain ⟨h, _⟩ := List.getElem?_eq_some_iff.mp (bucket_rank keyed)
    exact h) nodup).mp same

theorem rank_succ {keys : List κ} {key : κ} {i : Nat} (found : keys[i]? = some key) (other : κ) :
    rank keys other (i + 1) = rank keys other i + if key = other then 1 else 0 := by
  rw [rank, rank, List.take_add_one, found, tally_append, Option.toList_some, tally_cons]
  simp [tally]

theorem rank_lt_tally {keys : List κ} {key : κ} {i : Nat} (found : keys[i]? = some key) :
    rank keys key i < tally keys key := by
  have placed := bucket_rank found
  obtain ⟨below, _⟩ := List.getElem?_eq_some_iff.mp placed
  rwa [length_bucket] at below

/-- The slot at which the slice of a key starts, the keys being the numbers from 0. -/
def offset (keys : List (Option Nat)) (key : Nat) : Nat :=
  ((List.range key).map fun q => tally keys (some q)).sum

theorem offset_succ (keys : List (Option Nat)) (key : Nat) :
    offset keys (key + 1) = offset keys key + tally keys (some key) := by
  simp [offset, List.range_succ]

theorem offset_mono (keys : List (Option Nat)) {p q : Nat} (le : p ≤ q) :
    offset keys p ≤ offset keys q := by
  induction le with
  | refl => exact Nat.le_refl _
  | step _ ih =>
    rw [offset_succ]
    omega

/-- The slices of different keys do not meet. -/
theorem slot_injective {keys : List (Option Nat)} {p q j k : Nat}
    (first : j < tally keys (some p)) (second : k < tally keys (some q))
    (same : offset keys p + j = offset keys q + k) : p = q ∧ j = k := by
  have apart {a b x y : Nat} (less : a < b) (within : x < tally keys (some a)) :
      offset keys a + x < offset keys b + y := by
    have next := offset_mono keys (Nat.succ_le_of_lt less)
    rw [offset_succ] at next
    omega
  rcases Nat.lt_trichotomy p q with less | rfl | more
  · have := apart (y := k) less first
    omega
  · exact ⟨rfl, by omega⟩
  · have := apart (y := j) more second
    omega

theorem slot_lt {keys : List (Option Nat)} {p k n : Nat} (below : p < n)
    (within : k < tally keys (some p)) : offset keys p + k < offset keys n := by
  have next := offset_mono keys (Nat.succ_le_of_lt below)
  rw [offset_succ] at next
  omega

theorem offset_le_length (keys : List (Option Nat)) (n : Nat) : offset keys n ≤ keys.length := by
  induction keys with
  | nil =>
    induction n with
    | zero => exact Nat.le_refl _
    | succ n ih =>
      rw [offset_succ]
      simpa [tally] using ih
  | cons k keys ih =>
    have one : offset (k :: keys) n ≤ offset keys n + 1 ∧
        ((∀ q < n, k ≠ some q) → offset (k :: keys) n = offset keys n) := by
      clear ih
      induction n with
      | zero => exact ⟨by simp [offset], fun _ => by simp [offset]⟩
      | succ n ih =>
        simp only [offset_succ, tally_cons]
        by_cases same : k = some n
        · have earlier : ∀ q < n, k ≠ some q := by
            intro q less equal
            have := Option.some.inj (same.symm.trans equal)
            omega
          refine ⟨?_, fun absent => (absent n (Nat.lt_succ_self n) same).elim⟩
          rw [ih.2 earlier]
          simp [same]
          omega
        · have zero : (if k = some n then 1 else 0) = 0 := if_neg same
          rw [zero]
          exact ⟨by omega, fun absent => by
            rw [ih.2 fun q less => absent q (Nat.lt_succ_of_lt less), Nat.add_zero]⟩
    rw [List.length_cons]
    omega

end CodeGraph.Buckets
