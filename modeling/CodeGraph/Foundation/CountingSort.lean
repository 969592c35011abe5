import CodeGraph.Foundation.Buckets

/-!
# Grouping positions by counting

The positions of a list of small numbers, grouped by their number in one table: a pass that counts,
a pass that sums, and a pass that fills. The slice of a number holds its positions in order.
-/
namespace CodeGraph.CountingSort

open Buckets

def counts (n : Nat) (keys : List Nat) : List Nat :=
  keys.foldl (fun table key => table.modify (key + 1) (· + 1)) (List.replicate (n + 1) 0)

/-- Each entry with the one before it, for the first `m` entries. -/
def accumulate (m : Nat) (table : List Nat) : List Nat :=
  (List.range m).foldl (fun table i => table.modify (i + 1) (· + table.getD i 0)) table

def starts (n : Nat) (keys : List Nat) : List Nat := accumulate n (counts n keys)

structure Filling where
  /-- The next place of each number. -/
  fill : List Nat
  table : List Nat

def fillStep (s : Filling) (entry : Nat × Nat) : Filling :=
  { fill := s.fill.modify entry.1 (· + 1)
    table := s.table.set (s.fill.getD entry.1 0) entry.2 }

def grouped (n : Nat) (keys : List Nat) : List Nat :=
  (keys.zipIdx.foldl fillStep ⟨(starts n keys).take n, List.replicate keys.length 0⟩).table

variable {n : Nat} {keys : List Nat}

theorem counts_succ {key : Nat} (below : key < n) :
    (counts n keys)[key + 1]? = some (keys.count key) := by
  have grown : ∀ (table : List Nat) (c : Nat), table[key + 1]? = some c →
      (keys.foldl (fun table key => table.modify (key + 1) (· + 1)) table)[key + 1]? =
        some (c + keys.count key) := by
    induction keys with
    | nil => exact fun _ _ found => found
    | cons k keys ih =>
      intro table c found
      rw [List.foldl_cons, List.count_cons]
      by_cases same : k = key
      · subst same
        rw [ih _ (c + 1) (by simp [found])]
        rw [if_pos (beq_self_eq_true k), Nat.add_assoc, Nat.add_comm 1]
      · rw [ih _ c (by simp [found, same])]
        simp [same]
  rw [counts, grown _ 0 (by simp [below]), Nat.zero_add]

theorem counts_zero : (counts n keys)[0]? = some 0 := by
  have kept : ∀ table : List Nat, (keys.foldl (fun table key => table.modify (key + 1) (· + 1))
      table)[0]? = table[0]? := by
    induction keys with
    | nil => exact fun _ => rfl
    | cons key keys ih =>
      intro table
      rw [List.foldl_cons, ih]
      simp
  rw [counts, kept]
  simp

private theorem tally_some (keys : List Nat) (key : Nat) :
    tally (keys.map some) (some key) = keys.count key := by
  induction keys with
  | nil => rfl
  | cons k keys ih =>
    rw [List.map_cons, tally_cons, ih, List.count_cons]
    simp

/-- After `m` sums, the first entries are offsets and the others still counts. -/
private theorem accumulate_eq {m : Nat} (below : m ≤ n) :
    (∀ key ≤ m, (accumulate m (counts n keys))[key]? = some (offset (keys.map some) key)) ∧
      ∀ key, m < key → (accumulate m (counts n keys))[key]? = (counts n keys)[key]? := by
  induction m with
  | zero =>
    refine ⟨fun key le => ?_, fun _ _ => rfl⟩
    obtain rfl := Nat.le_zero.mp le
    exact counts_zero
  | succ m ih =>
    obtain ⟨sums, rest⟩ := ih (Nat.le_of_succ_le below)
    have step : accumulate (m + 1) (counts n keys) =
        (accumulate m (counts n keys)).modify (m + 1)
          (· + (accumulate m (counts n keys)).getD m 0) := by
      rw [accumulate, List.range_succ, List.foldl_append]
      rfl
    have here : (accumulate m (counts n keys)).getD m 0 = offset (keys.map some) m := by
      rw [List.getD_eq_getElem?_getD, sums m (Nat.le_refl m), Option.getD_some]
    rw [step, here]
    constructor
    · intro key le
      rcases Nat.lt_or_eq_of_le le with less | rfl
      · rw [List.getElem?_modify_ne _ _ (by omega)]
        exact sums key (Nat.lt_succ_iff.mp less)
      · rw [List.getElem?_modify_eq, rest (m + 1) (Nat.lt_succ_self m), counts_succ below,
          offset_succ, tally_some]
        simp [Nat.add_comm]
    · intro key less
      rw [List.getElem?_modify_ne _ _ (by omega)]
      exact rest key (Nat.lt_of_succ_lt less)

theorem starts_eq {key : Nat} (below : key ≤ n) :
    (starts n keys)[key]? = some (offset (keys.map some) key) :=
  (accumulate_eq (Nat.le_refl n)).1 key below

/-- After `m` positions: the next place of each number, and the places of these positions. -/
private structure Filled (n m : Nat) (keys : List Nat) (s : Filling) : Prop where
  size : s.table.length = keys.length
  fill : ∀ key < n, s.fill[key]? =
    some (offset (keys.map some) key + rank (keys.map some) (some key) m)
  table : ∀ i < m, ∀ key, keys[i]? = some key →
    s.table[offset (keys.map some) key + rank (keys.map some) (some key) i]? = some i

private theorem fillStep_keeps {m key : Nat} {s : Filling} (inv : Filled n m keys s)
    (found : keys[m]? = some key) (below : key < n) : Filled n (m + 1) keys (fillStep s (key, m)) := by
  have keyed : (keys.map some)[m]? = some (some key) := by simp [found]
  have place : s.fill.getD key 0 =
      offset (keys.map some) key + rank (keys.map some) (some key) m := by
    rw [List.getD_eq_getElem?_getD, inv.fill key below, Option.getD_some]
  have inside : offset (keys.map some) key + rank (keys.map some) (some key) m < s.table.length := by
    have less := slot_lt (n := key + 1) (Nat.lt_succ_self key) (rank_lt_tally keyed)
    have total := offset_le_length (keys.map some) (key + 1)
    rw [List.length_map] at total
    rw [inv.size]
    omega
  rw [fillStep, place]
  constructor
  · rw [List.length_set, inv.size]
  · intro other within
    rw [List.getElem?_modify, inv.fill other within, rank_succ keyed]
    by_cases same : key = other
    · simp [same, Nat.add_assoc]
    · simp [same]
  · intro i less other at_
    have its : (keys.map some)[i]? = some (some other) := by simp [at_]
    rw [List.getElem?_set]
    rcases Nat.lt_succ_iff_lt_or_eq.mp less with earlier | rfl
    · have apart : offset (keys.map some) key + rank (keys.map some) (some key) m ≠
          offset (keys.map some) other + rank (keys.map some) (some other) i := by
        intro same
        obtain ⟨rfl, equal⟩ := slot_injective (rank_lt_tally keyed) (rank_lt_tally its) same
        -- One rank in one bucket is one position.
        have twice := bucket_rank keyed
        rw [equal, bucket_rank its] at twice
        exact absurd (Option.some.inj twice) (Nat.ne_of_lt earlier)
      rw [if_neg apart]
      exact inv.table i earlier other at_
    · rw [found] at at_
      cases at_
      rw [if_pos rfl, if_pos inside]

private theorem filled (below : ∀ key ∈ keys, key < n) (rest : List Nat) {m : Nat} {s : Filling}
    (inv : Filled n m keys s) (tail : keys.drop m = rest) :
    Filled n (m + rest.length) keys ((rest.zipIdx m).foldl fillStep s) := by
  induction rest generalizing m s with
  | nil => exact inv
  | cons key rest ih =>
    have found : keys[m]? = some key := by
      have first := congrArg List.head? tail
      rwa [List.head?_drop] at first
    have tail' : keys.drop (m + 1) = rest := by
      have later := congrArg List.tail tail
      rwa [List.tail_drop] at later
    have next := ih (fillStep_keeps inv found (below key (List.mem_of_getElem? found))) tail'
    rw [List.zipIdx_cons, List.foldl_cons, List.length_cons]
    rwa [Nat.add_assoc, Nat.add_comm 1] at next

theorem slice_grouped (below : ∀ key ∈ keys, key < n) {key k : Nat}
    (within : k < keys.count key) :
    (grouped n keys)[offset (keys.map some) key + k]? = (bucket key 0 keys)[k]? := by
  have start : Filled n 0 keys ⟨(starts n keys).take n, List.replicate keys.length 0⟩ := by
    refine ⟨List.length_replicate, fun key less => ?_, fun i none_ => absurd none_ (Nat.not_lt_zero i)⟩
    rw [List.getElem?_take_of_lt less, starts_eq (Nat.le_of_lt less)]
    rfl
  have inv := filled below keys start List.drop_zero
  rw [Nat.zero_add] at inv
  have size : k < (bucket key 0 keys).length := by
    rw [length_bucket]
    exact within
  have here := List.getElem?_eq_getElem size
  obtain ⟨found, ranked⟩ := bucket_position here
  have ranks : rank (keys.map some) (some key) (bucket key 0 keys)[k] =
      rank keys key (bucket key 0 keys)[k] := by
    rw [rank, ← List.map_take, tally_some]
    rfl
  have small : (bucket key 0 keys)[k] < keys.length := (List.getElem?_eq_some_iff.mp found).1
  have placed := inv.table _ small key found
  rw [ranks, ranked] at placed
  rw [here]
  exact placed

/-- What is read from the start of a number's slice to the start of the next one's. -/
theorem slice_eq (below : ∀ key ∈ keys, key < n) {key : Nat} (less : key < n) :
    (List.range' ((starts n keys).getD key 0)
      ((starts n keys).getD (key + 1) 0 - (starts n keys).getD key 0)).map
        (fun k => (grouped n keys).getD k 0) = bucket key 0 keys := by
  have first : (starts n keys).getD key 0 = offset (keys.map some) key := by
    rw [List.getD_eq_getElem?_getD, starts_eq (Nat.le_of_lt less), Option.getD_some]
  have last : (starts n keys).getD (key + 1) 0 = offset (keys.map some) key + keys.count key := by
    rw [List.getD_eq_getElem?_getD, starts_eq less, Option.getD_some, offset_succ, tally_some]
  rw [first, last, Nat.add_sub_cancel_left]
  apply List.ext_getElem?
  intro k
  rcases Nat.lt_or_ge k (keys.count key) with within | past
  · have size : k < (bucket key 0 keys).length := by
      rw [length_bucket]
      exact within
    have placed := slice_grouped below within
    rw [List.getElem?_map, List.getElem?_range' within, Nat.one_mul, Option.map_some,
      List.getD_eq_getElem?_getD, placed, List.getElem?_eq_getElem size, Option.getD_some]
  · rw [List.getElem?_eq_none (by simpa using past),
      List.getElem?_eq_none (by rw [length_bucket]; exact past)]

end CodeGraph.CountingSort
