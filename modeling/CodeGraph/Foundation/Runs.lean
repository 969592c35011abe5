import CodeGraph.Foundation.Decisions

/-!
# Runs of a list

One pass over the positions of a list cuts it where an element is not like the first one of the
run. In a list where equal keys stand together, the runs are the classes of the keys.
-/
namespace CodeGraph.Runs

variable {α κ : Type} (same : α → α → Bool) (l : List α)

def sameAt (i j : Nat) : Bool :=
  match l[i]?, l[j]? with
  | some a, some b => same a b
  | _, _ => false

/-- The cuts for `n` more positions from `r` on, the run having begun at `start`. -/
def slicesFrom : Nat → Nat → Nat → List (Nat × Nat)
  | 0, _, _ => []
  | n + 1, r, start =>
    if sameAt same l r start then slicesFrom n (r + 1) start
    else (start, r) :: slicesFrom n (r + 1) r

def slices : List (Nat × Nat) := slicesFrom same l l.length 1 0

def sub (slice : Nat × Nat) : List α := (l.drop slice.1).take (slice.2 - slice.1)

/-- Slices that follow on each other, none of them empty. -/
def Consecutive : Nat → List (Nat × Nat) → Nat → Prop
  | first, [], last => first = last
  | first, slice :: slices, last =>
    slice.1 = first ∧ slice.1 < slice.2 ∧ Consecutive slice.2 slices last

variable {same l}

theorem Consecutive.le {first last : Nat} {slices : List (Nat × Nat)}
    (consecutive : Consecutive first slices last) : first ≤ last := by
  induction slices generalizing first with
  | nil => exact Nat.le_of_eq consecutive
  | cons slice slices ih =>
    obtain ⟨rfl, filled, rest⟩ := consecutive
    exact Nat.le_trans (Nat.le_of_lt filled) (ih rest)

theorem Consecutive.within {first last : Nat} {slices : List (Nat × Nat)}
    (consecutive : Consecutive first slices last) {slice : Nat × Nat} (listed : slice ∈ slices) :
    first ≤ slice.1 ∧ slice.1 < slice.2 ∧ slice.2 ≤ last := by
  induction slices generalizing first with
  | nil => cases listed
  | cons other slices ih =>
    obtain ⟨rfl, filled, rest⟩ := consecutive
    rcases List.mem_cons.mp listed with rfl | later
    · exact ⟨Nat.le_refl _, filled, rest.le⟩
    · obtain ⟨above, inside, below⟩ := ih rest later
      exact ⟨Nat.le_trans (Nat.le_of_lt filled) above, inside, below⟩

theorem Consecutive.exists_slice {first last i : Nat} {slices : List (Nat × Nat)}
    (consecutive : Consecutive first slices last) (above : first ≤ i) (below : i < last) :
    ∃ slice ∈ slices, slice.1 ≤ i ∧ i < slice.2 := by
  induction slices generalizing first with
  | nil =>
    obtain rfl : first = last := consecutive
    omega
  | cons slice slices ih =>
    obtain ⟨rfl, filled, rest⟩ := consecutive
    by_cases here : i < slice.2
    · exact ⟨slice, List.mem_cons_self, above, here⟩
    · obtain ⟨other, listed, inside⟩ := ih rest (Nat.not_lt.mp here)
      exact ⟨other, List.mem_cons_of_mem slice listed, inside⟩

theorem Consecutive.unique {first last i : Nat} {slices : List (Nat × Nat)}
    (consecutive : Consecutive first slices last) {one other : Nat × Nat} (one_listed : one ∈ slices)
    (other_listed : other ∈ slices) (in_one : one.1 ≤ i ∧ i < one.2)
    (in_other : other.1 ≤ i ∧ i < other.2) : one = other := by
  induction slices generalizing first with
  | nil => cases one_listed
  | cons slice slices ih =>
    obtain ⟨rfl, -, rest⟩ := consecutive
    rcases List.mem_cons.mp one_listed with rfl | one_later <;>
      rcases List.mem_cons.mp other_listed with rfl | other_later
    · rfl
    · have above := (rest.within other_later).1
      omega
    · have above := (rest.within one_later).1
      omega
    · exact ih rest one_later other_later

theorem length_sub {slice : Nat × Nat} (below : slice.2 ≤ l.length) :
    (sub l slice).length = slice.2 - slice.1 := by
  rw [sub, List.length_take, List.length_drop]
  omega

/-- Put together they are the list between the first and the last position. -/
theorem Consecutive.flatten {first last : Nat} {slices : List (Nat × Nat)}
    (consecutive : Consecutive first slices last) :
    (slices.map (sub l)).flatten = (l.drop first).take (last - first) := by
  induction slices generalizing first with
  | nil =>
    obtain rfl : first = last := consecutive
    simp
  | cons slice slices ih =>
    obtain ⟨rfl, filled, rest⟩ := consecutive
    have order := rest.le
    rw [List.map_cons, List.flatten_cons, ih rest, sub]
    have split : last - slice.1 = (slice.2 - slice.1) + (last - slice.2) := by omega
    have behind : slice.2 = slice.1 + (slice.2 - slice.1) := by omega
    rw [split, List.take_add, List.drop_drop, ← behind]

/-- The slices from `r` on, the positions of the run before being like its first. -/
private theorem slicesFrom_spec {n r start : Nat} (count : r + n = l.length + 1)
    (begun : start < r ∧ r ≤ l.length ∨ start = l.length ∧ r = l.length + 1)
    (like : ∀ i, start < i → i < r → sameAt same l i start = true) :
    Consecutive start (slicesFrom same l n r start) l.length ∧
      ∀ slice ∈ slicesFrom same l n r start,
        (∀ i, slice.1 < i → i < slice.2 → sameAt same l i slice.1 = true) ∧
        sameAt same l slice.2 slice.1 = false := by
  induction n generalizing r start with
  | zero =>
    obtain ⟨-, inside⟩ | ⟨rfl, -⟩ := begun
    · omega
    · exact ⟨rfl, fun _ none_ => nomatch none_⟩
  | succ n ih =>
    obtain ⟨before, inside⟩ | ⟨-, beyond⟩ := begun
    · rw [slicesFrom]
      split
      · next goes_on =>
        have below : r < l.length := by
          by_contra past
          rw [sameAt, List.getElem?_eq_none (Nat.not_lt.mp past)] at goes_on
          cases goes_on
        refine ih (by omega) (.inl ⟨by omega, below⟩) fun i above upto => ?_
        rcases Nat.lt_succ_iff_lt_or_eq.mp upto with earlier | rfl
        · exact like i above earlier
        · exact goes_on
      · next ends =>
        have rest : r < r + 1 ∧ r + 1 ≤ l.length ∨ r = l.length ∧ r + 1 = l.length + 1 := by omega
        obtain ⟨consecutive, alike⟩ := ih (by omega) rest fun i above upto => by omega
        refine ⟨⟨rfl, before, consecutive⟩, fun slice listed => ?_⟩
        rcases List.mem_cons.mp listed with rfl | later
        · exact ⟨like, by simpa using ends⟩
        · exact alike slice later
    · omega

private theorem slices_spec (same : α → α → Bool) (l : List α) :
    Consecutive 0 (slices same l) l.length ∧
      ∀ slice ∈ slices same l,
        (∀ i, slice.1 < i → i < slice.2 → sameAt same l i slice.1 = true) ∧
        sameAt same l slice.2 slice.1 = false := by
  have begun : 0 < 1 ∧ 1 ≤ l.length ∨ 0 = l.length ∧ 1 = l.length + 1 := by omega
  exact slicesFrom_spec (Nat.add_comm 1 _) begun fun i above upto => by omega

theorem slices_consecutive : Consecutive 0 (slices same l) l.length := (slices_spec same l).1

theorem flatten_slices : ((slices same l).map (sub l)).flatten = l := by
  rw [slices_consecutive.flatten]
  simp

theorem getElem?_sub {slice : Nat × Nat} {i : Nat} (above : slice.1 ≤ i) (below : i < slice.2) :
    (sub l slice)[i - slice.1]? = l[i]? := by
  rw [sub, List.getElem?_take_of_lt (by omega), List.getElem?_drop, Nat.add_sub_cancel' above]

theorem mem_sub {slice : Nat × Nat} {a : α} :
    a ∈ sub l slice ↔ ∃ i, slice.1 ≤ i ∧ i < slice.2 ∧ l[i]? = some a := by
  rw [sub, List.mem_iff_getElem?]
  constructor
  · rintro ⟨i, found⟩
    rw [List.getElem?_take] at found
    split at found
    · exact ⟨slice.1 + i, by omega, by omega, by rwa [List.getElem?_drop] at found⟩
    · cases found
  · rintro ⟨i, above, below, found⟩
    exact ⟨i - slice.1, (getElem?_sub above below).trans found⟩

def Together (key : α → κ) (l : List α) : Prop :=
  ∀ (i j k : Nat) (a b c : α), i ≤ j → j ≤ k → l[i]? = some a → l[j]? = some b → l[k]? = some c →
    key a = key c → key a = key b

variable {key : α → κ}

private theorem sameAt_iff (by_key : ∀ a b, same a b = true ↔ key a = key b) {i j : Nat} {a b : α}
    (at_i : l[i]? = some a) (at_j : l[j]? = some b) :
    sameAt same l i j = true ↔ key a = key b := by
  rw [sameAt, at_i, at_j]
  exact by_key a b

private theorem key_of_slice (by_key : ∀ a b, same a b = true ↔ key a = key b)
    {slice : Nat × Nat} (listed : slice ∈ slices same l) {i : Nat} {a c : α}
    (above : slice.1 ≤ i) (below : i < slice.2) (at_i : l[i]? = some a)
    (first : l[slice.1]? = some c) : key a = key c := by
  rcases Nat.eq_or_lt_of_le above with same_place | later
  · rw [← same_place, first] at at_i
    cases at_i
    rfl
  · exact (sameAt_iff by_key at_i first).mp (((slices_spec same l).2 slice listed).1 i later below)

theorem same_slice_iff (by_key : ∀ a b, same a b = true ↔ key a = key b) (together : Together key l)
    {i j : Nat} {a b : α} (at_i : l[i]? = some a) (at_j : l[j]? = some b) :
    (∃ slice ∈ slices same l, (slice.1 ≤ i ∧ i < slice.2) ∧ slice.1 ≤ j ∧ j < slice.2) ↔
      key a = key b := by
  have first : ∀ slice ∈ slices same l, ∃ c, l[slice.1]? = some c := by
    intro slice listed
    obtain ⟨-, filled, below⟩ := slices_consecutive.within listed
    exact ⟨_, List.getElem?_eq_getElem (by omega)⟩
  constructor
  · rintro ⟨slice, listed, ⟨above_i, below_i⟩, above_j, below_j⟩
    obtain ⟨c, at_first⟩ := first slice listed
    exact (key_of_slice by_key listed above_i below_i at_i at_first).trans
      (key_of_slice by_key listed above_j below_j at_j at_first).symm
  · -- the slice of the earlier position goes on at least to the later one
    have ordered : ∀ {i j : Nat} {a b : α}, i ≤ j → l[i]? = some a → l[j]? = some b →
        key a = key b → ∃ slice ∈ slices same l,
          (slice.1 ≤ i ∧ i < slice.2) ∧ slice.1 ≤ j ∧ j < slice.2 := by
      intro i j a b upto at_i at_j equal
      obtain ⟨slice, listed, above, below⟩ :=
        (slices_spec same l).1.exists_slice (Nat.zero_le i) (List.getElem?_eq_some_iff.mp at_i).1
      refine ⟨slice, listed, ⟨above, below⟩, by omega, ?_⟩
      by_contra past
      have inside : slice.2 < l.length := by
        have bound := (List.getElem?_eq_some_iff.mp at_j).1
        omega
      obtain ⟨c, at_first⟩ := first slice listed
      have at_cut : l[slice.2]? = some l[slice.2] := List.getElem?_eq_getElem inside
      have of_cut := together i slice.2 j a _ b (by omega) (by omega) at_i at_cut at_j equal
      have of_first := key_of_slice by_key listed above below at_i at_first
      have cut := ((slices_spec same l).2 slice listed).2
      rw [(sameAt_iff by_key at_cut at_first).mpr (of_cut.symm.trans of_first)] at cut
      cases cut
    intro equal
    rcases Nat.le_total i j with upto | upto
    · exact ordered upto at_i at_j equal
    · obtain ⟨slice, listed, inside_j, inside_i⟩ := ordered upto at_j at_i equal.symm
      exact ⟨slice, listed, inside_i, inside_j⟩

end CodeGraph.Runs
