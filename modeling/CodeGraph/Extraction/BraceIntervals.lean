import CodeGraph.Foundation.PartitionPoint

/-!
# Intervals that nest

The two `NestedIntervals`, of the extractor and of the kernel. Each interval has the index of the
innermost earlier one that holds its opening, and lookups follow these indices.
-/
namespace CodeGraph.Extraction.BraceIntervals

/-- The interval `(open, close)` of a call of `add`, with its value. -/
structure Interval (α T : Type) where
  open_ : α
  close : α
  value : T
  deriving DecidableEq, Repr

variable {α T : Type} [LinearOrder α]

/-- The fields of both; there is no parent where the extractor's is -1. -/
structure NestedIntervals (α T : Type) where
  opens : List α := []
  closes : List α := []
  parents : List (Option Nat) := []
  values : List T := []

def searchFrom (opens : List α) (offset : α) : Nat → Int → Int → Option Nat → Option Nat
  | 0, _, _, k => k
  | fuel + 1, lo, hi, k =>
    if lo ≤ hi then
      let mid := (lo + hi) / 2
      if opens[mid.toNat]?.any (· < offset) then searchFrom opens offset fuel (mid + 1) hi (some mid.toNat)
      else searchFrom opens offset fuel lo (mid - 1) k
    else k

def search (opens : List α) (offset : α) : Option Nat :=
  searchFrom opens offset opens.length 0 (opens.length - 1) none

def lastOpened (opens : List α) (offset : α) : Option Nat :=
  let count := PartitionPoint.partitionPoint (· < offset) opens
  if count = 0 then none else some (count - 1)

namespace NestedIntervals

variable (last : List α → α → Option Nat) (s : NestedIntervals α T)

def climb (offset : α) : Nat → Option Nat → Option Nat
  | fuel + 1, some k => if s.closes[k]?.any (· ≤ offset) then climb offset fuel s.parents[k]?.join
      else some k
  | _, k => k

/-- `last` finds the last interval that opens before an offset. -/
def innermost (offset : α) : Option Nat := s.climb offset s.opens.length (last s.opens offset)

def add (i : Interval α T) : NestedIntervals α T × Bool :=
  if i.close ≤ i.open_ ∨ s.opens.getLast?.any (i.open_ ≤ ·) then (s, false)
  else
    let parent := s.innermost last i.open_
    if (parent.bind (s.closes[·]?)).any (· ≤ i.close) then (s, false)
    else (⟨s.opens ++ [i.open_], s.closes ++ [i.close], s.parents ++ [parent], s.values ++ [i.value]⟩, true)

/-- The loop of `at`, from an interval outwards. -/
def outwards : Nat → Option Nat → List T
  | fuel + 1, some k => s.values[k]?.toList ++ outwards fuel s.parents[k]?.join
  | _, _ => []

def at_ (offset : α) : List T := (s.outwards s.opens.length (s.innermost last offset)).reverse

end NestedIntervals

/-- The last index below `n` for which a test holds. -/
def lastBelow (p : Nat → Bool) : Nat → Option Nat
  | 0 => none
  | n + 1 => if p n then some n else lastBelow p n

variable {p q : Nat → Bool} {m n j : Nat}

theorem lastBelow_some (found : lastBelow p n = some j) :
    j < n ∧ p j = true ∧ ∀ k, j < k → k < n → p k = false := by
  induction n with
  | zero => cases found
  | succ n ih =>
    rw [lastBelow] at found
    split at found
    · next holds =>
      cases found
      exact ⟨Nat.lt_succ_self j, holds, fun k _ _ => by omega⟩
    · next fails =>
      obtain ⟨less, holds, none_⟩ := ih found
      refine ⟨by omega, holds, fun k later within_ => ?_⟩
      rcases Nat.lt_succ_iff_lt_or_eq.mp within_ with before | rfl
      · exact none_ k later before
      · exact Bool.eq_false_iff.mpr fails

theorem lastBelow_skip (le : m ≤ n) (none_ : ∀ j, m ≤ j → j < n → p j = false) :
    lastBelow p n = lastBelow p m := by
  induction n with
  | zero => rw [Nat.le_zero.mp le]
  | succ n ih =>
    rcases Nat.le_succ_iff.mp le with before | rfl
    · rw [lastBelow, if_neg (by rw [none_ n before (Nat.lt_succ_self n)]; exact Bool.false_ne_true)]
      exact ih before fun j later less => none_ j later (Nat.lt_succ_of_lt less)
    · rfl

theorem lastBelow_congr (same : ∀ j, j < n → p j = q j) : lastBelow p n = lastBelow q n := by
  induction n with
  | zero => rfl
  | succ n ih =>
    rw [lastBelow, lastBelow, same n (Nat.lt_succ_self n), ih fun j less => same j (Nat.lt_succ_of_lt less)]

theorem lastBelow_none (none_ : lastBelow p n = none) : ∀ j, j < n → p j = false := by
  induction n with
  | zero => exact fun j less => absurd less (Nat.not_lt_zero j)
  | succ n ih =>
    rw [lastBelow] at none_
    split at none_
    · cases none_
    · next fails =>
      intro j less
      rcases Nat.lt_succ_iff_lt_or_eq.mp less with before | rfl
      · exact ih none_ j before
      · exact Bool.eq_false_iff.mpr fails

def before : Nat → Option Nat
  | 0 => none
  | n + 1 => some n

def FindsLast (last : List α → α → Option Nat) : Prop :=
  ∀ (front back : List α) (x : α), (∀ a ∈ front, a < x) → (∀ a ∈ back, ¬a < x) →
    last (front ++ back) x = before front.length

theorem searchFrom_eq {front back : List α} {x : α} (all : ∀ a ∈ front, a < x) (none_ : ∀ a ∈ back, ¬a < x)
    {fuel lo : Nat} {hi : Int} (enough : hi + 1 - lo ≤ fuel) (above : lo ≤ front.length)
    (below : front.length ≤ hi + 1) :
    searchFrom (front ++ back) x fuel lo hi (before lo) = before front.length := by
  have holds (i : Nat) : ((front ++ back)[i]?.any (· < x)) = true ↔ i < front.length :=
    PartitionPoint.holds_iff (fun a listed => decide_eq_true (all a listed))
      (fun a listed => decide_eq_false (none_ a listed)) i
  induction fuel generalizing lo hi with
  | zero =>
    obtain rfl : lo = front.length := by omega
    rfl
  | succ fuel ih =>
    rw [searchFrom]
    split
    · obtain ⟨mid, is⟩ := Int.eq_ofNat_of_zero_le (show 0 ≤ (lo + hi) / 2 by omega)
      simp only [is, Int.toNat_natCast, holds]
      split
      · next here => exact @ih (mid + 1) hi (by omega) here below
      · next later => exact ih (by omega) above (by omega)
    · obtain rfl : lo = front.length := by omega
      rfl

theorem search_finds : FindsLast (search (α := α)) := by
  intro front back x all none_
  have length : (front ++ back).length = front.length + back.length := List.length_append
  exact @searchFrom_eq α _ front back x all none_ _ 0 _ (by omega) (by omega) (by omega)

theorem lastOpened_finds : FindsLast (lastOpened (α := α)) := by
  intro front back x all none_
  have count := PartitionPoint.partitionPoint_append (fun a listed => decide_eq_true (all a listed))
    fun a listed => decide_eq_false (none_ a listed)
  rw [lastOpened, count]
  cases front <;> rfl

def past (xs : List (Interval α T)) (x : α) (j : Nat) : Bool := xs[j]?.any (x < ·.close)

/-- The intervals open one after another, each inside the earlier ones that are open there. -/
structure Nested (xs : List (Interval α T)) (parents : List (Option Nat)) : Prop where
  proper : ∀ i ∈ xs, i.open_ < i.close
  increasing : xs.Pairwise (·.open_ < ·.open_)
  inside : xs.Pairwise fun i j => j.open_ < i.close → j.close < i.close
  length : parents.length = xs.length
  parent : ∀ {k i}, xs[k]? = some i → parents[k]? = some (lastBelow (past xs i.open_) k)

variable {xs : List (Interval α T)} {parents : List (Option Nat)} {i : Interval α T} {x : α} {k fuel : Nat}

theorem Nested.order (nested : Nested xs parents) {i j : Interval α T} {a b : Nat} (first : xs[a]? = some i)
    (second : xs[b]? = some j) (less : a < b) :
    i.open_ < j.open_ ∧ (j.open_ < i.close → j.close < i.close) := by
  obtain ⟨shorta, rfl⟩ := List.getElem?_eq_some_iff.mp first
  obtain ⟨shortb, rfl⟩ := List.getElem?_eq_some_iff.mp second
  exact ⟨List.pairwise_iff_getElem.mp nested.increasing a b shorta shortb less,
    List.pairwise_iff_getElem.mp nested.inside a b shorta shortb less⟩

theorem past_false_of_le {y : α} (le : y ≤ x) (fails : past xs y j = false) : past xs x j = false := by
  rw [past] at fails ⊢
  cases found : xs[j]? with
  | none => rfl
  | some i =>
    simp only [found, Option.any_some, decide_eq_false_iff_not, not_lt] at fails ⊢
    exact fails.trans le

/-- From the last interval that opens before an offset, the parents lead to the last one that holds
it. -/
theorem Nested.climb {s : NestedIntervals α T} (nested : Nested xs s.parents)
    (closes : s.closes = xs.map (·.close))
    (within_ : n ≤ xs.length) (enough : n ≤ fuel) (opened : ∀ i ∈ xs.take n, i.open_ < x) :
    s.climb x fuel (before n) = lastBelow (past xs x) n := by
  induction n using Nat.strongRecOn generalizing fuel with
  | ind n ih =>
    cases n with
    | zero => cases fuel <;> rfl
    | succ n =>
      obtain ⟨fuel, rfl⟩ : ∃ m, fuel = m + 1 := ⟨fuel - 1, by omega⟩
      have here : xs[n]? = some xs[n] := List.getElem?_eq_getElem within_
      have opens : xs[n].open_ < x := opened _ (List.mem_take_iff_getElem.mpr ⟨n, by omega, rfl⟩)
      have same : s.closes[n]?.any (· ≤ x) = !past xs x n := by
        rw [closes, List.getElem?_map, past, here, Option.map_some, Option.any_some, Option.any_some,
          ← decide_not, decide_eq_decide, not_lt]
      rw [before, NestedIntervals.climb, same, lastBelow]
      cases holds : past xs x n with
      | true => rfl
      | false =>
      rw [Bool.not_false, if_pos rfl, if_neg Bool.false_ne_true, nested.parent here, Option.join_some]
      cases parent : lastBelow (past xs xs[n].open_) n with
      | none =>
        have none_ : ∀ j, 0 ≤ j → j < n → past xs x j = false := fun j _ less =>
          past_false_of_le opens.le (lastBelow_none parent j less)
        rw [lastBelow_skip (Nat.zero_le n) none_]
        cases fuel <;> rfl
      | some p =>
        obtain ⟨less, -, beside⟩ := lastBelow_some parent
        rw [lastBelow_skip (show p + 1 ≤ n by omega) fun j later less =>
          past_false_of_le opens.le (beside j later less)]
        exact ih (p + 1) (by omega) (by omega) (by omega) fun i listed =>
          opened i (List.take_subset_take_left xs (show p + 1 ≤ n + 1 by omega) listed)

/-- The parents of an interval that holds an offset are the other ones that hold it. -/
theorem Nested.outwards {s : NestedIntervals α T} (nested : Nested xs s.parents)
    (values : s.values = xs.map (·.value)) (within_ : n ≤ xs.length) (enough : n ≤ fuel)
    (opened : ∀ i ∈ xs.take n, i.open_ < x) :
    (s.outwards fuel (lastBelow (past xs x) n)).reverse =
      ((xs.take n).filter (x < ·.close)).map (·.value) := by
  induction n generalizing fuel with
  | zero => cases fuel <;> rfl
  | succ n ih =>
    have here : xs[n]? = some xs[n] := List.getElem?_eq_getElem within_
    have opens : xs[n].open_ < x := opened _ (List.mem_take_iff_getElem.mpr ⟨n, by omega, rfl⟩)
    have opened' : ∀ i ∈ xs.take n, i.open_ < x := fun i listed =>
      opened i (List.take_subset_take_left xs (Nat.le_succ n) listed)
    have last : past xs x n = decide (x < xs[n].close) := by rw [past, here, Option.any_some]
    rw [lastBelow, List.take_add_one, here, Option.toList_some, List.filter_append, List.map_append]
    by_cases holds : x < xs[n].close
    · have one : [xs[n]].filter (x < ·.close) = [xs[n]] := List.filter_eq_self.mpr (by simpa using holds)
      obtain ⟨fuel, rfl⟩ : ∃ m, fuel = m + 1 := ⟨fuel - 1, by omega⟩
      have same : lastBelow (past xs xs[n].open_) n = lastBelow (past xs x) n := by
        refine lastBelow_congr fun j less => ?_
        have found : xs[j]? = some xs[j] := List.getElem?_eq_getElem (by omega)
        rw [past, past, found, Option.any_some, Option.any_some, decide_eq_decide]
        exact ⟨fun open_ => holds.trans ((nested.order found here less).2 open_), opens.trans⟩
      rw [last, if_pos (decide_eq_true holds), NestedIntervals.outwards, values, List.getElem?_map, here,
        nested.parent here, Option.join_some, same, List.reverse_append,
        ih (Nat.le_of_succ_le within_) (by omega) opened', one]
      rfl
    · have none_ : [xs[n]].filter (x < ·.close) = [] := List.filter_eq_nil_iff.mpr (by simpa using holds)
      rw [last, if_neg (by simpa using holds), ih (Nat.le_of_succ_le within_) (by omega) opened', none_]
      exact (List.append_nil _).symm

/-! ### Lookups -/

theorem Nested.split (nested : Nested xs parents) (x : α) : ∃ n ≤ xs.length,
    (∀ i ∈ xs.take n, i.open_ < x) ∧ ∀ i ∈ xs.drop n, ¬i.open_ < x := by
  have sorted := nested.increasing
  clear nested
  induction xs with
  | nil => exact ⟨0, Nat.le_refl 0, by simp, by simp⟩
  | cons i xs ih =>
    obtain ⟨later, sorted⟩ := List.pairwise_cons.mp sorted
    obtain ⟨n, le, opened, rest⟩ := ih sorted
    by_cases first : i.open_ < x
    · refine ⟨n + 1, Nat.succ_le_succ le, ?_, rest⟩
      intro j listed
      rcases List.mem_cons.mp listed with rfl | more
      · exact first
      · exact opened j more
    · refine ⟨0, Nat.zero_le _, by simp, ?_⟩
      intro j listed
      rcases List.mem_cons.mp listed with rfl | more
      · exact first
      · exact fun less => first ((later j more).trans less)

theorem filter_take (opened : ∀ i ∈ xs.take n, i.open_ < x) (rest : ∀ i ∈ xs.drop n, ¬i.open_ < x) :
    (xs.take n).filter (x < ·.close) = xs.filter fun i => i.open_ < x ∧ x < i.close := by
  conv_rhs => rw [← List.take_append_drop n xs, List.filter_append]
  have none_ : (xs.drop n).filter (fun i => i.open_ < x ∧ x < i.close) = [] :=
    List.filter_eq_nil_iff.mpr fun i listed => by simpa using fun less => absurd less (rest i listed)
  rw [none_, List.append_nil]
  exact List.filter_congr fun i listed => by simp [opened i listed]

structure Holds (s : NestedIntervals α T) (xs : List (Interval α T)) : Prop where
  opens : s.opens = xs.map (·.open_)
  closes : s.closes = xs.map (·.close)
  values : s.values = xs.map (·.value)
  nested : Nested xs s.parents

namespace Holds

variable {s : NestedIntervals α T} {last : List α → α → Option Nat}

theorem length (holds : Holds s xs) : xs.length ≤ s.opens.length :=
  Nat.le_of_eq (by rw [holds.opens, List.length_map])

theorem innermost (holds : Holds s xs) (finds : FindsLast last) (le : n ≤ xs.length)
    (opened : ∀ i ∈ xs.take n, i.open_ < x) (rest : ∀ i ∈ xs.drop n, ¬i.open_ < x) :
    s.innermost last x = lastBelow (past xs x) n := by
  have parts : s.opens = (xs.take n).map (·.open_) ++ (xs.drop n).map (·.open_) := by
    rw [← List.map_append, List.take_append_drop, holds.opens]
  have start := finds _ _ x (List.forall_mem_map.mpr opened) (List.forall_mem_map.mpr rest)
  rw [← parts, List.length_map, List.length_take, Nat.min_eq_left le] at start
  rw [NestedIntervals.innermost, start]
  exact holds.nested.climb holds.closes le (Nat.le_trans le holds.length) opened

/-- Behind all openings the search is for the last interval that is not closed. -/
theorem innermost_last (holds : Holds s xs) (finds : FindsLast last) (behind : ∀ j ∈ xs, j.open_ < x) :
    s.innermost last x = lastBelow (past xs x) xs.length :=
  holds.innermost finds (Nat.le_refl _) (by rwa [List.take_length])
    (by rw [List.drop_length]; exact fun _ listed => absurd listed List.not_mem_nil)

theorem at_ (holds : Holds s xs) (finds : FindsLast last) (x : α) :
    s.at_ last x = (xs.filter fun i => i.open_ < x ∧ x < i.close).map (·.value) := by
  obtain ⟨n, le, opened, rest⟩ := holds.nested.split x
  rw [NestedIntervals.at_, holds.innermost finds le opened rest,
    holds.nested.outwards holds.values le (Nat.le_trans le holds.length) opened, filter_take opened rest]

/-- An interval that opens behind the others is refused if it closes behind one that holds it. -/
theorem crosses (holds : Holds s xs) (finds : FindsLast last) (i : Interval α T)
    (behind : ∀ j ∈ xs, j.open_ < i.open_) :
    ((s.innermost last i.open_).bind (s.closes[·]?)).any (· ≤ i.close) = true ↔
      ∃ j ∈ xs, j.open_ < i.open_ ∧ i.open_ < j.close ∧ j.close ≤ i.close := by
  have closes : ∀ p : Nat, s.closes[p]? = xs[p]?.map Interval.close := by
    intro p
    rw [holds.closes, List.getElem?_map]
  rw [holds.innermost_last finds behind]
  cases parent : lastBelow (past xs i.open_) xs.length with
  | none =>
    refine iff_of_false Bool.false_ne_true ?_
    rintro ⟨j, listed, -, inside, -⟩
    obtain ⟨a, there⟩ := List.mem_iff_getElem?.mp listed
    have fails := lastBelow_none parent a (List.getElem?_eq_some_iff.mp there).1
    simp only [past, there, Option.any_some, decide_eq_false_iff_not] at fails
    exact fails inside
  | some p =>
    obtain ⟨less, open_, beside⟩ := lastBelow_some parent
    have here : xs[p]? = some xs[p] := List.getElem?_eq_getElem less
    simp only [past, here, Option.any_some, decide_eq_true_eq] at open_
    rw [Option.bind_some, closes, here, Option.map_some, Option.any_some, decide_eq_true_eq]
    constructor
    · exact fun crossed => ⟨xs[p], List.getElem_mem less, behind _ (List.getElem_mem less), open_, crossed⟩
    · rintro ⟨j, listed, -, inside, crossed⟩
      obtain ⟨a, there⟩ := List.mem_iff_getElem?.mp listed
      rcases Nat.lt_trichotomy a p with outer | rfl | inner
      · have within_ := (holds.nested.order there here outer).2
        have deeper := within_ ((behind _ (List.getElem_mem less)).trans inside)
        exact (deeper.le).trans crossed
      · obtain rfl := Option.some.inj (here.symm.trans there)
        exact crossed
      · have fails := beside a inner (List.getElem?_eq_some_iff.mp there).1
        simp only [past, there, Option.any_some, decide_eq_false_iff_not] at fails
        exact absurd inside fails

theorem last_iff (holds : Holds s xs) (x : α) :
    s.opens.getLast?.any (x ≤ ·) = true ↔ ∃ last ∈ xs.getLast?, x ≤ last.open_ := by
  rw [holds.opens, List.getLast?_map, Option.any_map, Option.any_eq_true]
  simp only [decide_eq_true_eq, Option.mem_def]

theorem behind (holds : Holds s xs) {i : Interval α T}
    (later : ¬∃ last ∈ xs.getLast?, i.open_ ≤ last.open_) :
    ∀ j ∈ xs, j.open_ < i.open_ := by
  have sorted := holds.nested.increasing
  rcases List.eq_nil_or_concat xs with rfl | ⟨front, last, rfl⟩
  · exact fun _ listed => absurd listed List.not_mem_nil
  · rw [List.concat_eq_append] at later sorted ⊢
    have less : last.open_ < i.open_ := lt_of_not_ge fun le => later ⟨last, by simp, le⟩
    intro j listed
    rcases mem_snoc.mp listed with old | new
    · exact ((List.pairwise_append.mp sorted).2.2 j old last (List.mem_singleton_self last)).trans less
    · rwa [new]

end Holds

/-- What the rules of `add` refuse, after the intervals that were accepted. -/
def Refused (xs : List (Interval α T)) (i : Interval α T) : Prop :=
  i.close ≤ i.open_ ∨ (∃ last ∈ xs.getLast?, i.open_ ≤ last.open_) ∨
    ∃ j ∈ xs, j.open_ < i.open_ ∧ i.open_ < j.close ∧ j.close ≤ i.close

theorem Nested.append (nested : Nested xs parents) (accepted : ¬Refused xs i)
    (last : ∀ j ∈ xs, j.open_ < i.open_) :
    Nested (xs ++ [i]) (parents ++ [lastBelow (past xs i.open_) xs.length]) := by
  have old : ∀ (x : α) (k : Nat), k ≤ xs.length →
      lastBelow (past (xs ++ [i]) x) k = lastBelow (past xs x) k := fun x k le =>
    lastBelow_congr fun j less => by rw [past, past, List.getElem?_append_left (by omega)]
  constructor
  · exact forall_snoc nested.proper (lt_of_not_ge fun empty => accepted (.inl empty))
  · exact List.pairwise_append.mpr ⟨nested.increasing, List.pairwise_singleton _ _, fun j listed k new => by
      rw [List.mem_singleton.mp new]
      exact last j listed⟩
  · refine List.pairwise_append.mpr ⟨nested.inside, List.pairwise_singleton _ _,
      fun j listed k new inside => ?_⟩
    obtain rfl := List.mem_singleton.mp new
    exact lt_of_not_ge fun crossed => accepted (.inr (.inr ⟨j, listed, last j listed, inside, crossed⟩))
  · rw [List.length_append, List.length_append, nested.length]
    rfl
  · intro k j found
    rcases Nat.lt_or_ge k xs.length with less | le
    · rw [List.getElem?_append_left less] at found
      rw [List.getElem?_append_left (by rwa [nested.length]), old _ k (Nat.le_of_lt less),
        nested.parent found]
    · rw [List.getElem?_append_right le, List.getElem?_singleton] at found
      split at found
      · cases found
        obtain rfl : k = xs.length := by omega
        rw [List.getElem?_append_right (Nat.le_of_eq nested.length), nested.length, Nat.sub_self,
          old _ _ (Nat.le_refl _)]
        rfl
      · cases found

/-- `add` refuses by the rules and keeps what it accepts. -/
theorem Holds.add {s : NestedIntervals α T} {last : List α → α → Option Nat} (holds : Holds s xs)
    (finds : FindsLast last) (i : Interval α T) : ((s.add last i).2 = false ↔ Refused xs i) ∧
      Holds (s.add last i).1 (if (s.add last i).2 then xs ++ [i] else xs) := by
  rw [NestedIntervals.add]
  split
  · next early =>
    rw [holds.last_iff] at early
    exact ⟨iff_of_true rfl (early.imp_right .inl), holds⟩
  · next late =>
    rw [holds.last_iff, not_or] at late
    have behind := holds.behind late.2
    simp only
    split
    · next crossed =>
        exact ⟨iff_of_true rfl (.inr (.inr ((holds.crosses finds i behind).mp crossed))), holds⟩
    · next inside =>
      rw [holds.crosses finds i behind] at inside
      have accepted : ¬Refused xs i := by
        rintro (empty | early | crossed)
        · exact late.1 empty
        · exact late.2 early
        · exact inside crossed
      refine ⟨iff_of_false Bool.noConfusion accepted, ?_, ?_, ?_, ?_⟩
      · simp [holds.opens]
      · simp [holds.closes]
      · simp [holds.values]
      · simp only [if_true, holds.innermost_last finds behind]
        exact holds.nested.append accepted behind

def after (last : List α → α → Option Nat) (calls : List (Interval α T)) :
    NestedIntervals α T × List (Interval α T) :=
  calls.foldl (fun (s, accepted) i =>
    let (t, answer) := s.add last i
    (t, if answer then accepted ++ [i] else accepted)) ({}, [])

theorem after_holds {last : List α → α → Option Nat} (finds : FindsLast last)
    (calls : List (Interval α T)) :
    Holds (after last calls).1 (after last calls).2 := by
  induction calls using List.reverseRecOn with
  | nil => exact ⟨rfl, rfl, rfl, ⟨nofun, .nil, .nil, rfl, nofun⟩⟩
  | append_singleton calls i ih =>
    rw [after, List.foldl_append]
    exact (ih.add finds i).2

/-- The accepted intervals are nested or apart, the others are refused by the rules, and a lookup
gives those that hold the offset, the outermost first. -/
structure Exact (last : List α → α → Option Nat) (s : NestedIntervals α T)
    (accepted : List (Interval α T)) :
    Prop where
  laminar : accepted.Pairwise fun i j => i.open_ < j.open_ ∧ (j.close < i.close ∨ i.close ≤ j.open_)
  refused : ∀ i, (s.add last i).2 = false ↔ Refused accepted i
  at_ : ∀ x, s.at_ last x = (accepted.filter fun i => i.open_ < x ∧ x < i.close).map (·.value)
  outermost : ∀ x, (accepted.filter fun i => i.open_ < x ∧ x < i.close).Pairwise fun i j =>
    i.open_ < j.open_ ∧ j.close < i.close

theorem Holds.exact {s : NestedIntervals α T} {last : List α → α → Option Nat} (holds : Holds s xs)
    (finds : FindsLast last) : Exact last s xs where
  laminar := by
    refine (holds.nested.increasing.and holds.nested.inside).imp fun {i j} both => ⟨both.1, ?_⟩
    rcases lt_or_ge j.open_ i.close with open_ | apart
    · exact .inl (both.2 open_)
    · exact .inr apart
  refused i := (holds.add finds i).1
  at_ := holds.at_ finds
  outermost x := by
    have inner := (holds.nested.increasing.and holds.nested.inside).filter fun i => i.open_ < x ∧
      x < i.close
    refine inner.imp_of_mem fun {i j} first second both => ⟨both.1, both.2 ?_⟩
    have outer := (List.mem_filter.mp first).2
    have deeper := (List.mem_filter.mp second).2
    simp only [decide_eq_true_eq] at outer deeper
    exact deeper.1.trans outer.2

/-- Both lists of intervals, after any calls. -/
theorem nestedIntervals_exact (calls : List (Interval α T)) :
    Exact search (after search calls).1 (after search calls).2 ∧
      Exact lastOpened (after lastOpened calls).1 (after lastOpened calls).2 :=
  ⟨(after_holds search_finds calls).exact search_finds,
    (after_holds lastOpened_finds calls).exact lastOpened_finds⟩

end CodeGraph.Extraction.BraceIntervals
