import CodeGraph.Foundation.Decisions

/-!
# Sorting by comparisons

A stable sort by a comparison of rows that another comparison has put in order orders them by both.
-/
namespace CodeGraph.OrderBy

open Std

variable {α β : Type} {cmp tie : α → α → Ordering} {xs ys : List α} {x : α}

def AtMost (cmp : α → α → Ordering) (a b : α) : Prop := (cmp a b).isLE = true

instance : DecidableRel (AtMost cmp) := fun _ _ => inferInstanceAs (Decidable (_ = _))

def sortBy (cmp : α → α → Ordering) (xs : List α) : List α := xs.insertionSort (AtMost cmp)

theorem sortBy_perm : (sortBy cmp xs).Perm xs := List.perm_insertionSort _ _

theorem mem_sortBy : x ∈ sortBy cmp xs ↔ x ∈ xs := List.mem_insertionSort _

theorem sortBy_sorted [TransCmp cmp] : (sortBy cmp xs).Pairwise (AtMost cmp) := by
  have total : Std.Total (AtMost cmp) := ⟨fun a b => by
    by_cases le : (cmp a b).isLE
    · exact Or.inl le
    · exact Or.inr (Ordering.isLE_of_eq_lt (OrientedCmp.lt_of_not_isLE le))⟩
  have trans_ : IsTrans α (AtMost cmp) := ⟨fun _ _ _ => TransCmp.isLE_trans⟩
  exact List.pairwise_insertionSort _ _

def Separates (cmp : α → α → Ordering) (xs : List α) : Prop :=
  ∀ a ∈ xs, ∀ b ∈ xs, cmp a b = .eq → a = b

theorem Separates.subset (separates : Separates cmp xs) (sub : ys ⊆ xs) : Separates cmp ys :=
  fun a first b second => separates a (sub first) b (sub second)

theorem Separates.lex (separates : Separates tie xs) : Separates (compareLex cmp tie) xs :=
  fun a first b second same => separates a first b second (compareLex_eq_eq.mp same).2

theorem sortBy_unique [TransCmp cmp] (separates : Separates cmp xs) (perm : ys.Perm xs)
    (sorted : ys.Pairwise (AtMost cmp)) : ys = sortBy cmp xs := by
  apply List.Perm.eq_of_pairwise _ sorted sortBy_sorted (perm.trans sortBy_perm.symm)
  intro a b first second le ge
  exact separates a (perm.mem_iff.mp first) b (mem_sortBy.mp second)
    (OrientedCmp.isLE_antisymm le ge)

theorem sortBy_filter [TransCmp cmp] (separates : Separates cmp xs) (p : α → Bool) :
    sortBy cmp (xs.filter p) = (sortBy cmp xs).filter p := by
  symm
  apply sortBy_unique (separates.subset (List.filter_subset_self xs))
  · exact sortBy_perm.filter p
  · exact sortBy_sorted.filter p

theorem atMost_lex {a b : α} : AtMost (compareLex cmp tie) a b ↔
    AtMost cmp a b ∧ (cmp a b = .lt ∨ AtMost tie a b) :=
  Ordering.isLE_then_iff_and

theorem orderedInsert_lex [TransCmp cmp] (sorted : xs.Pairwise (AtMost (compareLex cmp tie)))
    (first : ∀ b ∈ xs, AtMost tie x b) :
    (xs.orderedInsert (AtMost cmp) x).Pairwise (AtMost (compareLex cmp tie)) := by
  induction xs with
  | nil => exact List.pairwise_singleton _ _
  | cons b xs ih =>
    obtain ⟨head, tail⟩ := List.pairwise_cons.mp sorted
    rw [List.orderedInsert_cons]
    split
    next le =>
      refine List.pairwise_cons.mpr ⟨fun c listed => ?_, sorted⟩
      refine atMost_lex.mpr ⟨?_, Or.inr (first c listed)⟩
      rcases List.mem_cons.mp listed with rfl | later
      · exact le
      · exact TransCmp.isLE_trans le (atMost_lex.mp (head c later)).1
    next gt =>
      have lt : cmp b x = .lt := OrientedCmp.lt_of_not_isLE gt
      have rest := ih tail fun c listed => first c (List.mem_cons_of_mem b listed)
      refine List.pairwise_cons.mpr ⟨fun c listed => ?_, rest⟩
      rcases (List.mem_orderedInsert _).mp listed with rfl | later
      · exact atMost_lex.mpr ⟨Ordering.isLE_of_eq_lt lt, Or.inl lt⟩
      · exact head c later

/-- Sorting by a comparison what another one has put in order sorts by both. -/
theorem sortBy_sortBy [TransCmp cmp] [TransCmp tie] (separates : Separates tie xs) :
    sortBy cmp (sortBy tie xs) = sortBy (compareLex cmp tie) xs := by
  apply sortBy_unique separates.lex (sortBy_perm.trans sortBy_perm)
  have sorted : (sortBy tie xs).Pairwise (AtMost tie) := sortBy_sorted
  generalize sortBy tie xs = ys at sorted
  induction ys with
  | nil => exact List.Pairwise.nil
  | cons x ys ih =>
    obtain ⟨first, later⟩ := List.pairwise_cons.mp sorted
    exact orderedInsert_lex (ih later) fun b listed => first b (mem_sortBy.mp listed)

theorem sortBy_map (f : β → α) (xs : List β) :
    sortBy cmp (xs.map f) = (sortBy (fun a b => cmp (f a) (f b)) xs).map f := by
  have same : ∀ a ∈ xs, ∀ b ∈ xs,
      AtMost (fun a b => cmp (f a) (f b)) a b ↔ AtMost cmp (f a) (f b) :=
    fun _ _ _ _ => Iff.rfl
  exact (List.map_insertionSort _ _ f xs same).symm

end CodeGraph.OrderBy

/-!
# The first match of a stable sort

The first element with a property in a stably sorted list: the least of those that have it, and of
equals the one that came first.
-/
namespace CodeGraph.StableSort

variable {α : Type} {r : α → α → Prop} [DecidableRel r] {p : α → Bool} {xs before after : List α}
  {x : α}

theorem find?_orderedInsert_of_not (plain : p x = false) :
    (xs.orderedInsert r x).find? p = xs.find? p := by
  rw [List.orderedInsert_eq_take_drop, List.find?_append, List.find?_cons_of_neg (by simp [plain]),
    ← List.find?_append, List.takeWhile_append_dropWhile]

theorem find?_orderedInsert_of_least (here : p x = true) (least : ∀ y ∈ xs, p y = true → r x y) :
    (xs.orderedInsert r x).find? p = some x := by
  have skipped : (xs.takeWhile fun y => ¬r x y).find? p = none := by
    rw [List.find?_eq_none]
    intro y listed matched
    have later : ¬r x y := by simpa using List.mem_takeWhile_imp listed
    exact later (least y ((List.takeWhile_prefix _).subset listed) matched)
  rw [List.orderedInsert_eq_take_drop, List.find?_append, skipped, Option.none_or,
    List.find?_cons_of_pos here]

theorem find?_orderedInsert_of_later {a : α} [IsTrans α r] (sorted : xs.Pairwise r)
    (found : xs.find? p = some x) (later : ¬r a x) : (xs.orderedInsert r a).find? p = some x := by
  induction xs with
  | nil => cases found
  | cons y xs ih =>
    have behind : ∀ z ∈ xs, r y z := (List.pairwise_cons.mp sorted).1
    rw [List.find?_cons] at found
    rw [List.orderedInsert_cons]
    cases matched : p y with
    | true =>
      rw [matched] at found
      cases found
      rw [if_neg later, List.find?_cons_of_pos matched]
    | false =>
      rw [matched] at found
      have not_before : ¬r a y := fun first =>
        later (IsTrans.trans a y x first (behind x (List.mem_of_find?_eq_some found)))
      rw [if_neg not_before, List.find?_cons_of_neg (by simp [matched])]
      exact ih sorted.of_cons found

/-- The first match of the sorted list is the one before which every match comes later, and after
which none comes earlier. -/
theorem find?_insertionSort [IsTrans α r] [Std.Total r] (here : p x = true)
    (later : ∀ y ∈ before, p y = true → ¬r y x) (least : ∀ y ∈ after, p y = true → r x y) :
    ((before ++ x :: after).insertionSort r).find? p = some x := by
  induction before with
  | nil =>
    rw [List.nil_append, List.insertionSort_cons]
    refine find?_orderedInsert_of_least here fun y listed => least y ?_
    exact (List.mem_insertionSort r).mp listed
  | cons y before ih =>
    have found := ih fun z listed => later z (List.mem_cons_of_mem y listed)
    rw [List.cons_append, List.insertionSort_cons]
    cases matched : p y with
    | true =>
      exact find?_orderedInsert_of_later (List.pairwise_insertionSort r _) found
        (later y List.mem_cons_self matched)
    | false => rw [find?_orderedInsert_of_not matched, found]

theorem exists_first_least [IsTrans α r] [Std.Total r] (listed : x ∈ xs) (here : p x = true) :
    ∃ before y after, xs = before ++ y :: after ∧ p y = true ∧
      (∀ z ∈ before, p z = true → ¬r z y) ∧ ∀ z ∈ after, p z = true → r y z := by
  induction xs generalizing x with
  | nil => cases listed
  | cons a xs ih =>
    by_cases some_ : ∃ y ∈ xs, p y = true
    · obtain ⟨y, member, matched⟩ := some_
      obtain ⟨before, z, after, rfl, found, later, least⟩ := ih member matched
      by_cases first : p a = true ∧ r a z
      · refine ⟨[], a, before ++ z :: after, rfl, first.1, fun _ none_ => (nomatch none_), ?_⟩
        intro w behind also
        rcases List.mem_append.mp behind with earlier | behind
        · have other := later w earlier also
          exact IsTrans.trans a z w first.2 ((Std.Total.total z w).resolve_right other)
        · rcases List.mem_cons.mp behind with rfl | behind
          · exact first.2
          · exact IsTrans.trans a z w first.2 (least w behind also)
      · refine ⟨a :: before, z, after, rfl, found, ?_, least⟩
        intro w earlier also
        rcases List.mem_cons.mp earlier with rfl | earlier
        · exact fun before_ => first ⟨also, before_⟩
        · exact later w earlier also
    · rcases List.mem_cons.mp listed with rfl | member
      · refine ⟨[], x, xs, rfl, here, fun _ none_ => (nomatch none_), ?_⟩
        exact fun y member also => absurd ⟨y, member, also⟩ some_
      · exact absurd ⟨x, member, here⟩ some_

end CodeGraph.StableSort
