import CodeGraph.Foundation.Decisions

/-! The first elements of a list with their keys. -/
namespace CodeGraph.FirstByKey

variable {α κ : Type} [DecidableEq κ]

def keepNew (key : α → κ) : List κ → List α → List α
  | _, [] => []
  | seen, x :: xs => if key x ∈ seen then keepNew key seen xs else x :: keepNew key (key x :: seen) xs

def First (key : α → κ) (xs : List α) (x : α) : Prop :=
  ∃ before after, xs = before ++ x :: after ∧ ∀ y ∈ before, key y ≠ key x

variable {key : α → κ} {seen : List κ} {xs : List α} {x : α}

omit [DecidableEq κ] in
theorem First.mem (first : First key xs x) : x ∈ xs := by
  obtain ⟨before, after, rfl, -⟩ := first
  exact List.mem_append_right before List.mem_cons_self

omit [DecidableEq κ] in
theorem first_cons {y : α} : First key (y :: xs) x ↔ x = y ∨ key y ≠ key x ∧ First key xs x := by
  constructor
  · rintro ⟨before, after, whole, others⟩
    cases before with
    | nil =>
      cases whole
      exact .inl rfl
    | cons z before =>
      cases whole
      exact .inr ⟨others y List.mem_cons_self, before, after, rfl,
        fun w listed => others w (List.mem_cons_of_mem y listed)⟩
  · rintro (rfl | ⟨other, before, after, rfl, others⟩)
    · exact ⟨[], xs, rfl, fun _ none_ => nomatch none_⟩
    · refine ⟨y :: before, after, rfl, fun w listed => ?_⟩
      rcases List.mem_cons.mp listed with rfl | earlier
      · exact other
      · exact others w earlier

theorem mem_keepNew : x ∈ keepNew key seen xs ↔ key x ∉ seen ∧ First key xs x := by
  induction xs generalizing seen with
  | nil =>
    refine ⟨fun none_ => (nomatch none_), ?_⟩
    rintro ⟨-, first⟩
    exact absurd first.mem List.not_mem_nil
  | cons y xs ih =>
    rw [keepNew, first_cons]
    split
    · next old =>
      rw [ih]
      constructor
      · rintro ⟨fresh, first⟩
        exact ⟨fresh, .inr ⟨fun same => fresh (same ▸ old), first⟩⟩
      · rintro ⟨fresh, rfl | ⟨-, first⟩⟩
        · exact absurd old fresh
        · exact ⟨fresh, first⟩
    · next new =>
      rw [List.mem_cons, ih, List.mem_cons, not_or]
      constructor
      · rintro (rfl | ⟨⟨other, fresh⟩, first⟩)
        · exact ⟨new, .inl rfl⟩
        · exact ⟨fresh, .inr ⟨fun same => other same.symm, first⟩⟩
      · rintro ⟨fresh, rfl | ⟨other, first⟩⟩
        · exact .inl rfl
        · exact .inr ⟨⟨fun same => other same.symm, fresh⟩, first⟩

theorem keepNew_keys_nodup : ((keepNew key seen xs).map key).Nodup := by
  induction xs generalizing seen with
  | nil => exact List.nodup_nil
  | cons y xs ih =>
    rw [keepNew]
    split
    · exact ih
    · rw [List.map_cons, List.nodup_cons]
      refine ⟨fun again => ?_, ih⟩
      obtain ⟨z, kept, same⟩ := List.mem_map.mp again
      exact (mem_keepNew.mp kept).1 (same ▸ List.mem_cons_self)

omit [DecidableEq κ] in
theorem First.unique {y : α} (one : First key xs x) (other : First key xs y) (same : key x = key y) :
    x = y := by
  induction xs with
  | nil => exact absurd one.mem List.not_mem_nil
  | cons z xs ih =>
    rcases first_cons.mp one with rfl | ⟨apart, later⟩
    · rcases first_cons.mp other with rfl | ⟨apart, -⟩
      · rfl
      · exact absurd same apart
    · rcases first_cons.mp other with rfl | ⟨-, later'⟩
      · exact absurd same.symm apart
      · exact ih later later'

variable (key) in
theorem exists_first (listed : x ∈ xs) : ∃ y, First key xs y ∧ key y = key x := by
  induction xs with
  | nil => cases listed
  | cons z xs ih =>
    by_cases same : key z = key x
    · exact ⟨z, first_cons.mpr (.inl rfl), same⟩
    · rcases List.mem_cons.mp listed with rfl | later
      · exact absurd rfl same
      · obtain ⟨y, first, equal⟩ := ih later
        exact ⟨y, first_cons.mpr (.inr ⟨equal ▸ same, first⟩), equal⟩

/-! ### The keys in the order of their first elements -/

theorem keepNew_filter (front : List κ) :
    keepNew key (front ++ seen) xs = keepNew key front (xs.filter fun x => key x ∉ seen) := by
  induction xs generalizing front with
  | nil => rfl
  | cons x xs ih =>
    by_cases old : key x ∈ seen
    · have dropped : (x :: xs).filter (fun x => key x ∉ seen) = xs.filter fun x => key x ∉ seen :=
        List.filter_cons_of_neg (by simpa using old)
      rw [keepNew, if_pos (List.mem_append_right front old), dropped]
      exact ih front
    · have taken : (x :: xs).filter (fun x => key x ∉ seen) = x :: xs.filter fun x => key x ∉ seen :=
        List.filter_cons_of_pos (by simpa using old)
      have same : key x ∈ front ++ seen ↔ key x ∈ front := by
        rw [List.mem_append]
        exact or_iff_left old
      rw [taken, keepNew, keepNew, ih front]
      simp only [same]
      split
      · rfl
      · exact congrArg (x :: ·) (ih (key x :: front))

theorem keepNew_congr {other : List κ} (same : ∀ k, k ∈ seen ↔ k ∈ other) :
    keepNew key seen xs = keepNew key other xs := by
  induction xs generalizing seen other with
  | nil => rfl
  | cons x xs ih =>
    have more : ∀ k, k ∈ key x :: seen ↔ k ∈ key x :: other := fun k => by
      rw [List.mem_cons, List.mem_cons, same]
    rw [keepNew, keepNew, ih same, ih more]
    simp only [same]

theorem keepNew_snoc :
    keepNew key seen (xs ++ [x]) =
      keepNew key seen xs ++ if key x ∈ seen ∨ key x ∈ xs.map key then [] else [x] := by
  induction xs generalizing seen with
  | nil => simp [keepNew]
  | cons y xs ih =>
    rw [List.cons_append, keepNew, keepNew, ih, ih]
    by_cases old : key y ∈ seen
    · have same : (key x ∈ seen ∨ key x ∈ (y :: xs).map key) ↔ key x ∈ seen ∨ key x ∈ xs.map key := by
        rw [List.map_cons, List.mem_cons]
        constructor
        · rintro (h | h | h)
          · exact .inl h
          · exact .inl (h ▸ old)
          · exact .inr h
        · rintro (h | h)
          · exact .inl h
          · exact .inr (.inr h)
      simp only [if_pos old, same]
    · have same : (key x ∈ key y :: seen ∨ key x ∈ xs.map key) ↔
          key x ∈ seen ∨ key x ∈ (y :: xs).map key := by
        rw [List.map_cons, List.mem_cons, List.mem_cons]
        tauto
      simp only [if_neg old, same, List.cons_append]

def firstKeys (key : α → κ) (xs : List α) : List κ := (keepNew key [] xs).map key

theorem mem_firstKeys {k : κ} : k ∈ firstKeys key xs ↔ k ∈ xs.map key := by
  rw [firstKeys, List.mem_map, List.mem_map]
  constructor
  · rintro ⟨y, kept, same⟩
    exact ⟨y, (mem_keepNew.mp kept).2.mem, same⟩
  · rintro ⟨y, listed, rfl⟩
    obtain ⟨z, first, same⟩ := exists_first key listed
    exact ⟨z, mem_keepNew.mpr ⟨List.not_mem_nil, first⟩, same⟩

omit [DecidableEq κ] in
theorem First.snoc {y : α} (first : First key xs x) : First key (xs ++ [y]) x := by
  obtain ⟨before, after, rfl, others⟩ := first
  exact ⟨before, after ++ [y], by simp, others⟩

omit [DecidableEq κ] in
theorem first_last (new : key x ∉ xs.map key) : First key (xs ++ [x]) x :=
  ⟨xs, [], rfl, fun _ listed same => new (List.mem_map.mpr ⟨_, listed, same⟩)⟩

/-- `List.eraseDups` keeps each element once. -/
theorem nodup_eraseDups [DecidableEq α] (xs : List α) : xs.eraseDups.Nodup := by
  induction length : xs.length using Nat.strongRecOn generalizing xs with
  | _ n ih =>
    cases xs with
    | nil => exact List.nodup_nil
    | cons x xs =>
      rw [List.eraseDups_cons, List.nodup_cons]
      have shorter : (xs.filter fun y => !y == x).length < n := by
        have kept := List.length_filter_le (fun y => !y == x) xs
        rw [← length, List.length_cons]
        omega
      refine ⟨fun again => ?_, ih _ shorter _ rfl⟩
      have kept := (List.mem_filter.mp (List.mem_eraseDups.mp again)).2
      simp at kept

theorem find?_of_nodup (distinct : (xs.map key).Nodup) (k : κ) :
    xs.find? (fun y => key y = k) = some x ↔ x ∈ xs ∧ key x = k := by
  constructor
  · intro found
    exact ⟨List.mem_of_find?_eq_some found, by simpa using List.find?_some found⟩
  · rintro ⟨listed, rfl⟩
    cases found : xs.find? (fun y => key y = key x) with
    | none =>
      have absent := List.find?_eq_none.mp found x listed
      simp at absent
    | some y =>
      have same : key y = key x := by simpa using List.find?_some found
      rw [List.inj_on_of_nodup_map distinct (List.mem_of_find?_eq_some found) listed same]

theorem find?_perm {ys : List α} (perm : ys.Perm xs) (distinct : (xs.map key).Nodup) (k : κ) :
    ys.find? (fun y => key y = k) = xs.find? fun y => key y = k := by
  have others : (ys.map key).Nodup := (perm.map key).nodup_iff.mpr distinct
  apply Option.ext
  intro x
  rw [find?_of_nodup others, find?_of_nodup distinct, perm.mem_iff]

end CodeGraph.FirstByKey
