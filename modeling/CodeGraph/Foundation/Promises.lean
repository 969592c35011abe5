import CodeGraph.Foundation.Decisions

/-!
# Promises

The promises a component has given out, in the order it made them. Settling a promise that is
settled already changes nothing.
-/
namespace CodeGraph.Promises

inductive Status where
  | pending
  | resolved
  | rejected
  deriving DecidableEq

structure Promise (κ : Type) where
  kind : κ
  status : Status
  deriving DecidableEq

variable {κ : Type} {promises : List (Promise κ)} {given : List Nat} {status : Status} {p q : Nat}
  {promise : Promise κ}

def settle (given : List Nat) (status : Status) (promises : List (Promise κ)) : List (Promise κ) :=
  promises.mapIdx fun p promise =>
    if p ∈ given ∧ promise.status = .pending then { promise with status } else promise

theorem get_settle : (settle given status promises)[p]? = some promise ↔
    ∃ before, promises[p]? = some before ∧ promise =
      if p ∈ given ∧ before.status = .pending then { before with status } else before := by
  rw [settle, List.getElem?_mapIdx, Option.map_eq_some_iff]
  simp only [eq_comm]

theorem kind_settle {kind : κ} (found : ∃ was, promises[p]? = some ⟨kind, was⟩) :
    ∃ now, (settle given status promises)[p]? = some ⟨kind, now⟩ := by
  obtain ⟨was, found⟩ := found
  by_cases settles : p ∈ given ∧ was = .pending
  · exact ⟨status, get_settle.mpr ⟨_, found, by rw [if_pos settles]⟩⟩
  · exact ⟨was, get_settle.mpr ⟨_, found, by rw [if_neg settles]⟩⟩

/-- What is pending after settling some was pending, and is none of them. -/
theorem pending_settle {kind : κ} (settles : status ≠ .pending)
    (open_ : (settle given status promises)[p]? = some ⟨kind, .pending⟩) :
    promises[p]? = some ⟨kind, .pending⟩ ∧ p ∉ given := by
  obtain ⟨before, found, same⟩ := get_settle.mp open_
  split at same
  · next listed =>
    exact absurd (congrArg Promise.status same).symm settles
  · next other =>
    subst same
    exact ⟨found, fun listed => other ⟨listed, rfl⟩⟩

/-- What is settled stays as it is, and what is not among them too. -/
theorem settle_keeps (found : promises[p]? = some promise)
    (kept : p ∉ given ∨ promise.status ≠ .pending) :
    (settle given status promises)[p]? = some promise := by
  refine get_settle.mpr ⟨promise, found, (if_neg ?_).symm⟩
  rintro ⟨listed, open_⟩
  exact kept.elim (fun other => other listed) fun settled => settled open_

/-- What is resolved after settling some was resolved, or has been resolved now. -/
theorem resolved_settle {kind : κ}
    (done : (settle given status promises)[p]? = some ⟨kind, .resolved⟩) :
    promises[p]? = some ⟨kind, .resolved⟩ ∨
      (status = .resolved ∧ p ∈ given ∧ promises[p]? = some ⟨kind, .pending⟩) := by
  obtain ⟨⟨kind', was⟩, found, same⟩ := get_settle.mp done
  split at same
  · next listed =>
    cases same
    obtain rfl : was = .pending := listed.2
    exact Or.inr ⟨rfl, listed.1, found⟩
  · cases same
    exact Or.inl found

variable {last : Promise κ}

theorem get_append (found : promises[p]? = some promise) : (promises ++ [last])[p]? = some promise := by
  obtain ⟨within, -⟩ := List.getElem?_eq_some_iff.mp found
  rw [List.getElem?_append_left within, found]

theorem get_last : (promises ++ [last])[promises.length]? = some last := List.getElem?_concat_length

theorem get_append_cases (found : (promises ++ [last])[p]? = some promise) :
    (p = promises.length ∧ promise = last) ∨ promises[p]? = some promise := by
  rcases Nat.lt_trichotomy p promises.length with old | rfl | past
  · rw [List.getElem?_append_left old] at found
    exact Or.inr found
  · rw [get_last] at found
    exact Or.inl ⟨rfl, (Option.some.inj found).symm⟩
  · rw [List.getElem?_eq_none (by rw [List.length_append, List.length_singleton]; omega)] at found
    cases found

end CodeGraph.Promises
