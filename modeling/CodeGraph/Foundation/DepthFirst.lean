import CodeGraph.Foundation.Decisions

/-! Depth-first searches that list a node before they look at its steps. -/
namespace CodeGraph.DepthFirst

open Relation

variable {α : Type} {R : α → α → Prop} {old new more : List α} {a b c : α}

def Fresh (R : α → α → Prop) (old : List α) (a b : α) : Prop := R a b ∧ b ∉ old

/-- What some of the steps from `a` have added to the list. -/
structure Scanned (R : α → α → Prop) (old : List α) (a : α) (new : List α) : Prop where
  distinct : new.Nodup
  found : ∀ b ∈ new, TransGen (Fresh R old) a b
  closed : ∀ b ∈ new, ∀ c, R b c → c ∈ old ∨ c ∈ new

/-- What all the steps from `a` have added to the list. -/
structure Explored (R : α → α → Prop) (old : List α) (a : α) (new : List α) : Prop extends
    Scanned R old a new where
  all : ∀ c, R a c → c ∈ old ∨ c ∈ new

theorem scanned_nil (R : α → α → Prop) (old : List α) (a : α) : Scanned R old a [] :=
  ⟨List.nodup_nil, fun _ none_ => (nomatch none_), fun _ none_ => nomatch none_⟩

theorem fresh_last (found : TransGen (Fresh R old) a b) : b ∉ old := by
  cases found with
  | single step => exact step.2
  | tail _ step => exact step.2

theorem fresh_mono {less : List α} (sub : less ⊆ old) (found : TransGen (Fresh R old) a b) :
    TransGen (Fresh R less) a b :=
  TransGen.mono (fun _ _ step => ⟨step.1, fun listed => step.2 (sub listed)⟩) a b found

theorem Scanned.deeper (scanned : Scanned R old a new) (step : R a c) (unlisted : c ∉ old ++ new)
    (explored : Explored R (old ++ new ++ [c]) c more) : Scanned R old a (new ++ c :: more) := by
  obtain ⟨before, other⟩ := not_or.mp (List.mem_append.not.mp unlisted)
  have sub : old ⊆ old ++ new ++ [c] := fun x h => List.mem_append_left [c] (List.mem_append_left new h)
  have here : TransGen (Fresh R old) a c := .single ⟨step, before⟩
  have apart : ∀ x ∈ more, x ∉ old ++ new ++ [c] := fun x h => fresh_last (explored.found x h)
  have listed : ∀ x, x ∈ old ++ new ++ [c] ∨ x ∈ more → x ∈ old ∨ x ∈ new ++ c :: more := by
    intro x h
    simp only [List.mem_append, List.mem_cons, List.not_mem_nil, or_false] at h ⊢
    tauto
  constructor
  · rw [List.nodup_append, List.nodup_cons]
    refine ⟨scanned.distinct, ⟨fun h => apart c h ?_, explored.distinct⟩, ?_⟩
    · exact List.mem_append_right _ (List.mem_singleton.mpr rfl)
    · rintro x h y later rfl
      rcases List.mem_cons.mp later with rfl | later
      · exact other h
      · exact apart x later (List.mem_append_left [c] (List.mem_append_right old h))
  · intro b member
    rcases List.mem_append.mp member with earlier | later
    · exact scanned.found b earlier
    · rcases List.mem_cons.mp later with rfl | later
      · exact here
      · exact here.trans (fresh_mono sub (explored.found b later))
  · intro b member d next_
    rcases List.mem_append.mp member with earlier | later
    · rcases scanned.closed b earlier d next_ with before | member
      · exact .inl before
      · exact .inr (List.mem_append_left _ member)
    · rcases List.mem_cons.mp later with rfl | later
      · exact listed d (explored.all d next_)
      · exact listed d (explored.closed b later d next_)

theorem Explored.exact (explored : Explored R old a new) :
    b ∈ new ↔ TransGen (Fresh R old) a b := by
  refine ⟨explored.found b, fun reached => ?_⟩
  induction reached with
  | single step => exact (explored.all _ step.1).resolve_left step.2
  | tail _ step ih => exact (explored.closed _ ih _ step.1).resolve_left step.2

theorem fresh_start : TransGen (Fresh R [a]) a b ↔ TransGen R a b ∧ b ≠ a := by
  constructor
  · intro found
    refine ⟨TransGen.mono (fun _ _ step => step.1) a b found, fun same => fresh_last found ?_⟩
    exact List.mem_singleton.mpr same
  · rintro ⟨reached, other⟩
    induction reached with
    | single step => exact .single ⟨step, fun same => other (List.mem_singleton.mp same)⟩
    | @tail x y _ step ih =>
      have fresh : Fresh R [a] x y := ⟨step, fun same => other (List.mem_singleton.mp same)⟩
      by_cases back : x = a
      · exact .single (back ▸ fresh)
      · exact (ih back).tail fresh

end CodeGraph.DepthFirst
