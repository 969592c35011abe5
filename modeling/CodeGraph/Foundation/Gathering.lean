import CodeGraph.Foundation.Decisions

/-! Sets that loops gather, as lists in the order of insertion. -/
namespace CodeGraph.Gathering

variable {α β : Type} [DecidableEq α]

/-- `set.add(x)` -/
def addTo (set : List α) (x : α) : List α := if x ∈ set then set else set ++ [x]

@[simp] theorem mem_addTo {set : List α} {x a : α} : a ∈ addTo set x ↔ a ∈ set ∨ a = x := by
  rw [addTo]
  split
  next listed =>
    constructor
    · exact Or.inl
    · rintro (old | rfl)
      · exact old
      · exact listed
  next => simp

omit [DecidableEq α] in
/-- What holds after a loop, if each round makes it hold or not whatever was there. -/
theorem holds_foldl {σ : Type} {f : σ → β → σ} {has : σ → Prop} {adds : β → Prop}
    (each : ∀ s b, has (f s b) ↔ has s ∨ adds b) (items : List β) (s : σ) :
    has (items.foldl f s) ↔ has s ∨ ∃ b ∈ items, adds b := by
  induction items generalizing s with
  | nil => simp
  | cons b items ih => simp [ih, each, or_assoc]

omit [DecidableEq α] in
theorem mem_foldl {f : List α → β → List α} {adds : β → α → Prop}
    (each : ∀ set b a, a ∈ f set b ↔ a ∈ set ∨ adds b a) (items : List β) (set : List α) {a : α} :
    a ∈ items.foldl f set ↔ a ∈ set ∨ ∃ b ∈ items, adds b a :=
  @holds_foldl β (List α) f (fun set => a ∈ set) (fun b => adds b a)
    (fun set b => each set b a) items set

theorem mem_foldl_addTo (items set : List α) {a : α} :
    a ∈ items.foldl addTo set ↔ a ∈ set ∨ a ∈ items := by
  have each : ∀ (set : List α) (b a : α), a ∈ addTo set b ↔ a ∈ set ∨ a = b :=
    fun _ _ _ => mem_addTo
  rw [mem_foldl each items set]
  simp

end CodeGraph.Gathering
