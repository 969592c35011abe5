import CodeGraph.Foundation.Decisions

/-! Walks that visit nothing twice reach all that a relation reaches. -/
namespace CodeGraph.Walks

variable {α : Type} {r : α → α → Prop} {x y z : α} {path : List α}

/-- A walk from `x` to the last element, behind those of the list. -/
inductive Walk (r : α → α → Prop) (x : α) : List α → α → Prop
  | start : Walk r x [] x
  | step {path : List α} {y z : α} (walk : Walk r x path y) (next : r y z) (fresh : z ∉ path ++ [y]) :
      Walk r x (path ++ [y]) z

theorem Walk.reaches (walk : Walk r x path y) : Relation.ReflTransGen r x y := by
  induction walk with
  | start => exact .refl
  | step _ next _ ih => exact ih.tail next

theorem Walk.nodup (walk : Walk r x path y) : (path ++ [y]).Nodup := by
  induction walk with
  | start => exact List.nodup_singleton x
  | step _ _ fresh ih => exact nodup_snoc ih fresh

theorem Walk.visited (walk : Walk r x path y) (visited : z ∈ path ++ [y]) :
    ∃ path, Walk r x path z := by
  induction walk with
  | start =>
    rw [List.nil_append, List.mem_singleton] at visited
    exact ⟨[], visited ▸ .start⟩
  | step walk next fresh ih =>
    rcases mem_snoc.mp visited with old | last
    · exact ih old
    · rw [last]
      exact ⟨_, .step walk next fresh⟩

theorem exists_walk (reaches : Relation.ReflTransGen r x y) : ∃ path, Walk r x path y := by
  induction reaches with
  | refl => exact ⟨[], .start⟩
  | @tail y z _ next ih =>
    obtain ⟨path, walk⟩ := ih
    by_cases visited : z ∈ path ++ [y]
    · exact walk.visited visited
    · exact ⟨_, .step walk next visited⟩

def Shallow (r : α → α → Prop) : Nat → α → Prop
  | 0, _ => False
  | k + 1, x => ∀ y, r x y → Shallow r k y

theorem shallow_of_acyclic {names : List α} (acyclic : ∀ x, ¬Relation.TransGen r x x)
    (closed : ∀ x ∈ names, ∀ y, r x y → y ∈ names) (listed : x ∈ names) : Shallow r names.length x := by
  have visited : ∀ (k : Nat) (path : List α) (x : α), path.Nodup → path ⊆ names → x ∈ names →
      (∀ z ∈ path, Relation.TransGen r z x) → names.length ≤ path.length + k → Shallow r k x := by
    intro k
    induction k with
    | zero =>
      intro path x nodup within_ listed before long
      have fresh : x ∉ path := fun again => acyclic x (before x again)
      have more := List.Nodup.subperm (List.nodup_cons.mpr ⟨fresh, nodup⟩) (List.cons_subset.mpr ⟨listed, within_⟩)
      have short := more.length_le
      rw [List.length_cons] at short
      omega
    | succ k ih =>
      intro path x nodup within_ listed before long y next
      have fresh : x ∉ path := fun again => acyclic x (before x again)
      refine ih (x :: path) y (List.nodup_cons.mpr ⟨fresh, nodup⟩) (List.cons_subset.mpr ⟨listed, within_⟩)
        (closed x listed y next) (fun z listed => ?_) (by rw [List.length_cons]; omega)
      rcases List.mem_cons.mp listed with rfl | old
      · exact .single next
      · exact (before z old).tail next
  exact visited names.length [] x List.nodup_nil (List.nil_subset names) listed
    (fun _ none_ => absurd none_ List.not_mem_nil) (Nat.le_add_left _ _)

end CodeGraph.Walks
