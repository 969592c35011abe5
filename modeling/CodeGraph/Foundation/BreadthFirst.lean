import CodeGraph.Foundation.Distance

/-! Breadth-first search with a queue. -/
namespace CodeGraph.BreadthFirst

open Distance

variable {α : Type} {step : α → α → Prop} {within : Nat → Prop} {start : α} {depth : α → Nat}
  {done queue : List α}

/-- The nodes found, in the order in which they were, with the steps that separate them from the
start; those that are done have been searched if their depth is within the bound. -/
structure Frontier (step : α → α → Prop) (within : Nat → Prop) (start : α) (depth : α → Nat)
    (done queue : List α) : Prop where
  nodup : (done ++ queue).Nodup
  found : start ∈ done ++ queue
  zero : depth start = 0
  walks : ∀ x ∈ done ++ queue, Walk step start (depth x) x
  levels : ∀ x ∈ done ++ queue, ∀ d < depth x, within d
  sorted : (done ++ queue).Pairwise fun x y => depth x ≤ depth y
  near : ∀ x ∈ queue, ∀ y ∈ done ++ queue, depth y ≤ depth x + 1
  closed : ∀ x ∈ done, within (depth x) → ∀ y, step x y → y ∈ done ++ queue ∧ depth y ≤ depth x + 1

theorem frontier_start (step : α → α → Prop) (within : Nat → Prop) (start : α) :
    Frontier step within start (fun _ => 0) [] [start] where
  nodup := List.nodup_singleton start
  found := List.mem_singleton.mpr rfl
  zero := rfl
  walks x listed := by
    rw [List.mem_singleton.mp listed]
    exact .start
  levels _ _ _ below := absurd below (Nat.not_lt_zero _)
  sorted := List.pairwise_singleton _ _
  near _ _ _ _ := Nat.zero_le _
  closed _ none_ := nomatch none_

section Search

variable [DecidableEq α]

/-- The nodes found from `x` are one step further. -/
def deepen (depth : α → Nat) (x : α) (new : List α) (y : α) : Nat :=
  if y ∈ new then depth x + 1 else depth y

theorem deepen_new {x y : α} {new : List α} (member : y ∈ new) :
    deepen depth x new y = depth x + 1 := if_pos member

theorem deepen_old {x y : α} {new : List α} (other : y ∉ new) : deepen depth x new y = depth y :=
  if_neg other

theorem Frontier.search {x : α} {new : List α}
    (frontier : Frontier step within start depth done (x :: queue)) (distinct : new.Nodup)
    (fresh : ∀ y ∈ new, y ∉ done ++ x :: queue) (steps : ∀ y ∈ new, within (depth x) ∧ step x y)
    (all : within (depth x) → ∀ y, step x y → y ∈ done ++ x :: queue ∨ y ∈ new) :
    Frontier step within start (deepen depth x new) (done ++ [x]) (queue ++ new) := by
  have whole : done ++ [x] ++ (queue ++ new) = done ++ x :: queue ++ new := by simp
  have head : x ∈ done ++ x :: queue := List.mem_append_right done List.mem_cons_self
  have old : ∀ y ∈ done ++ x :: queue, deepen depth x new y = depth y :=
    fun y listed => deepen_old fun member => fresh y member listed
  have bound : ∀ y ∈ done ++ x :: queue ++ new, deepen depth x new y ≤ depth x + 1 := by
    intro y listed
    rcases List.mem_append.mp listed with earlier | member
    · rw [old y earlier]
      exact frontier.near x List.mem_cons_self y earlier
    · exact Nat.le_of_eq (deepen_new member)
  constructor
  · rw [whole, List.nodup_append]
    exact ⟨frontier.nodup, distinct, fun y listed z member same => fresh z member (same ▸ listed)⟩
  · rw [whole]
    exact List.mem_append_left new frontier.found
  · rw [old start frontier.found]
    exact frontier.zero
  · rw [whole]
    intro y listed
    rcases List.mem_append.mp listed with earlier | member
    · rw [old y earlier]
      exact frontier.walks y earlier
    · rw [deepen_new member]
      exact (frontier.walks x head).step (steps y member).2
  · rw [whole]
    intro y listed d below
    rcases List.mem_append.mp listed with earlier | member
    · rw [old y earlier] at below
      exact frontier.levels y earlier d below
    · rw [deepen_new member] at below
      rcases Nat.lt_succ_iff_lt_or_eq.mp below with less | rfl
      · exact frontier.levels x head d less
      · exact (steps y member).1
  · rw [whole, List.pairwise_append]
    refine ⟨?_, ?_, ?_⟩
    · exact frontier.sorted.imp_of_mem fun hy hz le => by rw [old _ hy, old _ hz]; exact le
    · exact List.pairwise_of_forall_mem_list fun y hy z hz => by
        rw [deepen_new hy, deepen_new hz]
    · intro y hy z hz
      rw [deepen_new hz]
      exact bound y (List.mem_append_left new hy)
  · rw [whole]
    intro y queued z listed
    refine Nat.le_trans (bound z listed) (Nat.succ_le_succ ?_)
    rcases List.mem_append.mp queued with earlier | member
    · rw [old y (List.mem_append_right done (List.mem_cons_of_mem x earlier))]
      exact List.rel_of_pairwise_cons (List.pairwise_append.mp frontier.sorted).2.1 earlier
    · rw [deepen_new member]
      exact Nat.le_succ _
  · rw [whole]
    intro y finished inside z next_
    rcases mem_snoc.mp finished with earlier | last
    · have listed : y ∈ done ++ x :: queue := List.mem_append_left _ earlier
      rw [old y listed] at inside ⊢
      obtain ⟨reached, less⟩ := frontier.closed y earlier inside z next_
      rw [old z reached]
      exact ⟨List.mem_append_left new reached, less⟩
    · rw [last] at inside next_ ⊢
      rw [old x head] at inside ⊢
      have reached : z ∈ done ++ x :: queue ++ new := List.mem_append.mpr (all inside z next_)
      exact ⟨reached, bound z reached⟩

end Search

theorem Frontier.reaches (frontier : Frontier step within start depth done queue) {n : Nat} {y : α}
    (walk : Walk step start n y) (inside : ∀ d < n, within d) (early : ∀ x ∈ queue, n ≤ depth x) :
    y ∈ done ++ queue ∧ depth y ≤ n := by
  induction walk with
  | start => exact ⟨frontier.found, Nat.le_of_eq frontier.zero⟩
  | @step n b c _ last ih =>
    obtain ⟨listed, near_⟩ := ih (fun d less => inside d (Nat.lt_succ_of_lt less))
      fun x queued => Nat.le_of_succ_le (early x queued)
    rcases List.mem_append.mp listed with finished | waiting
    · obtain ⟨reached, less⟩ :=
        frontier.closed b finished (inside _ (Nat.lt_succ_of_le near_)) c last
      exact ⟨reached, Nat.le_trans less (Nat.succ_le_succ near_)⟩
    · have far := early b waiting
      omega

theorem Frontier.distance (frontier : Frontier step within start depth done queue) {y : α}
    (listed : y ∈ done ++ queue) : IsDistance step start y (depth y) := by
  refine ⟨frontier.walks y listed, fun m walk => Nat.le_of_not_lt fun shorter => ?_⟩
  have inside : ∀ d < m, within d := fun d less => frontier.levels y listed d (Nat.lt_trans less shorter)
  have early : ∀ x ∈ queue, m ≤ depth x := by
    intro x queued
    have near_ := frontier.near x queued y listed
    omega
  have reached := (frontier.reaches walk inside early).2
  omega

/-- When the queue is empty, what has been found is what lies within the bound. -/
theorem Frontier.exact (frontier : Frontier step within start depth done []) {y : α} :
    y ∈ done ↔ ∃ n, IsDistance step start y n ∧ ∀ d < n, within d := by
  constructor
  · intro finished
    have listed : y ∈ done ++ [] := List.mem_append_left [] finished
    exact ⟨depth y, frontier.distance listed, frontier.levels y listed⟩
  · rintro ⟨n, distance, inside⟩
    have reached := frontier.reaches distance.1 inside fun _ none_ => nomatch none_
    simpa using reached.1

end CodeGraph.BreadthFirst
