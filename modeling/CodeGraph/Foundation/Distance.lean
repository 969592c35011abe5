import CodeGraph.Foundation.Decisions

/-! Walks along a relation and their lengths, from one node or from any of some sources. -/
namespace CodeGraph.Distance

variable {α : Type} {step : α → α → Prop} {sources : α → Prop} {a b c : α} {m n : Nat}

inductive Walk (step : α → α → Prop) (a : α) : Nat → α → Prop where
  | start : Walk step a 0 a
  | step {n : Nat} {b c : α} : Walk step a n b → step b c → Walk step a (n + 1) c

theorem Walk.zero {a b : α} (walk : Walk step a 0 b) : b = a := by
  cases walk
  rfl

def IsSourceDistance (step : α → α → Prop) (sources : α → Prop) (b : α) (n : Nat) : Prop :=
  (∃ a, sources a ∧ Walk step a n b) ∧ ∀ a m, sources a → Walk step a m b → n ≤ m

theorem IsSourceDistance.unique (one : IsSourceDistance step sources b m)
    (other : IsSourceDistance step sources b n) : m = n := by
  obtain ⟨⟨a, source, walk⟩, least⟩ := one
  obtain ⟨⟨a', source', walk'⟩, least'⟩ := other
  exact Nat.le_antisymm (least a' n source' walk') (least' a m source walk)

open Classical in
theorem Walk.sourceDistance (source : sources a) (walk : Walk step a n b) :
    ∃ d ≤ n, IsSourceDistance step sources b d :=
  have some_ : ∃ m a, sources a ∧ Walk step a m b := ⟨n, a, source, walk⟩
  ⟨Nat.find some_, Nat.find_min' some_ ⟨a, source, walk⟩, Nat.find_spec some_,
    fun a _ source other => Nat.find_min' some_ ⟨a, source, other⟩⟩

theorem sourceDistance_zero : IsSourceDistance step sources b 0 ↔ sources b := by
  constructor
  · rintro ⟨⟨a, source, walk⟩, -⟩
    exact walk.zero ▸ source
  · exact fun source => ⟨⟨b, source, .start⟩, fun _ _ _ _ => Nat.zero_le _⟩

theorem IsSourceDistance.before (far : IsSourceDistance step sources b (n + 1)) :
    ∃ c, IsSourceDistance step sources c n ∧ step c b := by
  obtain ⟨⟨a, source, walk⟩, least⟩ := far
  cases walk with
  | @step _ c _ walk last =>
    refine ⟨c, ⟨⟨a, source, walk⟩, fun a' m source' other => ?_⟩, last⟩
    have longer := least a' (m + 1) source' (other.step last)
    omega

theorem IsSourceDistance.nearer (far : IsSourceDistance step sources b n) (le : m ≤ n) :
    ∃ c, IsSourceDistance step sources c m := by
  induction n generalizing b with
  | zero => exact ⟨b, Nat.le_zero.mp le ▸ far⟩
  | succ n ih =>
    by_cases last : m = n + 1
    · exact ⟨b, last ▸ far⟩
    · obtain ⟨c, near, -⟩ := far.before
      exact ih near (by omega)

/-- One step further lies what a step leads to and is not nearer. -/
theorem sourceDistance_succ_iff : IsSourceDistance step sources b (n + 1) ↔
    (∃ c, IsSourceDistance step sources c n ∧ step c b) ∧
      ∀ m ≤ n, ¬IsSourceDistance step sources b m := by
  constructor
  · intro far
    refine ⟨far.before, fun m less near => ?_⟩
    have same := near.unique far
    omega
  · rintro ⟨⟨c, ⟨⟨a, source, walk⟩, -⟩, last⟩, later⟩
    refine ⟨⟨a, source, walk.step last⟩, fun a' m source' other => ?_⟩
    obtain ⟨d, le, distance⟩ := Walk.sourceDistance source' other
    by_contra less
    exact later d (by omega) distance

theorem IsSourceDistance.levels (far : IsSourceDistance step sources b n) :
    ∃ nodes : List α, nodes.length = n + 1 ∧ nodes.Nodup ∧
      ∀ c ∈ nodes, ∃ m ≤ n, IsSourceDistance step sources c m := by
  induction n generalizing b with
  | zero =>
    exact ⟨[b], rfl, List.nodup_singleton b, fun c listed =>
      ⟨0, Nat.le_refl 0, List.mem_singleton.mp listed ▸ far⟩⟩
  | succ n ih =>
    obtain ⟨c, near, -⟩ := far.before
    obtain ⟨nodes, length, nodup, distances⟩ := ih near
    refine ⟨nodes ++ [b], by simp [length], ?_, fun x listed => ?_⟩
    · refine nodup_snoc nodup fun listed => ?_
      obtain ⟨m, less, distance⟩ := distances b listed
      have equal := distance.unique far
      omega
    · rcases mem_snoc.mp listed with earlier | last
      · obtain ⟨m, less, distance⟩ := distances x earlier
        exact ⟨m, by omega, distance⟩
      · exact ⟨n + 1, Nat.le_refl _, last ▸ far⟩

theorem IsSourceDistance.lt_length {all : List α} (far : IsSourceDistance step sources b n)
    (inside : ∀ c m, m ≤ n → IsSourceDistance step sources c m → c ∈ all) : n < all.length := by
  obtain ⟨nodes, length, nodup, distances⟩ := far.levels
  have sub : nodes ⊆ all := fun c listed =>
    have ⟨m, le, distance⟩ := distances c listed
    inside c m le distance
  have few := (List.subperm_of_subset nodup sub).length_le
  omega

/-! ### Distances from one node -/

def IsDistance (step : α → α → Prop) (a b : α) (n : Nat) : Prop :=
  Walk step a n b ∧ ∀ m, Walk step a m b → n ≤ m

theorem isDistance_iff : IsDistance step a b n ↔ IsSourceDistance step (· = a) b n := by
  simp only [IsDistance, IsSourceDistance, exists_eq_left]
  exact and_congr_right fun _ => ⟨fun least x m same walk => least m (same ▸ walk), fun least m => least a m rfl⟩

theorem IsDistance.unique (one : IsDistance step a b m) (other : IsDistance step a b n) : m = n :=
  (isDistance_iff.mp one).unique (isDistance_iff.mp other)

theorem Walk.distance (walk : Walk step a n b) : ∃ d ≤ n, IsDistance step a b d := by
  simp only [isDistance_iff]
  exact Walk.sourceDistance rfl walk

theorem distance_zero (a : α) : IsDistance step a a 0 := isDistance_iff.mpr (sourceDistance_zero.mpr rfl)

theorem distance_pos (far : IsDistance step a b n) : 1 ≤ n ↔ b ≠ a := by
  constructor
  · rintro some_ rfl
    have none_ := far.2 0 .start
    omega
  · intro other
    cases n with
    | zero => exact absurd far.1.zero other
    | succ n => omega

theorem IsDistance.before (far : IsDistance step a b (n + 1)) : ∃ c, IsDistance step a c n ∧ step c b := by
  simp only [isDistance_iff] at far ⊢
  exact far.before

theorem IsDistance.nearer (far : IsDistance step a b n) (le : m ≤ n) : ∃ c, IsDistance step a c m := by
  simp only [isDistance_iff] at far ⊢
  exact far.nearer le

theorem distance_succ_iff : IsDistance step a b (n + 1) ↔
    (∃ c, IsDistance step a c n ∧ step c b) ∧ ∀ m ≤ n, ¬IsDistance step a b m := by
  simp only [isDistance_iff]
  exact sourceDistance_succ_iff

theorem IsDistance.lt_length {all : List α} (far : IsDistance step a b n)
    (inside : ∀ c m, IsDistance step a c m → c ∈ all) : n < all.length := by
  simp only [isDistance_iff] at far inside
  exact far.lt_length fun c m _ => inside c m

theorem Walk.reaches {a b : α} {n : Nat} (walk : Walk step a n b) : Relation.ReflTransGen step a b := by
  induction walk with
  | start => exact .refl
  | step _ last ih => exact ih.tail last

theorem exists_walk {a b : α} (reaches : Relation.ReflTransGen step a b) : ∃ n, Walk step a n b := by
  induction reaches with
  | refl => exact ⟨0, .start⟩
  | tail _ last ih =>
    obtain ⟨n, walk⟩ := ih
    exact ⟨n + 1, walk.step last⟩

theorem Walk.append (walk : Walk step a m b) (rest : Walk step b n c) : Walk step a (m + n) c := by
  induction rest with
  | start => exact walk
  | step _ last ih => exact ih.step last

theorem Walk.split {k : Nat} (walk : Walk step a n c) (le : k ≤ n) :
    ∃ b, Walk step a k b ∧ Walk step b (n - k) c := by
  induction walk with
  | start => exact ⟨a, Nat.le_zero.mp le ▸ .start, by rw [Nat.zero_sub]; exact .start⟩
  | @step n b c walk last ih =>
    by_cases whole : k = n + 1
    · subst whole
      refine ⟨c, walk.step last, ?_⟩
      rw [Nat.sub_self]
      exact .start
    · obtain ⟨d, first, rest⟩ := ih (by omega)
      refine ⟨d, first, ?_⟩
      have length : n + 1 - k = n - k + 1 := by omega
      rw [length]
      exact rest.step last

theorem Walk.cons (first : step a b) (rest : Walk step b n c) : Walk step a (n + 1) c := by
  have whole := (Walk.start.step first).append rest
  rwa [Nat.zero_add, Nat.add_comm] at whole

theorem Walk.reverse (walk : Walk step a n b) : Walk (fun x y => step y x) b n a := by
  induction walk with
  | start => exact .start
  | step _ last ih => exact ih.cons last

/-- A list in which each step leads on is a walk between any two of its places. -/
theorem walk_of_chain {nodes : List α} (chain : nodes.IsChain step) {i j : Nat} {x y : α} (le : i ≤ j)
    (first : nodes[i]? = some x) (last : nodes[j]? = some y) : Walk step x (j - i) y := by
  induction j generalizing y with
  | zero =>
    have zero : i = 0 := by omega
    subst zero
    cases first.symm.trans last
    exact .start
  | succ j ih =>
    by_cases here : i = j + 1
    · subst here
      cases first.symm.trans last
      rw [Nat.sub_self]
      exact .start
    · obtain ⟨below, rfl⟩ := List.getElem?_eq_some_iff.mp last
      have inside : j < nodes.length := by omega
      have before : nodes[j]? = some nodes[j] := List.getElem?_eq_getElem inside
      have length : j + 1 - i = j - i + 1 := by omega
      rw [length]
      exact (ih (by omega) before).step (List.isChain_iff_getElem.mp chain j below)

theorem nodup_of_shortest {nodes : List α} {targets : α → Prop} (chain : nodes.IsChain step)
    (first : nodes.head? = some a) (last : nodes.getLast? = some b) (target : targets b)
    (shortest : ∀ m c, targets c → Walk step a m c → nodes.length ≤ m + 1) : nodes.Nodup := by
  rw [List.nodup_iff_pairwise_ne, List.pairwise_iff_getElem]
  intro i j below below' less same
  have start : nodes[0]? = some a := by rw [← List.head?_eq_getElem?, first]
  have finish : nodes[nodes.length - 1]? = some b := by rw [← List.getLast?_eq_getElem?, last]
  have one := walk_of_chain chain (Nat.zero_le i) start (List.getElem?_eq_getElem below)
  have other := walk_of_chain chain (by omega) (List.getElem?_eq_getElem below') finish
  rw [← same] at other
  have short := shortest _ b target (one.append other)
  omega

end CodeGraph.Distance
