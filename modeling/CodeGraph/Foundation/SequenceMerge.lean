import CodeGraph.Foundation.Decisions

/-!
# Merging sequences

A merge takes, again and again, the first head that stands later in no sequence. It gives an order
that keeps every sequence just when there is one.
-/
namespace CodeGraph.SequenceMerge

variable {α : Type} [DecidableEq α] {seqs : List (List α)} {q order rest : List α} {h x : α}

/-- The head of a sequence that stands later in none. -/
def Free (seqs : List (List α)) (h : α) : Prop :=
  (∃ q ∈ seqs, q.head? = some h) ∧ ∀ q ∈ seqs, h ∉ q.tail

def firstFree (seqs : List (List α)) : Option α :=
  (seqs.filterMap List.head?).find? fun h => seqs.all fun q => h ∉ q.tail

/-- The sequence without a head `h`. -/
def pop (h : α) (q : List α) : List α := if q.head? = some h then q.tail else q

def total (seqs : List (List α)) : Nat := (seqs.map List.length).sum

inductive Merges : List (List α) → List α → Prop where
  | done {seqs : List (List α)} (empty : ∀ q ∈ seqs, q = []) : Merges seqs []
  | take {seqs : List (List α)} {h : α} {rest : List α} (free : firstFree seqs = some h)
    (later : Merges (seqs.map (pop h)) rest) : Merges seqs (h :: rest)

theorem free_of_first (first : firstFree seqs = some h) : Free seqs h := by
  obtain ⟨q, mem, head⟩ := List.mem_filterMap.mp (List.mem_of_find?_eq_some first)
  refine ⟨⟨q, mem, head⟩, fun q mem => ?_⟩
  rw [firstFree] at first
  have later := List.find?_some first
  exact of_decide_eq_true (List.all_eq_true.mp later q mem)

theorem first_of_free (free : Free seqs h) : (firstFree seqs).isSome := by
  obtain ⟨⟨q, mem, head⟩, later⟩ := free
  rw [firstFree, List.find?_isSome]
  refine ⟨h, List.mem_filterMap.mpr ⟨q, mem, head⟩, ?_⟩
  rw [List.all_eq_true]
  exact fun q mem => decide_eq_true (later q mem)

theorem free_of_order (once : order.Nodup) (keeps : ∀ q ∈ seqs, q.Sublist order)
    (some_ : ∃ q ∈ seqs, q ≠ []) : ∃ h, Free seqs h := by
  induction order with
  | nil =>
    obtain ⟨q, mem, full⟩ := some_
    exact absurd (List.sublist_nil.mp (keeps q mem)) full
  | cons o os ih =>
    obtain ⟨fresh, once⟩ := List.nodup_cons.mp once
    by_cases heads : ∃ q ∈ seqs, q.head? = some o
    · refine ⟨o, heads, fun q mem later => ?_⟩
      cases keeps q mem with
      | cons _ inner => exact fresh (inner.subset (List.mem_of_mem_tail later))
      | cons_cons _ inner => exact fresh (inner.subset later)
    · refine ih once fun q mem => ?_
      cases keeps q mem with
      | cons _ inner => exact inner
      | cons_cons _ inner => exact absurd ⟨_, mem, rfl⟩ heads

theorem pop_sublist : (pop h q).Sublist q := by
  rw [pop]
  split
  · exact List.tail_sublist q
  · exact List.Sublist.refl q

theorem mem_pop_iff (later : h ∉ q.tail) : x ∈ pop h q ↔ x ∈ q ∧ x ≠ h := by
  cases q with
  | nil => simp [pop]
  | cons y q =>
    rw [List.tail_cons] at later
    by_cases same : y = h
    · subst same
      rw [pop, List.head?_cons, if_pos rfl, List.tail_cons, List.mem_cons]
      constructor
      · intro mem
        exact ⟨Or.inr mem, fun is => later (is ▸ mem)⟩
      · rintro ⟨is | mem, other⟩
        · exact absurd is other
        · exact mem
    · rw [pop, List.head?_cons, if_neg fun head => same (Option.some.inj head), List.mem_cons]
      constructor
      · rintro (rfl | mem)
        · exact ⟨Or.inl rfl, same⟩
        · exact ⟨Or.inr mem, fun is => later (is ▸ mem)⟩
      · exact And.left

theorem total_pop_le : total (seqs.map (pop h)) ≤ total seqs := by
  induction seqs with
  | nil => exact Nat.le_refl _
  | cons q seqs ih =>
    simp only [total, List.map_cons, List.sum_cons] at ih ⊢
    exact Nat.add_le_add pop_sublist.length_le ih

theorem total_pop (heads : ∃ q ∈ seqs, q.head? = some h) :
    total (seqs.map (pop h)) < total seqs := by
  induction seqs with
  | nil => simp at heads
  | cons q seqs ih =>
    have others : total (seqs.map (pop h)) ≤ total seqs := total_pop_le
    simp only [total, List.map_cons, List.sum_cons] at ih others ⊢
    by_cases head : q.head? = some h
    · obtain ⟨tail, rfl⟩ := List.head?_eq_some_iff.mp head
      rw [pop, if_pos head, List.tail_cons, List.length_cons]
      omega
    · obtain ⟨r, mem, found⟩ := heads
      have later : r ∈ seqs := (List.mem_cons.mp mem).resolve_left fun is => head (is ▸ found)
      have short : (pop h q).length ≤ q.length := pop_sublist.length_le
      have fewer := ih ⟨r, later, found⟩
      omega

theorem Merges.mem_iff (merges : Merges seqs rest) : x ∈ rest ↔ ∃ q ∈ seqs, x ∈ q := by
  induction merges with
  | done empty =>
    constructor
    · nofun
    · rintro ⟨q, mem, inside⟩
      rw [empty q mem] at inside
      cases inside
  | @take seqs h rest first _ ih =>
    obtain ⟨⟨p, head_mem, head⟩, later⟩ := free_of_first first
    have inside : h ∈ p := List.mem_of_head? head
    rw [List.mem_cons, ih]
    constructor
    · rintro (rfl | ⟨_, popped, mem⟩)
      · exact ⟨p, head_mem, inside⟩
      · obtain ⟨q, q_mem, rfl⟩ := List.mem_map.mp popped
        exact ⟨q, q_mem, pop_sublist.subset mem⟩
    · rintro ⟨q, q_mem, mem⟩
      by_cases same : x = h
      · exact Or.inl same
      · exact Or.inr ⟨_, List.mem_map_of_mem q_mem, (mem_pop_iff (later q q_mem)).mpr ⟨mem, same⟩⟩

theorem Merges.sublist (merges : Merges seqs rest) (mem : q ∈ seqs) : q.Sublist rest := by
  induction merges generalizing q with
  | done empty =>
    rw [empty q mem]
  | @take seqs h rest first _ ih =>
    have popped := ih (List.mem_map_of_mem mem)
    rw [pop] at popped
    split at popped
    next head =>
      obtain ⟨tail, rfl⟩ := List.head?_eq_some_iff.mp head
      exact popped.cons_cons h
    next => exact popped.cons h

theorem Merges.nodup (merges : Merges seqs rest) : rest.Nodup := by
  induction merges with
  | done => exact List.nodup_nil
  | @take seqs h rest first merges ih =>
    refine List.nodup_cons.mpr ⟨fun mem => ?_, ih⟩
    obtain ⟨_, popped, mem⟩ := merges.mem_iff.mp mem
    obtain ⟨q, q_mem, rfl⟩ := List.mem_map.mp popped
    exact ((mem_pop_iff ((free_of_first first).2 q q_mem)).mp mem).2 rfl

theorem Merges.unique {rest' : List α} (merges : Merges seqs rest) (merges' : Merges seqs rest') :
    rest = rest' := by
  induction merges generalizing rest' with
  | done empty =>
    cases merges' with
    | done => rfl
    | take first =>
      obtain ⟨⟨q, mem, head⟩, _⟩ := free_of_first first
      rw [empty q mem] at head
      cases head
  | take first _ ih =>
    cases merges' with
    | done empty =>
      obtain ⟨⟨q, mem, head⟩, _⟩ := free_of_first first
      rw [empty q mem] at head
      cases head
    | take first' later' =>
      obtain rfl := Option.some.inj (first.symm.trans first')
      rw [ih later']

theorem merges_of_order (once : order.Nodup) (keeps : ∀ q ∈ seqs, q.Sublist order) :
    ∃ rest, Merges seqs rest := by
  induction size : total seqs using Nat.strongRecOn generalizing seqs with
  | _ n ih =>
    by_cases some_ : ∃ q ∈ seqs, q ≠ []
    · obtain ⟨g, free⟩ := free_of_order once keeps some_
      obtain ⟨h, first⟩ := Option.isSome_iff_exists.mp (first_of_free free)
      have fewer := total_pop (free_of_first first).1
      obtain ⟨rest, merges⟩ := ih _ (size ▸ fewer) (fun q mem => by
        obtain ⟨p, p_mem, rfl⟩ := List.mem_map.mp mem
        exact pop_sublist.trans (keeps p p_mem)) rfl
      exact ⟨h :: rest, .take first merges⟩
    · refine ⟨[], .done fun q mem => ?_⟩
      by_contra full
      exact some_ ⟨q, mem, full⟩

end CodeGraph.SequenceMerge
