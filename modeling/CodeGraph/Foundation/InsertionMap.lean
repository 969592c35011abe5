import CodeGraph.Foundation.Decisions

/-! Maps that keep their entries in the order of insertion, as lists of entries. -/
namespace CodeGraph.InsertionMap

variable {ω ι : Type} [DecidableEq ω]

def lookup (m : List (ω × ι)) (w : ω) : Option ι := (m.find? (·.1 = w)).map Prod.snd

def unassign (m : List (ω × ι)) (w : ω) : List (ω × ι) := m.filter (·.1 ≠ w)

def assign (m : List (ω × ι)) (w : ω) (j : ι) : List (ω × ι) :=
  if m.any (·.1 = w) then m.map fun e => if e.1 = w then (w, j) else e else m ++ [(w, j)]

theorem mem_of_lookup {m : List (ω × ι)} {w : ω} {j : ι} (found : lookup m w = some j) :
    (w, j) ∈ m := by
  obtain ⟨⟨v, i⟩, first, rfl⟩ := Option.map_eq_some_iff.mp found
  have same : v = w := by simpa using List.find?_some first
  exact same ▸ List.mem_of_find?_eq_some first

theorem lookup_none {m : List (ω × ι)} {w : ω} :
    lookup m w = none ↔ w ∉ m.map Prod.fst := by
  rw [lookup, Option.map_eq_none_iff, List.find?_eq_none]
  constructor
  · intro absent member
    obtain ⟨e, listed, rfl⟩ := List.mem_map.mp member
    exact absent e listed (by simp)
  · intro absent e listed same
    exact absent (List.mem_map.mpr ⟨e, listed, by simpa using same⟩)

theorem lookup_of_mem {m : List (ω × ι)} {w : ω} {j : ι} (nodup : (m.map Prod.fst).Nodup)
    (member : (w, j) ∈ m) : lookup m w = some j := by
  induction m with
  | nil => cases member
  | cons e m ih =>
    obtain ⟨v, i⟩ := e
    rw [List.map_cons, List.nodup_cons] at nodup
    rcases List.mem_cons.mp member with same | later
    · cases same
      simp [lookup]
    · have other : v ≠ w := by
        rintro rfl
        exact nodup.1 (List.mem_map.mpr ⟨_, later, rfl⟩)
      have rest := ih nodup.2 later
      simpa [lookup, other] using rest

theorem assign_absent {m : List (ω × ι)} {w : ω} (absent : w ∉ m.map Prod.fst) (j : ι) :
    assign m w j = m ++ [(w, j)] := by
  refine if_neg fun some_ => absent ?_
  obtain ⟨e, listed, same⟩ := List.any_eq_true.mp some_
  exact List.mem_map.mpr ⟨e, listed, by simpa using same⟩

theorem mem_assign {m : List (ω × ι)} {w : ω} {j : ι} {e : ω × ι} (member : e ∈ assign m w j) :
    e = (w, j) ∨ e ∈ m ∧ e.1 ≠ w := by
  unfold assign at member
  split at member
  · obtain ⟨old, listed, rfl⟩ := List.mem_map.mp member
    split
    · exact .inl rfl
    · next other => exact .inr ⟨listed, other⟩
  · next absent =>
    rcases mem_snoc.mp member with listed | last
    · refine .inr ⟨listed, fun same => absent ?_⟩
      exact List.any_eq_true.mpr ⟨e, listed, by simpa using same⟩
    · exact .inl last

/-- The keys stay, if the key is one of them. -/
theorem keys_assign_present {m : List (ω × ι)} {w : ω} (there : w ∈ m.map Prod.fst) (j : ι) :
    (assign m w j).map Prod.fst = m.map Prod.fst := by
  have any_ : m.any (·.1 = w) = true := by
    obtain ⟨e, listed, same⟩ := List.mem_map.mp there
    exact List.any_eq_true.mpr ⟨e, listed, by simpa using same⟩
  rw [assign, if_pos any_, List.map_map]
  refine List.map_congr_left fun e _ => ?_
  by_cases same : e.1 = w <;> simp [same]

theorem mem_keys_assign {m : List (ω × ι)} {w v : ω} {j : ι} :
    v ∈ (assign m w j).map Prod.fst ↔ v ∈ m.map Prod.fst ∨ v = w := by
  by_cases there : w ∈ m.map Prod.fst
  · rw [keys_assign_present there]
    exact ⟨.inl, fun h => h.elim id fun same => same ▸ there⟩
  · rw [assign_absent there]
    simp

theorem keys_assign_nodup {m : List (ω × ι)} (distinct : (m.map Prod.fst).Nodup) (w : ω) (j : ι) :
    ((assign m w j).map Prod.fst).Nodup := by
  by_cases there : w ∈ m.map Prod.fst
  · rwa [keys_assign_present there]
  · rw [assign_absent there, List.map_append]
    exact nodup_snoc distinct there

theorem lookup_cons (e : ω × ι) (m : List (ω × ι)) (v : ω) :
    lookup (e :: m) v = if e.1 = v then some e.2 else lookup m v := by
  by_cases here : e.1 = v <;> simp [lookup, here]

private theorem lookup_replaced {m : List (ω × ι)} {w v : ω} {j : ι} :
    lookup (m.map fun e => if e.1 = w then (w, j) else e) v =
      if v = w ∧ w ∈ m.map Prod.fst then some j else lookup m v := by
  induction m with
  | nil => simp [lookup]
  | cons e m ih =>
    rw [List.map_cons, lookup_cons, ih, lookup_cons]
    simp only [List.map_cons, List.mem_cons]
    by_cases same : v = w
    · subst same
      by_cases here : e.1 = v
      · simp [here]
      · have other : ¬v = e.1 := fun h => here h.symm
        simp only [here, other, if_false, false_or]
    · by_cases here : e.1 = w
      · have other : ¬w = v := fun h => same h.symm
        simp [here, same, other]
      · simp [here, same]

theorem lookup_assign (m : List (ω × ι)) (w v : ω) (j : ι) :
    lookup (assign m w j) v = if v = w then some j else lookup m v := by
  by_cases there : w ∈ m.map Prod.fst
  · have any_ : m.any (·.1 = w) = true := by
      obtain ⟨e, listed, same⟩ := List.mem_map.mp there
      exact List.any_eq_true.mpr ⟨e, listed, by simpa using same⟩
    rw [assign, if_pos any_, lookup_replaced]
    simp only [there, and_true]
  · rw [assign_absent there]
    by_cases same : v = w
    · have absent := lookup_none.mpr there
      rw [lookup, Option.map_eq_none_iff] at absent
      simp [lookup, same, List.find?_append, absent]
    · have other : ¬w = v := fun h => same h.symm
      simp [lookup, same, other, List.find?_append]

/-- Assigning what is not told apart from what is there. -/
theorem map_assign_same {γ : Type} (g : ω × ι → γ) {m : List (ω × ι)} {w : ω} {i j : ι}
    (distinct : (m.map Prod.fst).Nodup) (found : lookup m w = some i) (same : g (w, j) = g (w, i)) :
    (assign m w j).map g = m.map g := by
  have any_ : m.any (·.1 = w) = true :=
    List.any_eq_true.mpr ⟨_, mem_of_lookup found, decide_eq_true rfl⟩
  rw [assign, if_pos any_, List.map_map]
  refine List.map_congr_left fun e listed => ?_
  by_cases here : e.1 = w
  · have is : lookup m w = some e.2 := lookup_of_mem distinct (here ▸ listed)
    have value : e.2 = i := Option.some.inj (is.symm.trans found)
    simp only [Function.comp, here, if_true, same, ← value]
    rw [← here]
  · simp only [Function.comp, here, if_false]

theorem mem_unassign {m : List (ω × ι)} {w : ω} {e : ω × ι} :
    e ∈ unassign m w ↔ e ∈ m ∧ e.1 ≠ w := by
  simp [unassign]

theorem unassign_subset (m : List (ω × ι)) (w : ω) : unassign m w ⊆ m := fun _ listed =>
  (mem_unassign.mp listed).1

theorem not_mem_unassign (m : List (ω × ι)) (w : ω) : w ∉ (unassign m w).map Prod.fst := by
  intro member
  obtain ⟨e, listed, same⟩ := List.mem_map.mp member
  exact (mem_unassign.mp listed).2 same

theorem unassign_absent {m : List (ω × ι)} {w : ω} (absent : w ∉ m.map Prod.fst) :
    unassign m w = m := by
  refine List.filter_eq_self.mpr fun e listed => ?_
  simp only [ne_eq, decide_not, Bool.not_eq_true', decide_eq_false_iff_not]
  rintro rfl
  exact absent (List.mem_map.mpr ⟨e, listed, rfl⟩)

omit [DecidableEq ω] in
theorem nodup_perm {m n : List (ω × ι)} (perm : m.Perm n) (nodup : (m.map Prod.fst).Nodup) :
    (n.map Prod.fst).Nodup :=
  (perm.map Prod.fst).nodup_iff.mp nodup

/-- What a key has does not depend on the order. -/
theorem lookup_perm {m n : List (ω × ι)} (perm : m.Perm n) (nodup : (m.map Prod.fst).Nodup) (w : ω) :
    lookup m w = lookup n w := by
  cases found : lookup m w with
  | none =>
    have absent := lookup_none.mp found
    exact (lookup_none.mpr fun listed => absent ((perm.map Prod.fst).mem_iff.mpr listed)).symm
  | some j =>
    have listed := perm.mem_iff.mp (mem_of_lookup found)
    exact (lookup_of_mem (nodup_perm perm nodup) listed).symm

theorem lookup_map {κ : Type} (f : ι → κ) (m : List (ω × ι)) (w : ω) :
    lookup (m.map fun e => (e.1, f e.2)) w = (lookup m w).map f := by
  simp only [lookup, List.find?_map, Option.map_map]
  rfl

/-! ### Lists as values -/

variable {β : Type} {m : List (ω × List β)} {w v : ω}

def members (m : List (ω × List β)) (w : ω) : List β := (lookup m w).getD []

def push (m : List (ω × List β)) (w : ω) (x : β) : List (ω × List β) :=
  assign m w (members m w ++ [x])

theorem members_assign (m : List (ω × List β)) (w v : ω) (xs : List β) :
    members (assign m w xs) v = if v = w then xs else members m v := by
  rw [members, lookup_assign]
  split <;> rfl

theorem key_of_members (some_ : members m w ≠ []) : w ∈ m.map Prod.fst := by
  by_contra absent
  rw [members, lookup_none.mpr absent] at some_
  exact some_ rfl

theorem members_of_mem {xs : List β} (distinct : (m.map Prod.fst).Nodup) (listed : (w, xs) ∈ m) :
    members m w = xs := by
  rw [members, lookup_of_mem distinct listed]
  rfl

theorem members_push_all {γ : Type} (key : γ → ω) (value : γ → β) (items : List γ)
    (m : List (ω × List β)) (w : ω) :
    members (items.foldl (fun m item => push m (key item) (value item)) m) w =
      members m w ++ (items.filter fun item => key item = w).map value := by
  induction items generalizing m with
  | nil => simp
  | cons item items ih =>
    rw [List.foldl_cons, ih, push, members_assign]
    by_cases here : key item = w
    · simp [here]
    · have other : ¬w = key item := fun is => here is.symm
      simp [here, other]

theorem lookup_assign_all {γ κ : Type} (key : γ → ω) (value : γ → κ) {items : List γ}
    (distinct : (items.map key).Nodup) (m : List (ω × κ)) (w : ω) :
    lookup (items.foldl (fun m item => assign m (key item) (value item)) m) w =
      ((items.find? fun item => key item = w).map value).or (lookup m w) := by
  induction items generalizing m with
  | nil => rfl
  | cons item items ih =>
    obtain ⟨first, rest⟩ := List.nodup_cons.mp distinct
    rw [List.foldl_cons, ih rest, lookup_assign]
    by_cases here : key item = w
    · have others : items.find? (fun item => key item = w) = none := by
        rw [List.find?_eq_none]
        intro other listed same
        refine first (List.mem_map.mpr ⟨other, listed, ?_⟩)
        rw [here]
        exact of_decide_eq_true same
      simp [others, here]
    · have other : ¬w = key item := fun is => here is.symm
      simp [here, other]

structure Map (ω ι : Type) where
  entries : List (ω × ι)
  distinct : (entries.map Prod.fst).Nodup

namespace Map

def empty : Map ω ι := ⟨[], List.nodup_nil⟩

def get (m : Map ω ι) (w : ω) : Option ι := lookup m.entries w

def keys (m : Map ω ι) : List ω := m.entries.map Prod.fst

def entriesOf (m : Option (Map ω ι)) : List (ω × ι) := (m.getD empty).entries

end Map

end CodeGraph.InsertionMap

/-! Memos of computed values that are emptied when they are full. -/
namespace CodeGraph.BoundedMemo

open InsertionMap

variable {κ ν : Type} [DecidableEq κ]

def remember (capacity : Nat) (memo : List (κ × ν)) (k : κ) (v : ν) : List (κ × ν) :=
  assign (if capacity ≤ memo.length then [] else memo) k v

def Sound (allowed : κ → ν → Prop) (memo : List (κ × ν)) : Prop :=
  ∀ e ∈ memo, allowed e.1 e.2

variable {allowed : κ → ν → Prop} {memo : List (κ × ν)}

omit [DecidableEq κ] in
theorem sound_nil : Sound allowed ([] : List (κ × ν)) := fun _ listed => nomatch listed

omit [DecidableEq κ] in
theorem Sound.filter (sound : Sound allowed memo) (keep : κ × ν → Bool) :
    Sound allowed (memo.filter keep) :=
  fun e listed => sound e (List.mem_filter.mp listed).1

theorem Sound.lookup (sound : Sound allowed memo) {k : κ} {v : ν}
    (found : InsertionMap.lookup memo k = some v) : allowed k v :=
  sound (k, v) (mem_of_lookup found)

theorem Sound.remember (sound : Sound allowed memo) (capacity : Nat) {k : κ} {v : ν}
    (fine : allowed k v) : Sound allowed (remember capacity memo k v) := by
  intro e listed
  rcases mem_assign listed with rfl | ⟨old, -⟩
  · exact fine
  · split at old
    · cases old
    · exact sound e old

end CodeGraph.BoundedMemo
