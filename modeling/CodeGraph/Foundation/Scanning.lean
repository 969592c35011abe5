import CodeGraph.Foundation.Decisions

/-!
# Scanners of a text by places

A scanner goes on from later and later places of a text, so it ends. What its rounds keep, its
result has.
-/
namespace CodeGraph.Scanning

abbrev From (i : Nat) := {j : Nat // i ≤ j}

abbrev After (i : Nat) := From (i + 1)

def next (i : Nat) : After i := ⟨i + 1, Nat.le_refl _⟩

inductive Round (σ ρ : Type) (i : Nat) where
  | go (state : σ) (place : After i)
  | stop (result : ρ)

variable {σ ρ α : Type}

variable {first : Nat}

/-- The rounds of a scanner until `limit`, at places from the first on. -/
def rounds (limit : Nat) (round : σ → (i : From first) → Round σ ρ i) (done : σ → From first → ρ)
    (state : σ) (i : From first) : ρ :=
  if i < limit then
    match round state i with
    | .go state' ⟨j, later⟩ =>
      rounds limit round done state' ⟨j, i.2.trans (Nat.le_of_succ_le later)⟩
    | .stop result => result
  else done state i
termination_by limit - i

def scan (first limit : Nat) (round : σ → (i : From first) → Round σ ρ i)
    (done : σ → From first → ρ) (state : σ) : ρ :=
  rounds limit round done state ⟨first, Nat.le_refl first⟩

def Round.Keeps {i : Nat} (inv : σ → Nat → Prop) (post : ρ → Prop) : Round σ ρ i → Prop
  | .go state place => inv state place
  | .stop result => post result

private theorem rounds_spec {limit : Nat} {round : σ → (i : From first) → Round σ ρ i}
    {done : σ → From first → ρ} (inv : σ → Nat → Prop) (post : ρ → Prop)
    (step : ∀ state (i : From first), i < limit → inv state i → (round state i).Keeps inv post)
    (finish : ∀ state (i : From first), limit ≤ i → inv state i → post (done state i)) {state : σ}
    {i : From first} (start : inv state i) : post (rounds limit round done state i) := by
  fun_induction rounds limit round done state i with
  | case1 state i below state' j later went ih =>
    have kept := step state i below start
    rw [went] at kept
    exact ih kept
  | case2 state i below result stopped =>
    have kept := step state i below start
    rw [stopped] at kept
    exact kept
  | case3 state i beyond => exact finish state i (Nat.not_lt.mp beyond) start

theorem scan_spec {limit : Nat} {round : σ → (i : From first) → Round σ ρ i}
    {done : σ → From first → ρ} (inv : σ → Nat → Prop) (post : ρ → Prop)
    (step : ∀ state (i : From first), i < limit → inv state i → (round state i).Keeps inv post)
    (finish : ∀ state (i : From first), limit ≤ i → inv state i → post (done state i)) {state : σ}
    (start : inv state first) : post (scan first limit round done state) :=
  rounds_spec inv post step finish start

/-! ### Places further on -/

section Places

variable {i j k : Nat} {at_ : From first}

theorem From.le (at_ : From first) : first ≤ at_.1 := at_.2

theorem From.refl (at_ : From first) : at_.1 ≤ at_.1 := Nat.le_refl _

theorem From.two_on (at_ : From first) : at_.1 + 1 ≤ at_.1 + 2 := Nat.le_succ _

theorem From.upto (past : at_.1 ≤ i) : first ≤ i := at_.2.trans past

theorem From.upto_succ (past : at_.1 ≤ i) : first ≤ i + 1 := Nat.le_succ_of_le (From.upto past)

theorem From.succ (past : at_.1 ≤ i) : at_.1 + 1 ≤ i + 1 := Nat.succ_le_succ past

theorem From.beyond (past : at_.1 ≤ i) (later : i + 1 ≤ j) : at_.1 + 1 ≤ j :=
  Nat.lt_of_le_of_lt past later

theorem From.upto_beyond (past : at_.1 ≤ i) (later : i + 1 ≤ j) : first ≤ j :=
  (From.upto past).trans (Nat.le_of_succ_le later)

theorem two_on (i : Nat) : i + 1 ≤ i + 2 := Nat.le_succ _

theorem succ_on (later : i + 1 ≤ j) : i + 1 ≤ j + 1 := Nat.le_succ_of_le later

theorem after_two (later : i + 2 ≤ j) : i + 1 ≤ j := Nat.le_of_succ_le later

theorem after_two_on (later : i + 2 ≤ j) : i + 1 ≤ j + 2 := Nat.le_add_right_of_le (after_two later)

theorem after_trans (later : i + 1 ≤ j) (ahead : j ≤ k) : i + 1 ≤ k := later.trans ahead

end Places

/-! ### Parts of a list -/

def slice (s : List α) (start stop : Nat) : List α := (s.take stop).drop start

theorem slice_getElem? {s : List α} {start stop q : Nat} (inside : start + q < stop) :
    (slice s start stop)[q]? = s[start + q]? := by
  rw [slice, List.getElem?_drop, List.getElem?_take, if_pos inside]

theorem slice_length {s : List α} {start stop : Nat} (within : stop ≤ s.length) :
    (slice s start stop).length = stop - start := by
  rw [slice, List.length_drop, List.length_take, Nat.min_eq_left within]

variable [DecidableEq α] {s word rest : List α} {i q : Nat}

def startsAt (s word : List α) (i : Nat) : Bool := word.isPrefixOf (s.drop i)

/-- The first place of a word in what is left of a text from `i` on. -/
def indexAfter (word : List α) : List α → (i : Nat) → Option (From i)
  | [], i => if word = [] then some ⟨i, Nat.le_refl i⟩ else none
  | u :: rest, i =>
    if word.isPrefixOf (u :: rest) then some ⟨i, Nat.le_refl i⟩
    else (indexAfter word rest (i + 1)).map fun ⟨j, later⟩ => ⟨j, Nat.le_of_succ_le later⟩

/-- `s.indexOf(word, i)` -/
def indexOf (s word : List α) (i : Nat) : Option (From i) := indexAfter word (s.drop i) i

/-- `s.lastIndexOf(word, i)` -/
def lastIndexOf (s word : List α) : (i : Nat) → Option {j : Nat // j ≤ i}
  | 0 => if startsAt s word 0 then some ⟨0, Nat.le_refl 0⟩ else none
  | i + 1 =>
    if startsAt s word (i + 1) then some ⟨i + 1, Nat.le_refl _⟩
    else (lastIndexOf s word i).map fun ⟨j, le⟩ => ⟨j, Nat.le_succ_of_le le⟩

theorem startsAt_iff : startsAt s word i = true ↔ word <+: s.drop i := List.isPrefixOf_iff_prefix

theorem startsAt_getElem? (starts : startsAt s word i = true) (below : q < word.length) :
    s[i + q]? = word[q]? := by
  obtain ⟨rest, parts⟩ := startsAt_iff.mp starts
  rw [← List.getElem?_drop, ← parts, List.getElem?_append_left below]

theorem startsAt_length (starts : startsAt s word i = true) (some_ : word ≠ []) :
    i + word.length ≤ s.length := by
  have short := (startsAt_iff.mp starts).length_le
  have long := List.length_pos_iff.mpr some_
  rw [List.length_drop] at short
  omega

private theorem indexAfter_starts (at_ : s.drop i = rest) {k : From i}
    (found : indexAfter word rest i = some k) : startsAt s word k = true := by
  induction rest generalizing i with
  | nil =>
    rw [indexAfter] at found
    split at found
    next empty =>
      cases found
      rw [startsAt, empty]
      rfl
    next => cases found
  | cons u rest ih =>
    rw [indexAfter] at found
    split at found
    next starts =>
      cases found
      rw [startsAt, at_]
      exact starts
    next =>
      obtain ⟨⟨j, later⟩, is, same⟩ := Option.map_eq_some_iff.mp found
      cases same
      have rest_ : s.drop (i + 1) = rest := by
        rw [← List.drop_drop, at_]
        rfl
      exact ih rest_ is

theorem indexOf_starts {k : From i} (found : indexOf s word i = some k) : startsAt s word k = true :=
  indexAfter_starts rfl found

end CodeGraph.Scanning

/-!
# Texts that are rewritten in place

The units that are fixed stay where they are, and no other unit becomes one.
-/
namespace CodeGraph.InPlace

variable {α : Type} {fixed : α → Prop} {s out : List α}

structure Keeps (fixed : α → Prop) (s out : List α) : Prop where
  length : out.length = s.length
  places : ∀ (p : Nat) (u : α), fixed u → (out[p]? = some u ↔ s[p]? = some u)

theorem Keeps.of_units (length : out.length = s.length)
    (units : ∀ p : Nat, p < s.length → out[p]? = s[p]? ∨
      ∃ c d, s[p]? = some c ∧ out[p]? = some d ∧ ¬fixed c ∧ ¬fixed d) : Keeps fixed s out := by
  refine ⟨length, fun p u is_fixed => ?_⟩
  by_cases inside : p < s.length
  · rcases units p inside with same | ⟨c, d, was, is, loose, loose'⟩
    · rw [same]
    · rw [was, is, Option.some.injEq, Option.some.injEq]
      constructor
      · rintro rfl
        exact absurd is_fixed loose'
      · rintro rfl
        exact absurd is_fixed loose
  · have beyond : s.length ≤ p := Nat.not_lt.mp inside
    rw [List.getElem?_eq_none beyond, List.getElem?_eq_none (length ▸ beyond)]

theorem Keeps.refl (s : List α) : Keeps fixed s s := ⟨rfl, fun _ _ _ => Iff.rfl⟩

end CodeGraph.InPlace
