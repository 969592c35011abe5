import CodeGraph.Foundation.Distance
import CodeGraph.Foundation.FirstByKey

/-! Breadth-first search one level at a time. -/
namespace CodeGraph.Rings

open Distance FirstByKey

variable {α β : Type} [DecidableEq α]

/-- The rows of a level lead from its elements to what may be the next one. -/
structure Rows (α β : Type) where
  rows : List α → List β
  near : β → α
  far : β → α
  valid : β → Prop
  mem_rows : ∀ ids r, r ∈ rows ids ↔ near r ∈ ids ∧ valid r
  /-- The order of the elements makes no difference. -/
  rows_congr : ∀ a b, (∀ x, x ∈ a ↔ x ∈ b) → rows a = rows b

namespace Rows

variable (search : Rows α β) (start : α)

def Step (a b : α) : Prop := ∃ r, search.valid r ∧ search.near r = a ∧ search.far r = b

/-- What the rows of a level lead to that is not nearer, each once and in the order of the rows. -/
def nextRing (closer ring : List α) : List α :=
  (keepNew search.far closer (search.rows ring)).map search.far

def found : Nat → List α × List α
  | 0 => ([start], [start])
  | n + 1 =>
    let next := search.nextRing (found n).1 (found n).2
    ((found n).1 ++ next, next)

def closer (n : Nat) : List α := (search.found start n).1

def ring (n : Nat) : List α := (search.found start n).2

theorem ring_succ (n : Nat) :
    search.ring start (n + 1) = search.nextRing (search.closer start n) (search.ring start n) := rfl

theorem closer_succ (n : Nat) :
    search.closer start (n + 1) = search.closer start n ++ search.ring start (n + 1) := rfl

variable {search start} {x : α} {n : Nat}

theorem mem_nextRing {closer ring : List α} :
    x ∈ search.nextRing closer ring ↔ x ∉ closer ∧ ∃ a ∈ ring, search.Step a x := by
  rw [nextRing, List.mem_map]
  constructor
  · rintro ⟨r, kept, rfl⟩
    obtain ⟨fresh, first⟩ := mem_keepNew.mp kept
    obtain ⟨listed, valid⟩ := (search.mem_rows ring r).mp first.mem
    exact ⟨fresh, search.near r, listed, r, valid, rfl, rfl⟩
  · rintro ⟨fresh, a, listed, r, valid, rfl, rfl⟩
    obtain ⟨s, first, same⟩ := exists_first search.far ((search.mem_rows ring r).mpr ⟨listed, valid⟩)
    exact ⟨s, mem_keepNew.mpr ⟨same ▸ fresh, first⟩, same⟩

theorem mem_found :
    (x ∈ search.ring start n ↔ IsDistance search.Step start x n) ∧
      (x ∈ search.closer start n ↔ ∃ m ≤ n, IsDistance search.Step start x m) := by
  induction n generalizing x with
  | zero =>
    have only : x ∈ [start] ↔ IsDistance search.Step start x 0 := by
      rw [List.mem_singleton]
      refine ⟨fun same => ?_, fun far => far.1.zero⟩
      rw [same]
      exact distance_zero start
    refine ⟨only, only.trans ⟨fun far => ⟨0, Nat.le_refl 0, far⟩, ?_⟩⟩
    rintro ⟨m, le, far⟩
    exact Nat.le_zero.mp le ▸ far
  | succ n ih =>
    have level : x ∈ search.ring start (n + 1) ↔ IsDistance search.Step start x (n + 1) := by
      rw [ring_succ, mem_nextRing]
      constructor
      · rintro ⟨fresh, a, listed, step⟩
        have walk := (ih.1.mp listed).1.step step
        refine ⟨walk, fun m other => Nat.le_of_not_lt fun shorter => fresh ?_⟩
        obtain ⟨d, le, far⟩ := other.distance
        exact ih.2.mpr ⟨d, by omega, far⟩
      · intro far
        obtain ⟨a, nearer, step⟩ := far.before
        refine ⟨fun old => ?_, a, ih.1.mpr nearer, step⟩
        obtain ⟨m, le, other⟩ := ih.2.mp old
        have same := far.unique other
        omega
    refine ⟨level, ?_⟩
    rw [closer_succ, List.mem_append, level, ih.2]
    constructor
    · rintro (⟨m, le, far⟩ | far)
      · exact ⟨m, by omega, far⟩
      · exact ⟨n + 1, Nat.le_refl _, far⟩
    · rintro ⟨m, le, far⟩
      rcases Nat.lt_or_eq_of_le le with less | rfl
      · exact .inl ⟨m, by omega, far⟩
      · exact .inr far

theorem mem_ring : x ∈ search.ring start n ↔ IsDistance search.Step start x n := mem_found.1

theorem mem_closer : x ∈ search.closer start n ↔ ∃ m ≤ n, IsDistance search.Step start x m :=
  mem_found.2

theorem ring_nodup : (search.ring start n).Nodup := by
  cases n with
  | zero => exact List.nodup_singleton start
  | succ n => exact keepNew_keys_nodup

theorem closer_nodup : (search.closer start n).Nodup := by
  induction n with
  | zero => exact List.nodup_singleton start
  | succ n ih =>
    rw [closer_succ, List.nodup_append]
    refine ⟨ih, ring_nodup, fun a earlier b later same => ?_⟩
    obtain ⟨m, le, far⟩ := mem_closer.mp earlier
    have equal := (mem_ring.mp later).unique (same ▸ far)
    omega

theorem ring_empty (empty : search.ring start n = []) {m : Nat} (later : n ≤ m) :
    search.ring start m = [] := by
  induction later with
  | refl => exact empty
  | @step m _ ih =>
    refine List.eq_nil_iff_forall_not_mem.mpr fun x listed => ?_
    obtain ⟨a, nearer, -⟩ := (mem_ring.mp listed).before
    rw [← mem_ring, ih] at nearer
    cases nearer

end Rows

end CodeGraph.Rings
