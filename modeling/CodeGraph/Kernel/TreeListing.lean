import CodeGraph.Foundation.Buckets
import CodeGraph.Kernel.Tree

/-! Ordered trees listed in preorder. -/
namespace CodeGraph.Kernel.Tree

open Buckets

/-- What the listing keeps of one tree node; a field id is never 0, which stands for no field. -/
structure NodeInfo where
  kind : UInt16
  isNamed : Bool
  hasError : Bool
  isMissing : Bool
  field : Option {f : UInt16 // f ≠ 0}
  start_byte : UInt32
  end_byte : UInt32
  start_row : UInt32
  start_col : UInt32
  end_row : UInt32
  end_col : UInt32
  start_idx : UInt32
  end_idx : UInt32
  extra_fields : List {f : UInt16 // f ≠ 0}

inductive CstTree where
  | node (info : NodeInfo) (children : List CstTree)

namespace CstTree

mutual

def size : CstTree → Nat
  | .node _ children => 1 + sizes children

def sizes : List CstTree → Nat
  | [] => 0
  | t :: ts => size t + sizes ts

end

def roots (start : Nat) : List CstTree → List Nat
  | [] => []
  | t :: ts => start :: roots (start + t.size) ts

end CstTree

structure Entry where
  info : NodeInfo
  parent : Option Nat
  children : List Nat

open CstTree

mutual

/-- The preorder of a tree whose root gets the index `start`. -/
def listing (parent : Option Nat) (start : Nat) : CstTree → List Entry
  | .node info children =>
    ⟨info, parent, roots (start + 1) children⟩ :: listings (some start) (start + 1) children

def listings (parent : Option Nat) (start : Nat) : List CstTree → List Entry
  | [] => []
  | t :: ts => listing parent start t ++ listings parent (start + t.size) ts

end

def parents (es : List Entry) : List (Option Nat) := es.map Entry.parent

mutual

theorem length_listing (parent : Option Nat) (start : Nat) :
    ∀ t, (listing parent start t).length = t.size
  | .node info children => by
    rw [listing, List.length_cons, length_listings, size, Nat.add_comm]

theorem length_listings (parent : Option Nat) (start : Nat) :
    ∀ ts, (listings parent start ts).length = sizes ts
  | [] => rfl
  | t :: ts => by
    rw [listings, List.length_append, length_listing, length_listings, sizes]

end

private def Within (parent : Option Nat) (start : Nat) (es : List Entry) : Prop :=
  ∀ e ∈ es, e.parent = parent ∨ ∃ q, e.parent = some q ∧ start ≤ q ∧ q < start + es.length

mutual

private theorem listing_within (parent : Option Nat) (start : Nat) :
    ∀ t, Within parent start (listing parent start t)
  | .node info children => by
    intro e member
    rw [listing] at member ⊢
    rcases List.mem_cons.mp member with rfl | inner
    · exact .inl rfl
    · right
      rcases listings_within (some start) (start + 1) children e inner with own | ⟨q, eq, low, high⟩
      · exact ⟨start, own, Nat.le_refl _, by rw [List.length_cons]; omega⟩
      · exact ⟨q, eq, by omega, by rw [List.length_cons]; omega⟩

private theorem listings_within (parent : Option Nat) (start : Nat) :
    ∀ ts, Within parent start (listings parent start ts)
  | [] => by simp [Within, listings]
  | t :: ts => by
    intro e member
    have size := length_listing parent start t
    rw [listings] at member ⊢
    rw [List.length_append]
    rcases List.mem_append.mp member with first | rest
    · exact (listing_within parent start t e first).imp_right fun ⟨q, eq, low, high⟩ =>
        ⟨q, eq, low, by omega⟩
    · exact (listings_within parent _ ts e rest).imp_right fun ⟨q, eq, low, high⟩ =>
        ⟨q, eq, by omega, by omega⟩

end

private theorem bucket_outside {parent : Option Nat} {start at_ q : Nat} {es : List Entry}
    (within : Within parent start es) (other : parent ≠ some q)
    (outside : q < start ∨ start + es.length ≤ q) : bucket (some q) at_ (parents es) = [] := by
  apply bucket_eq_nil
  intro member
  obtain ⟨e, inside, eq⟩ := List.mem_map.mp member
  rcases within e inside with own | ⟨r, eq', low, high⟩
  · exact other (own.symm.trans eq)
  · have same : r = q := Option.some.inj (eq'.symm.trans eq)
    omega

private def Before (parent : Option Nat) (start : Nat) : Prop := ∀ q, parent = some q → q < start

mutual

private theorem listing_roots (parent : Option Nat) (start : Nat) (before : Before parent start) :
    ∀ t, bucket parent start (parents (listing parent start t)) = [start]
  | .node info children => by
    have inner : bucket parent (start + 1) (parents (listings (some start) (start + 1) children)) =
        [] := by
      apply bucket_eq_nil
      intro member
      obtain ⟨e, inside, eq⟩ := List.mem_map.mp member
      rcases listings_within (some start) (start + 1) children e inside with own | ⟨q, eq', low, _⟩
      · exact Nat.lt_irrefl _ (before start (eq.symm.trans own))
      · have := before q (eq.symm.trans eq')
        omega
    rw [listing, parents, List.map_cons, bucket, if_pos rfl]
    exact congrArg (start :: ·) inner

private theorem listings_roots (parent : Option Nat) (start : Nat) (before : Before parent start) :
    ∀ ts, bucket parent start (parents (listings parent start ts)) = roots start ts
  | [] => rfl
  | t :: ts => by
    have rest := listings_roots parent (start + t.size)
      (fun q eq => Nat.lt_of_lt_of_le (before q eq) (Nat.le_add_right _ _)) ts
    rw [listings, parents, List.map_append, bucket_append, List.length_map, length_listing, roots]
    change bucket parent start (parents _) ++ bucket parent _ (parents _) = _
    rw [listing_roots parent start before t, rest]
    rfl

end

private def Consistent (start : Nat) (es : List Entry) : Prop :=
  ∀ i e, es[i]? = some e → e.children = bucket (some (start + i)) start (parents es)

private theorem consistent_append {parent : Option Nat} {start : Nat} {left right : List Entry}
    (before : Before parent start) (withinLeft : Within parent start left)
    (withinRight : Within parent (start + left.length) right)
    (first : Consistent start left) (second : Consistent (start + left.length) right) :
    Consistent start (left ++ right) := by
  intro i e found
  rw [parents, List.map_append, bucket_append, List.length_map]
  change _ = bucket _ start (parents left) ++ bucket _ _ (parents right)
  have other (q : Nat) (low : start ≤ q) : parent ≠ some q := fun eq => by
    have := before q eq
    omega
  by_cases low : i < left.length
  · rw [List.getElem?_append_left low] at found
    rw [bucket_outside withinRight (other _ (by omega)) (.inl (by omega)), List.append_nil]
    exact first i e found
  · rw [List.getElem?_append_right (by omega)] at found
    have shift : start + left.length + (i - left.length) = start + i := by omega
    rw [bucket_outside withinLeft (other _ (by omega)) (.inr (by omega)), List.nil_append, ← shift]
    exact second (i - left.length) e found

mutual

private theorem listing_consistent (parent : Option Nat) (start : Nat)
    (before : Before parent start) : ∀ t, Consistent start (listing parent start t)
  | .node info children => by
    have inside : Before (some start) (start + 1) := by
      rintro q ⟨⟩
      exact Nat.lt_succ_self _
    have inner := listings_consistent (some start) (start + 1) inside children
    have own := listings_roots (some start) (start + 1) inside children
    intro i e found
    rw [listing] at found ⊢
    rw [parents, List.map_cons]
    have skip (q : Nat) (low : start ≤ q) : (parent = some q) = False :=
      eq_false fun eq => by
        have := before q eq
        omega
    cases i with
    | zero =>
      cases found
      rw [bucket]
      simp only [skip (start + 0) (Nat.le_refl _), if_false]
      exact own.symm
    | succ i =>
      rw [List.getElem?_cons_succ] at found
      have shift : start + (i + 1) = start + 1 + i := by omega
      rw [bucket]
      simp only [skip (start + (i + 1)) (by omega), if_false]
      rw [shift]
      exact inner i e found

private theorem listings_consistent (parent : Option Nat) (start : Nat)
    (before : Before parent start) : ∀ ts, Consistent start (listings parent start ts)
  | [] => by
    intro i e found
    simp [listings] at found
  | t :: ts => by
    have size := length_listing parent start t
    have later : Before parent (start + (listing parent start t).length) := fun q eq =>
      Nat.lt_of_lt_of_le (before q eq) (Nat.le_add_right _ _)
    rw [listings, ← size]
    exact consistent_append before (listing_within parent start t)
      (listings_within parent _ ts) (listing_consistent parent start before t)
      (listings_consistent parent _ later ts)

end

def entries (t : CstTree) : List Entry := listing none 0 t

theorem entries_children {t : CstTree} {i : Nat} {e : Entry} (found : (entries t)[i]? = some e) :
    e.children = bucket (some i) 0 (parents (entries t)) := by
  have consistent := listing_consistent none 0 (fun q eq => by cases eq) t i e found
  rwa [Nat.zero_add] at consistent

theorem entries_parent {t : CstTree} {i p : Nat} {e : Entry} (found : (entries t)[i]? = some e)
    (parent : e.parent = some p) : p < (entries t).length := by
  rcases listing_within none 0 t e (List.mem_of_getElem? found) with nothing | ⟨q, eq, -, high⟩
  · rw [nothing] at parent
    cases parent
  · have same : q = p := Option.some.inj (eq.symm.trans parent)
    rw [Nat.zero_add] at high
    exact same ▸ high

end CodeGraph.Kernel.Tree
