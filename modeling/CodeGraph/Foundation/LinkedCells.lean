import CodeGraph.Foundation.Decisions

/-!
# Doubly linked cells on a heap

A heap maps references to cells, each with its neighbours. `Linked` says that a list of references
with their items is what the cells of a segment spell, in both directions; the writes that take a
cell out of a list or put one at its end are lemmas on segments.
-/
namespace CodeGraph.LinkedCells

abbrev Ref := Nat

structure Cell (α : Type) where
  item : α
  older : Option Ref
  newer : Option Ref

abbrev Heap (α : Type) := Ref → Option (Cell α)

variable {α : Type}

def write (heap : Heap α) (r : Ref) (cell : Cell α) : Heap α :=
  fun s => if s = r then some cell else heap s

def update (heap : Heap α) (r : Ref) (f : Cell α → Cell α) : Heap α :=
  fun s => if s = r then (heap s).map f else heap s

/-- `at_.newer = newer`, when there is such a cell. -/
def setNewer (heap : Heap α) (at_ newer : Option Ref) : Heap α :=
  match at_ with
  | none => heap
  | some r => update heap r fun cell => { cell with newer }

def setOlder (heap : Heap α) (at_ older : Option Ref) : Heap α :=
  match at_ with
  | none => heap
  | some r => update heap r fun cell => { cell with older }

variable {heap : Heap α} {r s : Ref} {at_ v : Option Ref}

theorem write_other {cell : Cell α} (other : s ≠ r) : write heap r cell s = heap s := if_neg other

theorem write_same {cell : Cell α} : write heap r cell r = some cell := if_pos rfl

theorem setNewer_other (other : at_ ≠ some s) : setNewer heap at_ v s = heap s := by
  cases at_ with
  | none => rfl
  | some r => exact if_neg fun same => other (congrArg some same.symm)

theorem setOlder_other (other : at_ ≠ some s) : setOlder heap at_ v s = heap s := by
  cases at_ with
  | none => rfl
  | some r => exact if_neg fun same => other (congrArg some same.symm)

/-! ### Segments -/

abbrev Cells (α : Type) := List (Ref × α)

def firstRef (cells : Cells α) : Option Ref := cells.head?.map Prod.fst

def lastRef (cells : Cells α) : Option Ref := cells.getLast?.map Prod.fst

def Linked (heap : Heap α) : Option Ref → Cells α → Option Ref → Prop
  | _, [], _ => True
  | prev, (r, item) :: cells, next =>
    heap r = some ⟨item, prev, (firstRef cells).or next⟩ ∧ Linked heap (some r) cells next

variable {prev next : Option Ref} {cells left right : Cells α} {item : α}

theorem firstRef_append : firstRef (left ++ right) = (firstRef left).or (firstRef right) := by
  cases left <;> simp [firstRef]

theorem lastRef_cons : lastRef ((r, item) :: cells) = (lastRef cells).or (some r) := by
  cases cells <;> simp [lastRef, List.getLast?_cons]

theorem lastRef_append : lastRef (left ++ right) = (lastRef right).or (lastRef left) := by
  simp only [lastRef, List.getLast?_append]
  cases right.getLast? <;> rfl

theorem lastRef_append_singleton : lastRef (cells ++ [(r, item)]) = some r := by
  simp [lastRef]

theorem lastRef_mem (last : lastRef cells = some r) : r ∈ cells.map Prod.fst := by
  obtain ⟨cell, found, rfl⟩ := Option.map_eq_some_iff.mp last
  exact List.mem_map_of_mem (List.mem_of_getLast? found)

theorem firstRef_mem (first : firstRef cells = some r) : r ∈ cells.map Prod.fst := by
  obtain ⟨cell, found, rfl⟩ := Option.map_eq_some_iff.mp first
  exact List.mem_map_of_mem (List.mem_of_head? found)

theorem Linked.frame {heap' : Heap α} (linked : Linked heap prev cells next)
    (same : ∀ r ∈ cells.map Prod.fst, heap' r = heap r) : Linked heap' prev cells next := by
  induction cells generalizing prev with
  | nil => trivial
  | cons cell cells ih =>
    obtain ⟨here, rest⟩ := linked
    exact ⟨(same cell.1 (by simp)).trans here,
      ih rest fun r listed => same r (List.mem_cons_of_mem cell.1 listed)⟩

theorem linked_append :
    Linked heap prev (left ++ right) next ↔
      Linked heap prev left ((firstRef right).or next) ∧
        Linked heap ((lastRef left).or prev) right next := by
  induction left generalizing prev with
  | nil => simp [Linked, lastRef]
  | cons cell left ih =>
    obtain ⟨r, item⟩ := cell
    simp only [List.cons_append, Linked, ih, firstRef_append, lastRef_cons, and_assoc,
      Option.or_assoc, Option.some_or]

theorem Linked.setNewer (linked : Linked heap prev cells next)
    (distinct : (cells.map Prod.fst).Nodup) (newer : Option Ref) :
    Linked (setNewer heap (lastRef cells) newer) prev cells newer := by
  rcases List.eq_nil_or_concat cells with rfl | ⟨before, ⟨r, item⟩, rfl⟩
  · trivial
  · rw [List.concat_eq_append] at *
    rw [List.map_append, List.nodup_append] at distinct
    have apart : ∀ s ∈ before.map Prod.fst, some r ≠ some s := fun s listed same =>
      distinct.2.2 s listed r (List.mem_singleton_self r) (Option.some.inj same).symm
    rw [linked_append] at linked ⊢
    rw [lastRef_append_singleton]
    obtain ⟨earlier, here, -⟩ := linked
    refine ⟨earlier.frame fun s listed => setNewer_other (apart s listed), ?_, trivial⟩
    simp [LinkedCells.setNewer, update, here, firstRef]

/-- Writing the neighbour of the first cell gives the segment another start. -/
theorem Linked.setOlder (linked : Linked heap prev cells next)
    (distinct : (cells.map Prod.fst).Nodup) (older : Option Ref) :
    Linked (setOlder heap (firstRef cells) older) older cells next := by
  cases cells with
  | nil => trivial
  | cons cell cells =>
    obtain ⟨r, item⟩ := cell
    obtain ⟨here, rest⟩ := linked
    have apart : ∀ s ∈ cells.map Prod.fst, some r ≠ some s := fun s listed same =>
      (List.nodup_cons.mp distinct).1 (Option.some.inj same ▸ listed)
    refine ⟨?_, rest.frame fun s listed => setOlder_other (apart s listed)⟩
    simp [LinkedCells.setOlder, update, here, firstRef]

/-! ### A whole list -/

structure Chain (heap : Heap α) (oldest newest : Option Ref) (cells : Cells α) : Prop where
  linked : Linked heap none cells none
  first : oldest = firstRef cells
  last : newest = lastRef cells
  distinct : (cells.map Prod.fst).Nodup

theorem chain_nil (heap : Heap α) : Chain heap none none [] := ⟨trivial, rfl, rfl, List.nodup_nil⟩

variable {oldest newest : Option Ref}

theorem Chain.cell (chain : Chain heap oldest newest (left ++ (r, item) :: right)) :
    heap r = some ⟨item, lastRef left, firstRef right⟩ := by
  have here := (linked_append.mp chain.linked).2.1
  simpa using here

theorem Chain.newest_iff (chain : Chain heap oldest newest (left ++ (r, item) :: right)) :
    newest = some r ↔ right = [] := by
  obtain ⟨-, -, last, distinct⟩ := chain
  rw [last, lastRef_append, lastRef_cons]
  constructor
  · intro same
    rcases List.eq_nil_or_concat right with none_ | ⟨before, ⟨s, item'⟩, rfl⟩
    · exact none_
    · have twice : s = r := by simpa [lastRef_append_singleton] using same
      simp [twice, List.nodup_append] at distinct
  · rintro rfl
    rfl

def unlink (heap : Heap α) (cell : Cell α) : Heap α :=
  setOlder (setNewer heap cell.older cell.newer) cell.newer cell.older

theorem Chain.unlink (chain : Chain heap oldest newest (left ++ (r, item) :: right)) :
    Chain (LinkedCells.unlink heap ⟨item, lastRef left, firstRef right⟩)
      (if lastRef left = none then firstRef right else oldest)
      (if firstRef right = none then lastRef left else newest) (left ++ right) := by
  obtain ⟨linked, first, last, distinct⟩ := chain
  rw [List.map_append, List.nodup_append, List.map_cons, List.nodup_cons] at distinct
  obtain ⟨left_distinct, ⟨-, right_distinct⟩, apart⟩ := distinct
  obtain ⟨before, -, after⟩ := linked_append.mp linked
  have right_apart : ∀ s ∈ left.map Prod.fst, firstRef right ≠ some s := fun s listed same =>
    apart s listed s (List.mem_cons_of_mem r (firstRef_mem same)) rfl
  have left_apart : ∀ s ∈ right.map Prod.fst, lastRef left ≠ some s := fun s listed same =>
    apart s (lastRef_mem same) s (List.mem_cons_of_mem r listed) rfl
  refine ⟨linked_append.mpr ⟨?_, ?_⟩, ?_, ?_, ?_⟩
  · rw [Option.or_none]
    refine (before.setNewer left_distinct _).frame fun s listed => ?_
    exact setOlder_other (right_apart s listed)
  · rw [Option.or_none]
    refine Linked.setOlder (after.frame fun s listed => ?_) right_distinct _
    exact setNewer_other (left_apart s listed)
  · rw [first]
    cases left <;> simp [firstRef, lastRef]
  · rw [last, lastRef_append, lastRef_append, lastRef_cons]
    cases right with
    | nil => rfl
    | cons cell right =>
      obtain ⟨last, whole⟩ : ∃ last, lastRef (cell :: right) = some last := by
        rw [lastRef_cons]
        cases lastRef right <;> simp
      simp [firstRef, whole]
  · rw [List.map_append, List.nodup_append]
    exact ⟨left_distinct, right_distinct, fun s here t there =>
      apart s here t (List.mem_cons_of_mem r there)⟩

/-- A cell outside the two neighbours is not written. -/
theorem Chain.unlink_cell (chain : Chain heap oldest newest (left ++ (r, item) :: right)) :
    LinkedCells.unlink heap ⟨item, lastRef left, firstRef right⟩ r = heap r := by
  have distinct := chain.distinct
  rw [List.map_append, List.nodup_append, List.map_cons, List.nodup_cons] at distinct
  obtain ⟨-, ⟨absent, -⟩, apart⟩ := distinct
  rw [LinkedCells.unlink, setOlder_other fun same => absent (firstRef_mem same),
    setNewer_other fun same => apart r (lastRef_mem same) r List.mem_cons_self rfl]

theorem Chain.setItem (chain : Chain heap oldest newest (left ++ (r, item) :: right)) (item' : α) :
    Chain (update heap r fun cell => { cell with item := item' }) oldest newest
      (left ++ (r, item') :: right) := by
  have cell := chain.cell
  obtain ⟨linked, first, last, distinct⟩ := chain
  have absent := distinct
  rw [List.map_append, List.nodup_append, List.map_cons, List.nodup_cons] at absent
  obtain ⟨-, ⟨not_right, -⟩, apart⟩ := absent
  have other : ∀ s ≠ r, update heap r (fun cell => { cell with item := item' }) s = heap s :=
    fun s different => if_neg different
  obtain ⟨before, -, after⟩ := linked_append.mp linked
  refine ⟨linked_append.mpr ⟨before.frame fun s listed => other s ?_, ?_,
    after.frame fun s listed => other s ?_⟩, ?_, ?_, ?_⟩
  · exact apart s listed r List.mem_cons_self
  · simp [update, cell]
  · rintro rfl
    exact not_right listed
  · rw [first, firstRef_append, firstRef_append]
    rfl
  · rw [last, lastRef_append, lastRef_append, lastRef_cons, lastRef_cons]
  · simpa using distinct

theorem Chain.push (chain : Chain heap oldest newest cells) (fresh : r ∉ cells.map Prod.fst)
    (item : α) :
    Chain (LinkedCells.setNewer (write heap r ⟨item, newest, none⟩) newest (some r))
      (if newest = none then some r else oldest) (some r) (cells ++ [(r, item)]) := by
  obtain ⟨linked, first, last, distinct⟩ := chain
  have other : newest ≠ some r := fun same => fresh (lastRef_mem (last ▸ same))
  refine ⟨linked_append.mpr ⟨?_, ?_, trivial⟩, ?_, lastRef_append_singleton.symm, ?_⟩
  · rw [last]
    refine Linked.setNewer (linked.frame fun s listed => write_other ?_) distinct _
    rintro rfl
    exact fresh listed
  · rw [setNewer_other other, write_same, last]
    simp [firstRef]
  · rw [first, last, firstRef_append]
    cases cells <;> simp [firstRef, lastRef]
  · rw [List.map_append]
    exact nodup_snoc distinct fresh

end CodeGraph.LinkedCells
