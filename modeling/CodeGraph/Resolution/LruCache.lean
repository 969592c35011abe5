import CodeGraph.Foundation.InsertionMap
import CodeGraph.Foundation.LinkedCells

/-!
# The resolver's LRU cache

`resolution/lru-cache.ts`: a map into entries that are threaded, oldest first, on a doubly linked
list. It answers as an association list in the order of last use does.
-/
namespace CodeGraph.Resolution.LruCache

open InsertionMap LinkedCells

variable {K V : Type} [DecidableEq K]

/-! ### The code -/

abbrev LRUEntry (K V : Type) := Cell (K × V)

structure LRUCache (K V : Type) where
  max : Nat
  store : List (K × Ref)
  oldest : Option Ref
  newest : Option Ref
  heap : Heap (K × V)
  /-- The reference of the next entry. -/
  fresh : Ref

namespace LRUCache

omit [DecidableEq K] in
def new (max : Int) : Except String (LRUCache K V) :=
  if max ≤ 0 then .error s!"LRUCache max must be a positive finite number, got {max}"
  else .ok ⟨max.toNat, [], none, none, fun _ => none, 0⟩

def size (c : LRUCache K V) : Nat := c.store.length

def unlink (c : LRUCache K V) (r : Ref) : LRUCache K V :=
  match c.heap r with
  | none => c
  | some entry =>
    { c with
      heap := LinkedCells.unlink c.heap entry
      oldest := if entry.older = none then entry.newer else c.oldest
      newest := if entry.newer = none then entry.older else c.newest }

def touch (c : LRUCache K V) (r : Ref) : LRUCache K V :=
  if c.newest = some r then c
  else
    let c := c.unlink r
    match c.heap r with
    | none => c
    | some entry =>
      { c with
        heap := setNewer (write c.heap r { entry with older := c.newest, newer := none })
          c.newest (some r)
        newest := some r }

def get (c : LRUCache K V) (key : K) : Option V × LRUCache K V :=
  match lookup c.store key with
  | none => (none, c)
  | some r => (((c.touch r).heap r).map (·.item.2), c.touch r)

def has (c : LRUCache K V) (key : K) : Bool := (lookup c.store key).isSome

def evict (c : LRUCache K V) : LRUCache K V :=
  match c.oldest with
  | none => c
  | some r =>
    match c.heap r with
    | none => c
    | some entry =>
      if c.size ≥ c.max then { c with store := unassign c.store entry.item.1 }.unlink r else c

def add (c : LRUCache K V) (key : K) (value : V) : LRUCache K V :=
  { c with
    heap := setNewer (write c.heap c.fresh ⟨(key, value), c.newest, none⟩) c.newest (some c.fresh)
    oldest := if c.newest = none then some c.fresh else c.oldest
    newest := some c.fresh
    store := assign c.store key c.fresh
    fresh := c.fresh + 1 }

def set (c : LRUCache K V) (key : K) (value : V) : LRUCache K V :=
  match lookup c.store key with
  | some r =>
    { c with heap := update c.heap r fun entry => { entry with item := (entry.item.1, value) } }
      |>.touch r
  | none => c.evict.add key value

def clear (c : LRUCache K V) : LRUCache K V := { c with store := [], oldest := none, newest := none }

end LRUCache

inductive Op (K V : Type) where
  | get (key : K)
  | set (key : K) (value : V)
  | has (key : K)
  | clear

inductive Result (V : Type) where
  | got (value : Option V)
  | has (there : Bool)
  | done

def LRUCache.step (c : LRUCache K V) : Op K V → Result V × LRUCache K V
  | .get key => (.got (c.get key).1, (c.get key).2)
  | .set key value => (.done, c.set key value)
  | .has key => (.has (c.has key), c)
  | .clear => (.done, c.clear)

abbrev Recency (K V : Type) := List (K × V)

namespace Recency

def get (l : Recency K V) (key : K) : Option V × Recency K V :=
  match lookup l key with
  | none => (none, l)
  | some value => (some value, (key, value) :: unassign l key)

def set (capacity : Nat) (l : Recency K V) (key : K) (value : V) : Recency K V :=
  match lookup l key with
  | some _ => (key, value) :: unassign l key
  | none => (key, value) :: if l.length ≥ capacity then l.dropLast else l

def step (capacity : Nat) (l : Recency K V) : Op K V → Result V × Recency K V
  | .get key => (.got (get l key).1, (get l key).2)
  | .set key value => (.done, set capacity l key value)
  | .has key => (.has (lookup l key).isSome, l)
  | .clear => (.done, [])

end Recency

def run {σ : Type} (step : σ → Op K V → Result V × σ) : σ → List (Op K V) → List (Result V) × σ
  | s, [] => ([], s)
  | s, op :: ops =>
    let (result, next) := step s op
    let (results, last) := run step next ops
    (result :: results, last)

structure Threads (c : LRUCache K V) (cells : Cells (K × V)) : Prop where
  chain : Chain c.heap c.oldest c.newest cells
  keys : (cells.map (·.2.1)).Nodup
  stored : c.store.Perm (cells.map fun cell => (cell.2.1, cell.1))
  below : ∀ cell ∈ cells, cell.1 < c.fresh

def recency (cells : Cells (K × V)) : Recency K V := (cells.map Prod.snd).reverse

variable {c : LRUCache K V} {cells left right : Cells (K × V)} {r : Ref} {key : K} {value : V}

omit [DecidableEq K] in
theorem Threads.size (threads : Threads c cells) : c.size = cells.length := by
  rw [LRUCache.size, threads.stored.length_eq, List.length_map]

omit [DecidableEq K] in
private theorem Threads.store_nodup (threads : Threads c cells) :
    ((cells.map fun cell => (cell.2.1, cell.1)).map Prod.fst).Nodup := by
  rw [List.map_map]
  exact threads.keys

theorem Threads.lookup_iff (threads : Threads c cells) :
    lookup c.store key = some r ↔ ∃ value, (r, (key, value)) ∈ cells := by
  have whole : lookup c.store key = lookup (cells.map fun cell => (cell.2.1, cell.1)) key :=
    (lookup_perm threads.stored.symm threads.store_nodup key).symm
  rw [whole]
  constructor
  · intro found
    obtain ⟨⟨ref, k, value⟩, listed, same⟩ := List.mem_map.mp (mem_of_lookup found)
    cases same
    exact ⟨value, listed⟩
  · rintro ⟨value, listed⟩
    exact lookup_of_mem threads.store_nodup (List.mem_map.mpr ⟨_, listed, rfl⟩)

omit [DecidableEq K] in
private theorem recency_keys (keys : (cells.map (·.2.1)).Nodup) :
    ((recency cells).map Prod.fst).Nodup := by
  rw [recency, List.map_reverse, List.nodup_reverse, List.map_map]
  exact keys

theorem lookup_recency (keys : (cells.map (·.2.1)).Nodup) :
    lookup (recency cells) key = some value ↔ ∃ r, (r, (key, value)) ∈ cells := by
  have listed : (key, value) ∈ recency cells ↔ ∃ r, (r, (key, value)) ∈ cells := by
    simp [recency]
  rw [← listed]
  exact ⟨mem_of_lookup, lookup_of_mem (recency_keys keys)⟩

omit [DecidableEq K] in
theorem recency_append : recency (left ++ right) = recency right ++ recency left := by
  simp [recency]

omit [DecidableEq K] in
private theorem split_keys (keys : ((left ++ (r, (key, value)) :: right).map (·.2.1)).Nodup) :
    ((left ++ right).map (·.2.1)).Nodup ∧ key ∉ (left ++ right).map (·.2.1) := by
  rw [List.map_append, List.map_cons] at keys
  rw [List.map_append]
  exact ⟨keys.sublist (List.Sublist.append_left (List.sublist_cons_self _ _) _),
    (List.nodup_middle.mp keys).notMem⟩

private theorem unassign_recency
    (keys : ((left ++ (r, (key, value)) :: right).map (·.2.1)).Nodup) :
    unassign (recency (left ++ (r, (key, value)) :: right)) key = recency (left ++ right) := by
  obtain ⟨-, absent⟩ := split_keys keys
  have kept : unassign (recency (left ++ right)) key = recency (left ++ right) :=
    unassign_absent fun listed => absent (by simpa [recency, or_comm] using listed)
  rw [recency_append] at kept ⊢
  rw [recency_append, show recency ((r, (key, value)) :: right) = recency right ++ [(key, value)] by
    simp [recency]]
  simpa [unassign] using kept

omit [DecidableEq K] in
private theorem threads_middle (threads : Threads c (left ++ (r, (key, value)) :: right))
    {c' : LRUCache K V}
    (chain : Chain c'.heap c'.oldest c'.newest (left ++ right ++ [(r, (key, value))]))
    (store : c'.store = c.store) (fresh : c'.fresh = c.fresh) :
    Threads c' (left ++ right ++ [(r, (key, value))]) := by
  have perm : (left ++ (r, (key, value)) :: right).Perm (left ++ right ++ [(r, (key, value))]) := by
    rw [List.append_assoc]
    exact List.Perm.append_left left (List.perm_append_singleton _ right).symm
  refine ⟨chain, (perm.map _).nodup_iff.mp threads.keys, ?_, fun cell listed => ?_⟩
  · rw [store]
    exact threads.stored.trans (perm.map _)
  · rw [fresh]
    exact threads.below cell (perm.mem_iff.mpr listed)

omit [DecidableEq K] in
theorem Threads.touch (threads : Threads c (left ++ (r, (key, value)) :: right)) :
    Threads (c.touch r) (left ++ right ++ [(r, (key, value))]) ∧
      ((c.touch r).heap r).map (·.item.2) = some value := by
  have cell := threads.chain.cell
  unfold LRUCache.touch
  split
  · next newest =>
    obtain rfl := threads.chain.newest_iff.mp newest
    refine ⟨?_, by rw [cell]; rfl⟩
    rw [List.append_nil]
    exact threads
  · next newest =>
    have apart : r ∉ (left ++ right).map Prod.fst := by
      have distinct := threads.chain.distinct
      rw [List.map_append, List.map_cons] at distinct
      rw [List.map_append]
      exact (List.nodup_middle.mp distinct).notMem
    obtain ⟨newer, some_⟩ : ∃ newer, firstRef right = some newer := by
      cases right with
      | nil => exact absurd (threads.chain.newest_iff.mpr rfl) newest
      | cons cell right => exact ⟨_, rfl⟩
    have step : c.unlink r =
        { c with
          heap := LinkedCells.unlink c.heap ⟨(key, value), lastRef left, firstRef right⟩
          oldest := if lastRef left = none then firstRef right else c.oldest
          newest := if firstRef right = none then lastRef left else c.newest } := by
      rw [LRUCache.unlink, cell]
    have still : (c.unlink r).heap r = some ⟨(key, value), lastRef left, firstRef right⟩ := by
      rw [step]
      exact threads.chain.unlink_cell.trans cell
    have there : (c.unlink r).newest = c.newest := by
      rw [step]
      simp [some_]
    have unlinked : Chain (c.unlink r).heap (c.unlink r).oldest (c.unlink r).newest
        (left ++ right) := by
      rw [step]
      exact threads.chain.unlink
    have pushed := unlinked.push apart (key, value)
    have not_alone : (c.unlink r).newest ≠ none := by
      rw [there, threads.chain.last, lastRef_append, lastRef_cons]
      cases lastRef right <;> simp
    rw [if_neg not_alone] at pushed
    simp only [still]
    refine ⟨threads_middle threads pushed ?_ ?_, ?_⟩
    · simp [step]
    · simp [step]
    · rw [there, setNewer_other newest, write_same]
      rfl

omit [DecidableEq K] in
private theorem Threads.setItem (threads : Threads c (left ++ (r, (key, value)) :: right))
    (value' : V) :
    Threads
      { c with heap := update c.heap r fun entry => { entry with item := (entry.item.1, value') } }
      (left ++ (r, (key, value')) :: right) := by
  have same : (update c.heap r fun entry => { entry with item := (entry.item.1, value') }) =
      update c.heap r fun entry => { entry with item := (key, value') } := by
    funext s
    by_cases here : s = r
    · simp [update, here, threads.chain.cell]
    · simp [update, here]
  rw [same]
  refine ⟨threads.chain.setItem (key, value'), ?_, ?_, ?_⟩
  · simpa using threads.keys
  · simpa using threads.stored
  · intro cell listed
    rcases List.mem_append.mp listed with before | later
    · exact threads.below cell (List.mem_append_left _ before)
    · rcases List.mem_cons.mp later with rfl | after
      · exact threads.below (r, (key, value)) (by simp)
      · exact threads.below cell (by simp [after])

private theorem Threads.evict (threads : Threads c cells) (positive : 1 ≤ c.max) :
    ∃ rest, Threads c.evict rest ∧ c.evict.max = c.max ∧ (rest <:+ cells) ∧
      recency rest =
        if (recency cells).length ≥ c.max then (recency cells).dropLast else recency cells := by
  have length : (recency cells).length = c.size := by
    rw [threads.size, recency, List.length_reverse, List.length_map]
  rw [length]
  unfold LRUCache.evict
  cases cells with
  | nil =>
    have none_ : c.oldest = none := threads.chain.first
    have room : ¬c.size ≥ c.max := by
      rw [threads.size]
      exact Nat.not_le.mpr positive
    rw [none_, if_neg room]
    exact ⟨[], threads, rfl, List.suffix_rfl, rfl⟩
  | cons cell rest =>
    obtain ⟨r, key, value⟩ := cell
    have first : c.oldest = some r := threads.chain.first
    have chain : Chain c.heap c.oldest c.newest ([] ++ (r, (key, value)) :: rest) := threads.chain
    have here : c.heap r = some ⟨(key, value), none, firstRef rest⟩ := chain.cell
    simp only [first, here]
    split
    · next full =>
      refine ⟨rest, ?_, ?_, List.suffix_cons _ _, ?_⟩
      · have unlinked := chain.unlink
        have keys := threads.keys
        rw [List.map_cons, List.nodup_cons] at keys
        simp only [LRUCache.unlink, here]
        refine ⟨unlinked, keys.2, ?_, fun cell listed => threads.below cell (by simp [listed])⟩
        have others := threads.stored.filter fun e => decide (e.1 ≠ key)
        have kept : unassign (rest.map fun cell => (cell.2.1, cell.1)) key =
            rest.map fun cell => (cell.2.1, cell.1) :=
          unassign_absent fun listed => keys.1 (by simpa using listed)
        rw [List.map_cons, List.filter_cons_of_neg (by simp)] at others
        exact others.trans (List.Perm.of_eq kept)
      · simp [LRUCache.unlink, here]
      · simp [recency]
    · exact ⟨_, threads, rfl, List.suffix_rfl, rfl⟩

private theorem Threads.add (threads : Threads c cells) (absent : key ∉ cells.map (·.2.1))
    (value : V) : Threads (c.add key value) (cells ++ [(c.fresh, (key, value))]) := by
  have fresh : c.fresh ∉ cells.map Prod.fst := by
    intro listed
    obtain ⟨cell, member, same⟩ := List.mem_map.mp listed
    exact Nat.lt_irrefl c.fresh (same ▸ threads.below cell member)
  refine ⟨threads.chain.push fresh (key, value), ?_, ?_, ?_⟩
  · rw [List.map_append]
    exact nodup_snoc threads.keys absent
  · have no_key : key ∉ c.store.map Prod.fst := by
      intro stored
      have listed := (threads.stored.map Prod.fst).mem_iff.mp stored
      exact absent (by simpa using listed)
    rw [LRUCache.add, assign_absent no_key, List.map_append]
    exact threads.stored.append_right _
  · exact forall_snoc (fun cell old => Nat.lt_succ_of_lt (threads.below cell old))
      (Nat.lt_succ_self c.fresh)

/-! ### The refinement -/

/-- The cache holds what the textbook map does, on a list that is exactly its keys. -/
structure Refines (capacity : Nat) (c : LRUCache K V) (l : Recency K V) : Prop where
  max : c.max = capacity
  threads : ∃ cells, Threads c cells ∧ recency cells = l
  bounded : c.size ≤ capacity

variable {capacity : Nat} {l : Recency K V}

omit [DecidableEq K] in
theorem unlink_max (c : LRUCache K V) (r : Ref) : (c.unlink r).max = c.max := by
  unfold LRUCache.unlink
  cases c.heap r <;> rfl

omit [DecidableEq K] in
theorem touch_max (c : LRUCache K V) (r : Ref) : (c.touch r).max = c.max := by
  unfold LRUCache.touch
  split
  · rfl
  · dsimp only
    split <;> exact unlink_max c r

private theorem Refines.used (threads : Threads c (left ++ (r, (key, value)) :: right))
    (max : c.max = capacity) (bounded : c.size ≤ capacity) :
    Refines capacity (c.touch r)
      ((key, value) :: unassign (recency (left ++ (r, (key, value)) :: right)) key) := by
  obtain ⟨touched, -⟩ := threads.touch
  refine ⟨(touch_max c r).trans max, ⟨_, touched, ?_⟩, ?_⟩
  · rw [unassign_recency threads.keys, recency_append]
    rfl
  · rw [touched.size]
    rw [threads.size] at bounded
    simpa [Nat.add_assoc] using bounded

private theorem Refines.get (refines : Refines capacity c l) (key : K) :
    (c.get key).1 = (Recency.get l key).1 ∧
      Refines capacity (c.get key).2 (Recency.get l key).2 := by
  obtain ⟨max, ⟨cells, threads, rfl⟩, bounded⟩ := refines
  unfold LRUCache.get Recency.get
  cases found : lookup c.store key with
  | none =>
    have absent : lookup (recency cells) key = none := by
      refine Option.eq_none_iff_forall_ne_some.mpr fun value there => ?_
      obtain ⟨r, listed⟩ := (lookup_recency threads.keys).mp there
      cases found.symm.trans (threads.lookup_iff.mpr ⟨value, listed⟩)
    rw [absent]
    exact ⟨rfl, max, ⟨cells, threads, rfl⟩, bounded⟩
  | some r =>
    obtain ⟨value, listed⟩ := threads.lookup_iff.mp found
    have there : lookup (recency cells) key = some value :=
      (lookup_recency threads.keys).mpr ⟨r, listed⟩
    rw [there]
    obtain ⟨left, right, rfl⟩ := List.append_of_mem listed
    exact ⟨threads.touch.2, .used threads max bounded⟩

private theorem Refines.set (refines : Refines capacity c l) (positive : 1 ≤ capacity) (key : K)
    (value : V) : Refines capacity (c.set key value) (Recency.set capacity l key value) := by
  obtain ⟨max, ⟨cells, threads, rfl⟩, bounded⟩ := refines
  unfold LRUCache.set Recency.set
  cases found : lookup c.store key with
  | some r =>
    obtain ⟨old, listed⟩ := threads.lookup_iff.mp found
    have there : lookup (recency cells) key = some old :=
      (lookup_recency threads.keys).mpr ⟨r, listed⟩
    rw [there]
    obtain ⟨left, right, rfl⟩ := List.append_of_mem listed
    have used := Refines.used (threads.setItem value) max bounded
    rwa [unassign_recency (threads.setItem value).keys, ← unassign_recency threads.keys] at used
  | none =>
    have absent : key ∉ cells.map (·.2.1) := by
      intro there
      obtain ⟨⟨r, k, old⟩, listed, rfl⟩ := List.mem_map.mp there
      cases found.symm.trans (threads.lookup_iff.mpr ⟨old, listed⟩)
    have unknown : lookup (recency cells) key = none :=
      lookup_none.mpr fun there => absent (by simpa [recency] using there)
    rw [unknown]
    obtain ⟨rest, kept, same_max, suffix, order⟩ := threads.evict (max ▸ positive)
    have still_absent : key ∉ rest.map (·.2.1) := fun there =>
      absent ((suffix.map _).subset there)
    have added := kept.add still_absent value
    refine ⟨same_max.trans max, ⟨_, added, ?_⟩, ?_⟩
    · rw [recency_append, order, max]
      rfl
    · have length := congrArg List.length order
      rw [added.size]
      rw [threads.size] at bounded
      simp only [recency, List.length_reverse, List.length_map, List.length_append,
        List.length_singleton, max] at length ⊢
      split at length
      · next full =>
        simp only [List.length_dropLast, List.length_reverse, List.length_map] at length full
        omega
      · next room =>
        simp only [List.length_reverse, List.length_map] at length room
        omega

private theorem Refines.step (refines : Refines capacity c l) (positive : 1 ≤ capacity)
    (op : Op K V) :
    (c.step op).1 = (Recency.step capacity l op).1 ∧
      Refines capacity (c.step op).2 (Recency.step capacity l op).2 := by
  cases op with
  | get key =>
    obtain ⟨same, next⟩ := refines.get key
    exact ⟨congrArg Result.got same, next⟩
  | set key value => exact ⟨rfl, refines.set positive key value⟩
  | has key =>
    refine ⟨?_, refines⟩
    obtain ⟨-, ⟨cells, threads, rfl⟩, -⟩ := refines
    have same : (lookup c.store key).isSome = (lookup (recency cells) key).isSome := by
      rw [Bool.eq_iff_iff, Option.isSome_iff_exists, Option.isSome_iff_exists]
      simp only [threads.lookup_iff, lookup_recency threads.keys]
      exact exists_comm
    exact congrArg Result.has same
  | clear =>
    exact ⟨rfl, refines.max, ⟨[], ⟨chain_nil _, List.nodup_nil, .nil, by simp⟩, rfl⟩, Nat.zero_le _⟩

private theorem Refines.run (refines : Refines capacity c l) (positive : 1 ≤ capacity)
    (ops : List (Op K V)) :
    (run LRUCache.step c ops).1 = (run (Recency.step capacity) l ops).1 ∧
      Refines capacity (run LRUCache.step c ops).2 (run (Recency.step capacity) l ops).2 := by
  induction ops generalizing c l with
  | nil => exact ⟨rfl, refines⟩
  | cons op ops ih =>
    obtain ⟨same, next⟩ := refines.step positive op
    obtain ⟨results, last⟩ := ih next
    exact ⟨congrArg₂ List.cons same results, last⟩

/-- A cache of every positive capacity answers every sequence of operations as the textbook map
does, and its list is exactly the keys it stores. -/
theorem lru_refines (max : Int) (positive : 1 ≤ max) (ops : List (Op K V)) :
    ∃ c : LRUCache K V, LRUCache.new max = .ok c ∧
      (run LRUCache.step c ops).1 = (run (Recency.step max.toNat) [] ops).1 ∧
      Refines max.toNat (run LRUCache.step c ops).2 (run (Recency.step max.toNat) [] ops).2 := by
  have fits : ¬max ≤ 0 := by omega
  refine ⟨_, by rw [LRUCache.new, if_neg fits], ?_⟩
  have room : 1 ≤ max.toNat := by omega
  exact Refines.run
    ⟨rfl, ⟨[], ⟨chain_nil _, List.nodup_nil, .nil, by simp⟩, rfl⟩, Nat.zero_le _⟩ room ops

/-- Capacity two: the key that was read stays, the other one goes. -/
theorem lru_refines_two :
    (1 : Int) ≤ 2 ∧ ∃ c : LRUCache Nat Nat, LRUCache.new 2 = .ok c ∧
      (run LRUCache.step c [.set 1 10, .set 2 20, .get 1, .set 3 30, .get 2, .get 1]).1 =
        (run (Recency.step 2) [] [.set 1 10, .set 2 20, .get 1, .set 3 30, .get 2, .get 1]).1 ∧
      Refines 2 (run LRUCache.step c [.set 1 10, .set 2 20, .get 1, .set 3 30, .get 2, .get 1]).2
        (run (Recency.step 2) [] [.set 1 10, .set 2 20, .get 1, .set 3 30, .get 2, .get 1]).2 :=
  ⟨by decide, lru_refines 2 (by decide) _⟩

end CodeGraph.Resolution.LruCache
