import CodeGraph.Foundation.Nesting
import CodeGraph.Kernel.Columns
import CodeGraph.Resolution.AwaitedSanitizers

/-!
The awaited-call index of a file (`resolve/awaited.rs`): the lines of its code, and its blocks.

Offsets are in bytes of the sanitized text. Block 0 is the whole text.
-/
namespace CodeGraph.Resolution.Awaited

open CharOffsets Text Nesting PartitionPoint

structure Scope where
  start : Int
  stop : Nat
  parent : Int

structure AwaitedIndex where
  code : String
  /-- The offset of each line's start. -/
  offsets : List Nat
  scopes : List Scope

/-- The data of the loop over the bytes; the innermost open block is the first on the stack. -/
structure Building where
  offsets : List Nat
  scopes : List Scope
  stack : List Nat

def buildByte (length : Nat) (s : Building) (b : UInt8) (i : Nat) : Building :=
  if b = 0x0A then { s with offsets := s.offsets ++ [i + 1] }
  else if b = 0x7B then
    { s with
      scopes := s.scopes ++ [⟨i, length, (s.stack.headD 0 : Nat)⟩]
      stack := s.scopes.length :: s.stack }
  else if b = 0x7D then
    match s.stack with
    | top :: next :: rest =>
      { s with
        scopes := s.scopes.modify top fun scope => { scope with stop := i }
        stack := next :: rest }
    | _ => s
  else s

namespace AwaitedIndex

def ofCode (code : String) : AwaitedIndex :=
  let bytes := utf8 code
  let s := bytes.zipIdx.foldl (fun s b => buildByte bytes.length s b.1 b.2) ⟨[0], [⟨-1, bytes.length, -1⟩], [0]⟩
  ⟨code, s.offsets, s.scopes⟩

def build (raw : String) : AwaitedIndex :=
  ofCode (String.ofList (blank_string_contents (strip_ts_comments raw.toList)))

def search (scopes : List Scope) (offset : Nat) : Nat → Nat → Nat → Nat
  | 0, lo, _ => lo
  | fuel + 1, lo, hi =>
    if lo + 1 < hi then
      let mid := (lo + hi) / 2
      if scopes[mid]?.any fun scope => decide (scope.start < (offset : Int)) then search scopes offset fuel mid hi
      else search scopes offset fuel lo mid
    else lo

/-- `while lo > 0 && scopes[lo].end < offset { lo = scopes[lo].parent }` -/
def climb (scopes : List Scope) (offset : Nat) : Nat → Nat → Nat
  | 0, lo => lo
  | fuel + 1, lo =>
    match scopes[lo]? with
    | some scope => if 0 < lo ∧ scope.stop < offset then climb scopes offset fuel scope.parent.toNat else lo
    | none => lo

def scope_at (index : AwaitedIndex) (offset : Nat) : Nat :=
  let count := index.scopes.length
  climb index.scopes offset count (search index.scopes offset count 0 count)

def reaches (scopes : List Scope) (ancestor : Nat) : Nat → Int → Bool
  | 0, _ => false
  | fuel + 1, scope =>
    if 0 ≤ scope then
      scope == ancestor ||
        match scopes[scope.toNat]? with
        | some outer => reaches scopes ancestor fuel outer.parent
        | none => false
    else false

def visible_at (index : AwaitedIndex) (declaration use_at : Nat) : Bool :=
  reaches index.scopes (index.scope_at declaration) (index.scopes.length + 1) (index.scope_at use_at)

end AwaitedIndex

def Block (bytes : List UInt8) (block : Int × Int) : Prop :=
  block = (-1, (bytes.length : Int)) ∨
    ∃ start stop : Nat, IsBlock 0x7B 0x7D bytes start stop ∧ block = ((start : Int), (stop : Int))

/-- The block opens before the offset and does not close before it. -/
def Holds (block : Int × Int) (offset : Nat) : Prop := block.1 < offset ∧ offset ≤ block.2

def Encloses (outer inner : Int × Int) : Prop := outer.1 ≤ inner.1 ∧ inner.2 ≤ outer.2

structure Innermost (bytes : List UInt8) (offset : Nat) (block : Int × Int) : Prop where
  listed : Block bytes block
  holds : Holds block offset
  inside : ∀ other, Block bytes other → Holds other offset → Encloses other block

def Scope.block (scope : Scope) : Int × Int := (scope.start, scope.stop)

variable {bytes done : List UInt8} {length offset : Nat} {scopes : List Scope} {s : Building}

structure Scanned (length : Nat) (done : List UInt8) (s : Building) : Prop where
  reading : Reading Scope.start (fun scope => scope.stop) Scope.parent length done.length s.scopes s.stack
  root : s.scopes[0]? = some ⟨-1, length, -1⟩
  /-- The blocks on the stack, over the whole text. -/
  opened : ∃ ks starts, s.stack = ks ++ [0] ∧ Opened 0x7B 0x7D done starts ∧
    ks.map (fun k => s.scopes[k]?.map Scope.start) = starts.map fun start : Nat => some (start : Int)
  blocks : ∀ start stop : Nat, IsBlock 0x7B 0x7D done start stop ↔ ∃ k scope, s.scopes[k]? = some scope ∧
    k ∉ s.stack ∧ scope.start = (start : Int) ∧ scope.stop = stop

theorem scanned_start (length : Nat) :
    Scanned length [] ⟨[0], [⟨-1, length, -1⟩], [0]⟩ where
  reading :=
    { nested :=
        { proper := fun s listed => by
            obtain rfl := List.mem_singleton.mp listed
            simp only
            omega
          increasing := fun {j k s t} first second less => by
            have short := (List.getElem?_eq_some_iff.mp second).1
            rw [List.length_singleton] at short
            omega
          earlier := fun {k t} found => by
            rw [List.getElem?_singleton] at found
            split at found
            · cases found
              simp only
              omega
            · cases found
          around := fun {k p s t} first second parent => by
            rw [List.getElem?_singleton] at first
            split at first
            · cases first
              simp only at parent
              omega
            · cases first
          beside := fun {j k s t} first second _ less => by
            have short := (List.getElem?_eq_some_iff.mp second).1
            rw [List.length_singleton] at short
            omega }
      begun := fun s listed => by
        obtain rfl := List.mem_singleton.mp listed
        simp only [List.length_nil]
        omega
      descending := List.pairwise_singleton _ 0
      open_ := fun k listed => by
        obtain rfl := List.mem_singleton.mp listed
        exact ⟨_, rfl, rfl⟩
      closed := fun {k s} found out => by
        rw [List.getElem?_singleton] at found
        split at found
        · next first => exact absurd (List.mem_singleton.mpr first) out
        · cases found }
  root := rfl
  opened := ⟨[], [], rfl, .root rfl, rfl⟩
  blocks start stop := by
    constructor
    · intro block
      have bounds := block.bounds
      rw [List.length_nil] at bounds
      omega
    · rintro ⟨k, scope, found, out, -⟩
      rw [List.getElem?_singleton] at found
      split at found
      · next first => exact absurd (List.mem_singleton.mpr first) out
      · cases found

namespace Scanned

variable {b : UInt8}

theorem other (scanned : Scanned length done s) (offsets : List Nat) (differs : b ≠ 0x7B) (differs' : b ≠ 0x7D) :
    Scanned length (done ++ [b]) { s with offsets } := by
  obtain ⟨reading, root, ⟨ks, starts, stack, opened, all⟩, blocks⟩ := scanned
  refine ⟨?_, root, ⟨ks, starts, stack, opened.append (.other differs differs'), all⟩, fun start stop => ?_⟩
  · rw [List.length_append, List.length_singleton]
    exact reading.next
  · rw [isBlock_snoc opened, ← blocks]
    exact or_iff_left fun closes => differs' closes.1

theorem opens (scanned : Scanned length done s) (short : done.length < length) :
    Scanned length (done ++ [0x7B]) (buildByte length s 0x7B done.length) := by
  obtain ⟨reading, root, ⟨ks, starts, stack, opened, all⟩, blocks⟩ := scanned
  obtain ⟨top, rest, shape⟩ : ∃ top rest, s.stack = top :: rest := by
    refine List.exists_cons_of_ne_nil ?_
    rw [stack]
    exact List.append_ne_nil_of_right_ne_nil ks (List.cons_ne_nil 0 [])
  have inside : 0 < s.scopes.length := (List.getElem?_eq_some_iff.mp root).1
  have below : ∀ k ∈ s.stack, k < s.scopes.length := fun k listed =>
    (List.getElem?_eq_some_iff.mp (reading.open_ k listed).choose_spec.1).1
  have made : buildByte length s 0x7B done.length = ⟨s.offsets,
      s.scopes ++ [⟨done.length, length, (top : Nat)⟩], s.scopes.length :: s.stack⟩ := by
    rw [buildByte, if_neg (by decide), if_pos rfl, shape]
    rfl
  rw [made]
  refine ⟨?_, ?_, ⟨s.scopes.length :: ks, done.length :: starts, ?_, opened.open_, ?_⟩, fun start stop => ?_⟩
  · rw [List.length_append, List.length_singleton]
    rw [shape] at reading ⊢
    exact reading.opened (by omega) rfl rfl rfl
  · rw [List.getElem?_append_left inside, root]
  · rw [stack, List.cons_append]
  · rw [List.map_cons, List.map_cons, List.getElem?_concat_length, ← all]
    refine congrArg _ (List.map_congr_left fun k listed => ?_)
    rw [List.getElem?_append_left (below k (stack ▸ List.mem_append_left [0] listed))]
  · rw [isBlock_snoc opened, blocks, or_iff_left fun closes => absurd closes.1 (by decide)]
    constructor
    · rintro ⟨k, scope, found, out, rest⟩
      have less := (List.getElem?_eq_some_iff.mp found).1
      refine ⟨k, scope, by rw [List.getElem?_append_left less, found], fun listed => ?_, rest⟩
      rcases List.mem_cons.mp listed with rfl | old
      · omega
      · exact out old
    · rintro ⟨k, scope, found, out, rest⟩
      rw [List.mem_cons, not_or] at out
      refine ⟨k, scope, ?_, out.2, rest⟩
      have less := (List.getElem?_eq_some_iff.mp found).1
      rw [List.length_append, List.length_singleton] at less
      rwa [List.getElem?_append_left (by omega)] at found

theorem closes (scanned : Scanned length done s) (short : done.length < length) {e : Nat}
    (clean : level 0x7B 0x7D 0 (done ++ [0x7D]) = some e) :
    Scanned length (done ++ [0x7D]) (buildByte length s 0x7D done.length) := by
  obtain ⟨reading, root, ⟨ks, starts, stack, opened, all⟩, blocks⟩ := scanned
  cases ks with
  | nil =>
    obtain rfl := List.map_eq_nil_iff.mp all.symm
    rw [level_append, opened.level_eq, List.length_nil, Option.bind_some, level, if_neg (by decide),
      if_pos rfl, if_pos rfl] at clean
    cases clean
  | cons top ks =>
    obtain ⟨start, starts, rfl⟩ : ∃ start rest, starts = start :: rest := by
      refine List.exists_cons_of_ne_nil fun none_ => ?_
      rw [none_] at all
      cases all
    obtain ⟨found, all⟩ := List.cons.inj all
    obtain ⟨outer, found, starts_⟩ := Option.map_eq_some_iff.mp found
    obtain ⟨next, rest, shape⟩ : ∃ next rest, ks ++ [0] = next :: rest :=
      List.exists_cons_of_ne_nil (List.append_ne_nil_of_right_ne_nil ks (List.cons_ne_nil 0 []))
    rw [List.cons_append] at stack
    have made : buildByte length s 0x7D done.length = ⟨s.offsets,
        s.scopes.modify top fun scope => { scope with stop := done.length }, ks ++ [0]⟩ := by
      rw [buildByte, if_neg (by decide), if_neg (by decide), if_pos rfl, stack, shape]
    have below : ∀ k ∈ ks ++ [0], top ≠ k := by
      have descending := reading.descending
      rw [stack] at descending
      exact fun k listed => Nat.ne_of_gt (List.rel_of_pairwise_cons descending listed)
    have kept : ∀ k, top ≠ k → (s.scopes.modify top fun scope => { scope with stop := done.length })[k]? =
        s.scopes[k]? := fun k other => List.getElem?_modify_ne _ _ other
    have changed : (s.scopes.modify top fun scope => { scope with stop := done.length })[top]? =
        some { outer with stop := done.length } := by
      rw [List.getElem?_modify_eq _ top s.scopes, found]
      rfl
    rw [made]
    refine ⟨?_, ?_, ⟨ks, starts, rfl, (opened.close (by decide)).1, ?_⟩, fun start' stop => ?_⟩
    · rw [List.length_append, List.length_singleton]
      rw [stack] at reading
      exact reading.close (by omega) (fun _ => rfl) (fun _ => rfl) fun _ => rfl
    · exact (kept 0 (below 0 (List.mem_append_right ks List.mem_cons_self))).trans root
    · rw [← all]
      refine List.map_congr_left fun k listed => ?_
      rw [kept k (below k (List.mem_append_left [0] listed))]
    · rw [isBlock_snoc opened, blocks, List.head?_cons, stack]
      constructor
      · rintro (⟨k, scope, found', out, rest⟩ | ⟨-, rfl, same⟩)
        · rw [List.mem_cons, not_or] at out
          exact ⟨k, scope, by rw [kept k (Ne.symm out.1), found'], out.2, rest⟩
        · obtain rfl := Option.some.inj same
          exact ⟨top, _, changed, fun listed => below top listed rfl, starts_, rfl⟩
      · rintro ⟨k, scope, found', out, start_, stop_⟩
        by_cases same : top = k
        · subst same
          obtain rfl := Option.some.inj (changed.symm.trans found')
          exact .inr ⟨rfl, stop_.symm, congrArg some (Int.ofNat.inj (starts_.symm.trans start_))⟩
        · rw [kept k same] at found'
          refine .inl ⟨k, scope, found', fun listed => ?_, start_, stop_⟩
          exact (List.mem_cons.mp listed).elim (Ne.symm same) out

end Scanned

def read (length : Nat) (done : List UInt8) : Building :=
  done.zipIdx.foldl (fun s b => buildByte length s b.1 b.2) ⟨[0], [⟨-1, length, -1⟩], [0]⟩

theorem read_snoc (b : UInt8) :
    read length (done ++ [b]) = buildByte length (read length done) b done.length := by
  rw [read, List.zipIdx_append, List.foldl_append, Nat.zero_add, List.zipIdx_singleton]
  rfl

theorem scanned_read (balanced : Balanced 0x7B 0x7D bytes) (rest : List UInt8)
    (whole : bytes = done ++ rest) : Scanned bytes.length done (read bytes.length done) := by
  induction done using List.reverseRecOn generalizing rest with
  | nil => exact scanned_start bytes.length
  | append_singleton done b ih =>
    have scanned := ih (b :: rest) (by rw [whole, List.append_assoc, List.singleton_append])
    have short : done.length < bytes.length := by
      rw [whole, List.length_append, List.length_append, List.length_singleton]
      omega
    rw [read_snoc]
    by_cases newline : b = 0x0A
    · have made : buildByte bytes.length (read bytes.length done) b done.length =
          { read bytes.length done with offsets := (read bytes.length done).offsets ++ [done.length + 1] } := by
        rw [buildByte, if_pos newline]
      rw [made]
      exact scanned.other _ (newline ▸ by decide) (newline ▸ by decide)
    by_cases opening : b = 0x7B
    · subst opening
      exact scanned.opens short
    by_cases closing : b = 0x7D
    · subst closing
      rw [Nesting.Balanced, whole, level_append] at balanced
      obtain ⟨e, clean, -⟩ := Option.bind_eq_some_iff.mp balanced
      exact scanned.closes short clean
    · have made : buildByte bytes.length (read bytes.length done) b done.length =
          { read bytes.length done with offsets := (read bytes.length done).offsets } := by
        rw [buildByte, if_neg newline, if_neg opening, if_neg closing]
      rw [made]
      exact scanned.other _ opening closing

/-! ### Lookups -/

structure Listed (bytes : List UInt8) (scopes : List Scope) : Prop where
  nested : Nested Scope.start (fun scope => scope.stop) Scope.parent scopes
  begun : ∀ scope ∈ scopes, scope.start < bytes.length
  root : scopes[0]? = some ⟨-1, bytes.length, -1⟩
  blocks : ∀ block, Block bytes block ↔ ∃ (k : Nat) (scope : Scope), scopes[k]? = some scope ∧ scope.block = block

theorem listed_read (balanced : Balanced 0x7B 0x7D bytes) :
    Listed bytes (read bytes.length bytes).scopes := by
  obtain ⟨reading, root, ⟨ks, starts, stack, opened, all⟩, blocks⟩ :=
    scanned_read balanced [] (List.append_nil bytes).symm
  obtain rfl := opened.of_balanced balanced
  obtain rfl := List.map_eq_nil_iff.mp all
  refine ⟨reading.nested, reading.begun, root, fun block => ?_⟩
  have out : ∀ {k : Nat}, k ∉ (read bytes.length bytes).stack ↔ k ≠ 0 := by
    intro k
    rw [stack, List.nil_append, List.mem_singleton]
  constructor
  · rintro (rfl | ⟨start, stop, block, rfl⟩)
    · exact ⟨0, _, root, rfl⟩
    · obtain ⟨k, scope, found, -, start_, stop_⟩ := (blocks start stop).mp block
      exact ⟨k, scope, found, by rw [Scope.block, start_, stop_]⟩
  · rintro ⟨k, scope, found, rfl⟩
    by_cases first : k = 0
    · subst first
      obtain rfl := Option.some.inj (found.symm.trans root)
      exact .inl rfl
    · -- a block that is not the whole text opens behind its start
      have less := reading.nested.increasing root found (by omega)
      simp only at less
      obtain ⟨start, start_⟩ := Int.eq_ofNat_of_zero_le (by omega : 0 ≤ scope.start)
      refine .inr ⟨start, scope.stop, (blocks _ _).mpr ⟨k, scope, found, out.mpr first, start_, rfl⟩, ?_⟩
      rw [Scope.block, start_]

namespace Listed

variable {lo hi fuel k : Nat} {scope : Scope}

theorem first (listed : Listed bytes scopes) : 0 < scopes.length :=
  (List.getElem?_eq_some_iff.mp listed.root).1

theorem search_spec (listed : Listed bytes scopes) (fuel offset : Nat) (enough : hi ≤ lo + 1 + fuel) (inside : lo < hi)
    (within_ : hi ≤ scopes.length) (before : ∃ scope, scopes[lo]? = some scope ∧ scope.start < offset)
    (after : ∀ (j : Nat) (scope : Scope), scopes[j]? = some scope → hi ≤ j → (offset : Int) ≤ scope.start) :
    (∃ scope, scopes[AwaitedIndex.search scopes offset fuel lo hi]? = some scope ∧ scope.start < offset) ∧
      ∀ (j : Nat) (scope : Scope), scopes[j]? = some scope → AwaitedIndex.search scopes offset fuel lo hi < j →
        (offset : Int) ≤ scope.start := by
  induction fuel generalizing lo hi with
  | zero => exact ⟨before, fun j scope found less => after j scope found (by
      rw [AwaitedIndex.search] at less
      omega)⟩
  | succ fuel ih =>
    rw [AwaitedIndex.search]
    split
    · next wide =>
      have short : (lo + hi) / 2 < scopes.length := by omega
      have middle := List.getElem?_eq_getElem short
      simp only [middle, Option.any_some, decide_eq_true_eq]
      split
      · next less =>
        exact ih (by omega) (by omega) within_ ⟨_, middle, less⟩ after
      · next le =>
        refine ih (by omega) (by omega) (by omega) before fun j scope found order => ?_
        rcases Nat.lt_or_ge ((lo + hi) / 2) j with later | here
        · have increasing := listed.nested.increasing middle found later
          omega
        · obtain rfl : j = (lo + hi) / 2 := by omega
          obtain rfl := Option.some.inj (found.symm.trans middle)
          omega
    · next single => exact ⟨before, fun j scope found less => after j scope found (by omega)⟩

/-- From a scope that opens before the offset the climb reaches the last one that holds it. -/
theorem climb_spec (listed : Listed bytes scopes) (inside : offset ≤ bytes.length) (enough : lo ≤ fuel)
    (before : ∃ scope, scopes[lo]? = some scope ∧ scope.start < offset)
    (after : ∀ (j : Nat) (scope : Scope), scopes[j]? = some scope → lo < j → ¬Holds scope.block offset) :
    (∃ scope, scopes[AwaitedIndex.climb scopes offset fuel lo]? = some scope ∧ Holds scope.block offset) ∧
      ∀ (j : Nat) (scope : Scope), scopes[j]? = some scope → AwaitedIndex.climb scopes offset fuel lo < j →
        ¬Holds scope.block offset := by
  have top : lo = 0 → (∃ scope, scopes[lo]? = some scope ∧ Holds scope.block offset) := by
    rintro rfl
    refine ⟨_, listed.root, ?_, ?_⟩
    · simp only [Scope.block]
      omega
    · simp only [Scope.block]
      omega
  induction fuel generalizing lo with
  | zero => exact ⟨top (Nat.le_zero.mp enough), after⟩
  | succ fuel ih =>
    obtain ⟨scope, found, opens⟩ := before
    simp only [AwaitedIndex.climb, found]
    split
    · next closed =>
      have begun := listed.begun scope (List.mem_of_getElem? found)
      obtain ⟨p, parent⟩ : ∃ p : Nat, scope.parent = p := by
        refine Int.eq_ofNat_of_zero_le (Int.not_lt.mp fun none_ => ?_)
        have apart := listed.nested.beside listed.root found none_ closed.1
        simp only at apart
        omega
      have earlier := listed.nested.earlier found
      have short : p < scopes.length := by
        have short := (List.getElem?_eq_some_iff.mp found).1
        omega
      have outer := List.getElem?_eq_getElem short
      have increasing := listed.nested.increasing outer found (by omega)
      rw [parent, Int.toNat_natCast]
      refine ih (by omega) ⟨_, outer, by omega⟩ (fun j other found' less holds => ?_) ?_
      · rcases Nat.lt_trichotomy j lo with between | rfl | later
        · have apart := listed.nested.beside found' found (by omega) between
          have reaches := holds.2
          simp only [Scope.block] at reaches apart
          omega
        · obtain rfl := Option.some.inj (found.symm.trans found')
          have reaches := holds.2
          simp only [Scope.block] at reaches
          omega
        · exact after j other found' later holds
      · rintro rfl
        refine ⟨_, listed.root, ?_, ?_⟩
        · simp only [Scope.block]
          omega
        · simp only [Scope.block]
          omega
    · next stays =>
      refine ⟨?_, after⟩
      rcases Nat.eq_zero_or_pos lo with first | some_
      · exact top first
      · exact ⟨scope, found, opens, by simp only [Scope.block]; omega⟩

theorem reaches_iff (listed : Listed bytes scopes) {d : Nat} {outer inner : Scope} (enough : k < fuel)
    (found : scopes[d]? = some outer) (found' : scopes[k]? = some inner) :
    AwaitedIndex.reaches scopes d fuel k = true ↔ d ≤ k ∧ inner.stop ≤ outer.stop := by
  induction fuel generalizing k inner with
  | zero => omega
  | succ fuel ih =>
    have earlier := listed.nested.earlier found'
    have short := (List.getElem?_eq_some_iff.mp found').1
    -- the loop goes on with the parent, if there is one
    have onward : AwaitedIndex.reaches scopes d fuel inner.parent = true ↔ ∃ p : Nat, inner.parent = p ∧
        d ≤ p ∧ ∀ q, scopes[p]? = some q → (q.stop : Int) ≤ outer.stop := by
      constructor
      · intro reached
        obtain ⟨p, parent⟩ : ∃ p : Nat, inner.parent = p := by
          refine Int.eq_ofNat_of_zero_le (Int.not_lt.mp fun none_ => ?_)
          cases fuel with
          | zero => cases reached
          | succ fuel =>
            rw [AwaitedIndex.reaches, if_neg (Int.not_le.mpr none_)] at reached
            cases reached
        have between := List.getElem?_eq_getElem (show p < scopes.length by omega)
        rw [parent] at reached
        obtain ⟨le, around⟩ := (ih (by omega) between).mp reached
        refine ⟨p, parent, le, fun q same => ?_⟩
        obtain rfl := Option.some.inj (between.symm.trans same)
        exact Int.ofNat_le.mpr around
      · rintro ⟨p, parent, le, inside⟩
        have between := List.getElem?_eq_getElem (show p < scopes.length by omega)
        rw [parent]
        exact (ih (by omega) between).mpr ⟨le, Int.ofNat_le.mp (inside _ between)⟩
    rw [AwaitedIndex.reaches, if_pos (Int.natCast_nonneg k), Bool.or_eq_true, beq_iff_eq, Int.toNat_natCast,
      found', Int.natCast_inj]
    simp only [onward]
    rcases Nat.lt_trichotomy d k with less | rfl | greater
    · have around := listed.nested.around_iff found found' less
      rw [or_iff_right (by omega), ← around, Int.ofNat_le]
      exact ⟨fun inside => ⟨Nat.le_of_lt less, inside⟩, fun both => both.2⟩
    · obtain rfl := Option.some.inj (found.symm.trans found')
      exact iff_of_true (.inl rfl) ⟨Nat.le_refl d, Nat.le_refl _⟩
    · refine iff_of_false ?_ (by omega)
      rintro (same | ⟨p, parent, le, -⟩)
      · omega
      · omega

theorem innermost (listed : Listed bytes scopes) {scope : Scope} (found : scopes[k]? = some scope)
    (holds : Holds scope.block offset)
    (after : ∀ (j : Nat) (scope : Scope), scopes[j]? = some scope → k < j → ¬Holds scope.block offset) :
    Innermost bytes offset scope.block where
  listed := (listed.blocks _).mpr ⟨k, scope, found, rfl⟩
  holds := holds
  inside other block held := by
    obtain ⟨j, outer, found', rfl⟩ := (listed.blocks _).mp block
    rcases Nat.lt_trichotomy j k with less | rfl | greater
    · have increasing := listed.nested.increasing found' found less
      refine ⟨Int.le_of_lt increasing, ?_⟩
      rcases listed.nested.laminar found' found less with apart | inside
      · have opens := holds.1
        have reaches := held.2
        simp only [Scope.block] at opens reaches apart
        omega
      · exact inside
    · obtain rfl := Option.some.inj (found.symm.trans found')
      exact ⟨Int.le_refl _, Int.le_refl _⟩
    · exact absurd held (after j outer found' greater)

theorem scope_at_innermost {code : String} (listed : Listed (utf8 code) (AwaitedIndex.ofCode code).scopes)
    (inside : offset ≤ (utf8 code).length) : ∃ scope : Scope,
      (AwaitedIndex.ofCode code).scopes[(AwaitedIndex.ofCode code).scope_at offset]? = some scope ∧
        Innermost (utf8 code) offset scope.block := by
  have some_ := listed.first
  obtain ⟨before, after⟩ := listed.search_spec (AwaitedIndex.ofCode code).scopes.length
    offset (by omega) some_ (Nat.le_refl _)
    ⟨_, listed.root, by simp only; omega⟩ fun j scope found le => by
      have short := (List.getElem?_eq_some_iff.mp found).1
      omega
  obtain ⟨start, found, opens⟩ := before
  have short := (List.getElem?_eq_some_iff.mp found).1
  obtain ⟨⟨scope, found, holds⟩, last⟩ := listed.climb_spec inside (Nat.le_of_lt short) ⟨start, found, opens⟩
    fun j scope found' less held => by
      have late := after j scope found' less
      have opens := held.1
      simp only [Scope.block] at opens
      omega
  exact ⟨scope, found, listed.innermost found holds last⟩

end Listed

theorem Innermost.unique {b b' : Int × Int} (first : Innermost bytes offset b)
    (second : Innermost bytes offset b') : b = b' := by
  obtain ⟨le, le'⟩ := first.inside b' second.listed second.holds
  obtain ⟨ge, ge'⟩ := second.inside b first.listed first.holds
  exact Prod.ext (Int.le_antisymm ge le) (Int.le_antisymm le' ge')

def KeepsScopes (code : String) : Prop :=
  Balanced 0x7B 0x7D (utf8 code) →
    (∀ offset ≤ (utf8 code).length, ∃ scope : Scope,
      (AwaitedIndex.ofCode code).scopes[(AwaitedIndex.ofCode code).scope_at offset]? = some scope ∧
        Innermost (utf8 code) offset scope.block) ∧
    ∀ d ≤ (utf8 code).length, ∀ u ≤ (utf8 code).length, ∀ D U, Innermost (utf8 code) d D →
      Innermost (utf8 code) u U → ((AwaitedIndex.ofCode code).visible_at d u = true ↔ Encloses D U)

theorem keepsScopes (code : String) : KeepsScopes code := by
  intro balanced
  have listed : Listed (utf8 code) (AwaitedIndex.ofCode code).scopes := listed_read balanced
  refine ⟨fun offset inside => listed.scope_at_innermost inside, fun d inside u inside' D U first second => ?_⟩
  obtain ⟨outer, found, innermost⟩ := listed.scope_at_innermost inside
  obtain ⟨inner, found', innermost'⟩ := listed.scope_at_innermost inside'
  obtain rfl := innermost.unique first
  obtain rfl := innermost'.unique second
  have short := (List.getElem?_eq_some_iff.mp found').1
  rw [AwaitedIndex.visible_at, listed.reaches_iff (by omega) found found', Encloses]
  simp only [Scope.block, Int.ofNat_le]
  constructor
  · rintro ⟨le, inside⟩
    refine ⟨?_, inside⟩
    rcases Nat.eq_or_lt_of_le le with same | less
    · rw [same] at found
      obtain rfl := Option.some.inj (found.symm.trans found')
      exact Int.le_refl _
    · exact Int.le_of_lt (listed.nested.increasing found found' less)
  · rintro ⟨le, inside⟩
    refine ⟨Nat.not_lt.mp fun less => ?_, inside⟩
    have increasing := listed.nested.increasing found' found less
    omega

end CodeGraph.Resolution.Awaited
