import CodeGraph.Extraction.StoreWriter
import CodeGraph.Foundation.Tails

/-!
# The invariant of the store writer

Three parts: who holds a pending promise; where the bundles and the drains stand in the two queues;
and, as long as the writer has not heard of the worker's end, that everything it waits for is still
on its way.
-/
namespace CodeGraph.Extraction.StoreWriter

open Promises

variable {s : State}

def InMessage.isBundle : InMessage → Bool
  | .bundle _ => true
  | _ => false

def Reply.settlesBundle : Reply → Bool
  | .ack => true
  | .error _ => true
  | _ => false

def Reply.isError : Reply → Bool
  | .error _ => true
  | _ => false

/-- The bundles sent whose outcome has not reached the writer: not handled yet, or with the reply on
its way. -/
def State.unsettled (s : State) : Nat :=
  s.worker.inbox.countP InMessage.isBundle + s.worker.replies.countP Reply.settlesBundle

structure Waiting (isKind : Nat → Kind → Prop) (promises : List (Promise Kind))
    (waiters : List (Nat × Nat)) : Prop where
  pending : ∀ w ∈ waiters, ∃ kind, isKind w.1 kind ∧ promises[w.2]? = some ⟨kind, .pending⟩
  nodup : (waiters.map Prod.snd).Nodup

def IsDrain (_ : Nat) (kind : Kind) : Prop := ∃ n, kind = .drain n

def IsBelow (limit : Nat) (kind : Kind) : Prop := kind = .below limit

structure Held (promises : List (Promise Kind)) (drains belows : List (Nat × Nat)) : Prop where
  ready : ∃ status, promises[readyPromise]? = some ⟨.ready, status⟩
  ids : (drains.map Prod.fst).Nodup
  drain : Waiting IsDrain promises drains
  below : Waiting IsBelow promises belows
  waiter : ∀ (p : Nat) kind, promises[p]? = some ⟨kind, .pending⟩ →
    p = readyPromise ∨ p ∈ drains.map Prod.snd ∨ p ∈ belows.map Prod.snd

/-- A promise of `drain`, after `n` bundles, that waits under `id`. -/
def Awaits (s : State) (id n : Nat) : Prop :=
  ∃ p, (id, p) ∈ s.drainWaiters ∧ s.promises[p]? = some ⟨.drain n, .pending⟩

/-- A bundle has failed and the writer knows, or will know before it takes a reply after `front`. -/
def Reported (s : State) (front : List Reply) : Prop :=
  s.firstError.isSome ∨ ∃ reply ∈ front, reply.isError = true

/-- The bundles before `n` are applied. -/
def Applied (s : State) (n : Nat) : Prop := ∀ b < n, b ∈ s.worker.applied

structure Ordered (s : State) : Prop where
  sent : s.sent = s.worker.handled + s.worker.inbox.countP InMessage.isBundle
  numbered : ∀ front index back, s.worker.inbox = front ++ InMessage.bundle index :: back →
    index = s.worker.handled + front.countP InMessage.isBundle
  handled : Reported s s.worker.replies ∨ Applied s s.worker.handled
  fresh : (∀ id, InMessage.drain id ∈ s.worker.inbox → id < s.nextDrainId) ∧
    (∀ id, Reply.drained id ∈ s.worker.replies → id < s.nextDrainId) ∧
    ∀ w ∈ s.drainWaiters, w.1 < s.nextDrainId
  inbox : ∀ front id back, s.worker.inbox = front ++ InMessage.drain id :: back → ∀ n, Awaits s id n →
    n ≤ s.worker.handled + front.countP InMessage.isBundle
  replies : ∀ front id back, s.worker.replies = front ++ Reply.drained id :: back → ∀ n, Awaits s id n →
    Reported s front ∨ Applied s n
  drained : ∀ p n : Nat, s.promises[p]? = some ⟨.drain n, .resolved⟩ → Applied s n

/-- The writer has not heard of an end: what it waits for is on its way. -/
structure Working (s : State) : Prop where
  counted : s.outstanding = s.unsettled
  below : ∀ w ∈ s.belowWaiters, 0 < w.1 ∧ w.1 ≤ s.outstanding
  drain : ∀ w ∈ s.drainWaiters,
    InMessage.drain w.1 ∈ s.worker.inbox ∨ Reply.drained w.1 ∈ s.worker.replies
  opening : s.worker.opened = true ∨ ∃ inbox, s.worker.inbox = InMessage.open :: inbox
  ready : s.promises[readyPromise]? = some ⟨.ready, .pending⟩ →
    s.worker.opened = false ∨ Reply.ready ∈ s.worker.replies
  running : s.exited = false
  died : s.worker.died = some 0 → s.worker.opened = true

structure Down (s : State) : Prop where
  drain : s.drainWaiters = []
  below : s.belowWaiters = []
  ready : s.promises[readyPromise]? ≠ some ⟨.ready, .pending⟩
  known : s.firstError.isSome ∨ s.exited = true
  died : s.worker.died ≠ none

structure Inv (s : State) : Prop where
  held : Held s.promises s.drainWaiters s.belowWaiters
  ordered : Ordered s
  ended : s.worker.uncaught = true → s.worker.died ≠ none
  phase : Working s ∨ Down s

/-- The steps of the worker that throw are the steps of bundles, it does not exit with code 0
before it has opened the database, and no one waits for fewer than no bundles. -/
def Fine (s : State) : Event → Prop
  | .handle (some _) => ∃ index inbox, s.worker.inbox = .bundle index :: inbox
  | .exit code => code = 0 → s.worker.opened = true
  | .waitBelow limit => 0 < limit
  | _ => True

theorem constructed_held : Held [⟨.ready, .pending⟩] [] [] where
  ready := ⟨.pending, rfl⟩
  ids := List.nodup_nil
  drain := ⟨fun _ member => (nomatch member), List.nodup_nil⟩
  below := ⟨fun _ member => (nomatch member), List.nodup_nil⟩
  waiter p kind found := by
    cases p with
    | zero => exact Or.inl rfl
    | succ p => exact nomatch found

theorem constructed_ordered : Ordered .constructed where
  sent := rfl
  numbered front index back whole := by
    rcases front with _ | ⟨m, _ | ⟨m', front⟩⟩ <;> exact nomatch whole
  handled := Or.inr fun b before => nomatch before
  fresh := by
    refine ⟨fun id member => ?_, fun id member => (nomatch member), fun w member => (nomatch member)⟩
    exact nomatch List.mem_singleton.mp member
  inbox front id back whole n awaits := by
    obtain ⟨p, member, -⟩ := awaits
    exact nomatch member
  replies front id back whole n awaits := by
    obtain ⟨p, member, -⟩ := awaits
    exact nomatch member
  drained p n found := by
    rcases p with _ | p <;> exact nomatch found

theorem constructed_working : Working .constructed where
  counted := rfl
  below _ member := nomatch member
  drain _ member := nomatch member
  opening := Or.inr ⟨[], rfl⟩
  ready _ := Or.inl rfl
  running := rfl
  died died := nomatch died

theorem constructed_inv : Inv .constructed :=
  ⟨constructed_held, constructed_ordered, fun uncaught => (nomatch uncaught),
    Or.inl constructed_working⟩

/-! ### Settling promises -/

variable {promises : List (Promise Kind)} {drains belows waiters others : List (Nat × Nat)}
  {status : Status} {given : List Nat} {isKind isOther : Nat → Kind → Prop}

private theorem Waiting.apart (waiting : Waiting isKind promises waiters)
    (other : Waiting isOther promises others) (differ : ∀ {n m k}, isKind n k → ¬isOther m k) :
    ∀ w ∈ waiters, w.2 ∉ others.map Prod.snd := by
  intro w member listed
  obtain ⟨v, other_member, same⟩ := List.mem_map.mp listed
  obtain ⟨kind, is_kind, found⟩ := waiting.pending w member
  obtain ⟨kind', is_other, found'⟩ := other.pending v other_member
  rw [same, found] at found'
  cases found'
  exact differ is_kind is_other

private theorem Waiting.settle (waiting : Waiting isKind promises waiters)
    (apart : ∀ w ∈ waiters, w.2 ∉ given) : Waiting isKind (settle given status promises) waiters where
  pending w member := by
    obtain ⟨kind, is_kind, found⟩ := waiting.pending w member
    exact ⟨kind, is_kind, settle_keeps found (Or.inl (apart w member))⟩
  nodup := waiting.nodup

private theorem Waiting.sublist (waiting : Waiting isKind promises waiters)
    (fewer : others.Sublist waiters) : Waiting isKind promises others where
  pending w member := waiting.pending w (fewer.subset member)
  nodup := waiting.nodup.sublist (fewer.map Prod.snd)

private theorem Waiting.settle_filter (waiting : Waiting isKind promises waiters)
    (gone : Nat × Nat → Bool) :
    Waiting isKind (Promises.settle ((waiters.filter gone).map Prod.snd) status promises)
      (waiters.filter fun w => !gone w) := by
  refine (waiting.sublist List.filter_sublist).settle fun w member listed => ?_
  obtain ⟨v, dropped, same⟩ := List.mem_map.mp listed
  rw [List.mem_filter] at member dropped
  obtain rfl : v = w := List.inj_on_of_nodup_map waiting.nodup dropped.1 member.1 same
  rw [dropped.2] at member
  exact absurd member.2 (by decide)

private theorem mem_filter_split (gone : Nat × Nat → Bool) {p : Nat}
    (listed : p ∈ waiters.map Prod.snd) : p ∈ (waiters.filter gone).map Prod.snd ∨
      p ∈ (waiters.filter fun w => !gone w).map Prod.snd := by
  obtain ⟨w, member, rfl⟩ := List.mem_map.mp listed
  cases drop : gone w with
  | true => exact Or.inl (List.mem_map_of_mem (List.mem_filter.mpr ⟨member, drop⟩))
  | false => exact Or.inr (List.mem_map_of_mem (List.mem_filter.mpr ⟨member, by rw [drop]; rfl⟩))

private theorem not_ready {w : Nat × Nat} (ready : ∃ status, promises[readyPromise]? = some ⟨.ready, status⟩)
    (waiting : Waiting isKind promises waiters) (differ : ∀ n, ¬isKind n .ready)
    (member : w ∈ waiters) : w.2 ∉ [readyPromise] := by
  intro first
  obtain ⟨kind, is_kind, found⟩ := waiting.pending w member
  obtain ⟨was, ready⟩ := ready
  rw [List.mem_singleton.mp first, ready] at found
  cases found
  exact differ _ is_kind

theorem Held.settle_ready (held : Held promises drains belows) (settles : status ≠ .pending) :
    Held (settle [readyPromise] status promises) drains belows where
  ready := kind_settle held.ready
  ids := held.ids
  drain := held.drain.settle fun _ member =>
    not_ready held.ready held.drain (fun _ is_drain => (nomatch is_drain)) member
  below := held.below.settle fun _ member =>
    not_ready held.ready held.below (fun _ is_below => (nomatch is_below)) member
  waiter p kind found := held.waiter p kind (pending_settle settles found).1

theorem Held.settle_drains (held : Held promises drains belows) (settles : status ≠ .pending)
    (gone : Nat × Nat → Bool) :
    Held (settle ((drains.filter gone).map Prod.snd) status promises)
      (drains.filter fun w => !gone w) belows where
  ready := kind_settle held.ready
  ids := held.ids.sublist (List.filter_sublist.map Prod.fst)
  drain := held.drain.settle_filter gone
  below := by
    refine held.below.settle fun w member listed => ?_
    exact held.below.apart (held.drain.sublist List.filter_sublist)
      (fun is_below ⟨n, is_drain⟩ => by cases is_below.symm.trans is_drain) w member listed
  waiter p kind found := by
    obtain ⟨found, kept⟩ := pending_settle settles found
    rcases held.waiter p kind found with first | drain | below
    · exact Or.inl first
    · exact Or.inr (Or.inl ((mem_filter_split gone drain).resolve_left kept))
    · exact Or.inr (Or.inr below)

theorem Held.settle_drain (held : Held promises drains belows) (settles : status ≠ .pending)
    {w : Nat × Nat} (member : w ∈ drains) :
    Held (settle [w.2] status promises) (drains.filter (·.1 != w.1)) belows := by
  have one : drains.filter (·.1 == w.1) = [w] := by
    have ids := held.ids
    clear held
    induction drains with
    | nil => exact nomatch member
    | cons first rest ih =>
      rw [List.map_cons, List.nodup_cons] at ids
      rcases List.mem_cons.mp member with rfl | later
      · rw [List.filter_cons_of_pos (by simp), List.filter_eq_nil_iff.mpr]
        intro v listed same
        exact ids.1 (List.mem_map.mpr ⟨v, listed, beq_iff_eq.mp same⟩)
      · have other : first.1 ≠ w.1 := fun same =>
          ids.1 (List.mem_map.mpr ⟨w, later, same.symm⟩)
        rw [List.filter_cons_of_neg (by simpa using other), ih later ids.2]
  have kept := held.settle_drains settles fun v => v.1 == w.1
  rwa [one] at kept

theorem Held.settle_belows (held : Held promises drains belows) (settles : status ≠ .pending)
    (gone : Nat × Nat → Bool) :
    Held (settle ((belows.filter gone).map Prod.snd) status promises) drains
      (belows.filter fun w => !gone w) where
  ready := kind_settle held.ready
  ids := held.ids
  drain := by
    refine held.drain.settle fun w member listed => ?_
    exact held.drain.apart (held.below.sublist List.filter_sublist)
      (fun ⟨n, is_drain⟩ is_below => by cases is_below.symm.trans is_drain) w member listed
  below := held.below.settle_filter gone
  waiter p kind found := by
    obtain ⟨found, kept⟩ := pending_settle settles found
    rcases held.waiter p kind found with first | drain | below
    · exact Or.inl first
    · exact Or.inr (Or.inl drain)
    · exact Or.inr (Or.inr ((mem_filter_split gone below).resolve_left kept))

private theorem Waiting.append (waiting : Waiting isKind promises waiters) (last : Promise Kind) :
    Waiting isKind (promises ++ [last]) waiters where
  pending w member :=
    (waiting.pending w member).imp fun _ found => ⟨found.1, get_append found.2⟩
  nodup := waiting.nodup

private theorem Waiting.lt (waiting : Waiting isKind promises waiters) {p : Nat}
    (listed : p ∈ waiters.map Prod.snd) : p < promises.length := by
  obtain ⟨w, member, rfl⟩ := List.mem_map.mp listed
  obtain ⟨kind, -, found⟩ := waiting.pending w member
  exact (List.getElem?_eq_some_iff.mp found).1

private theorem Waiting.append_waiter (waiting : Waiting isKind promises waiters) (n : Nat) (kind : Kind)
    (is_kind : isKind n kind) : Waiting isKind (promises ++ [⟨kind, .pending⟩])
      (waiters ++ [(n, promises.length)]) where
  pending w member := by
    rcases mem_snoc.mp member with old | new
    · exact (waiting.append _).pending w old
    · obtain rfl := new
      exact ⟨kind, is_kind, get_last⟩
  nodup := by
    rw [List.map_append]
    exact nodup_snoc waiting.nodup fun old => Nat.lt_irrefl _ (waiting.lt old)

private theorem ready_after (ready : ∃ status, promises[readyPromise]? = some ⟨.ready, status⟩)
    (last : Promise Kind) : ∃ status, (promises ++ [last])[readyPromise]? = some ⟨.ready, status⟩ :=
  ready.imp fun _ found => get_append found

theorem Held.append_settled (held : Held promises drains belows) (kind : Kind)
    (settled : status ≠ .pending) : Held (promises ++ [⟨kind, status⟩]) drains belows where
  ready := ready_after held.ready _
  ids := held.ids
  drain := held.drain.append _
  below := held.below.append _
  waiter p kind' found := by
    rcases get_append_cases found with ⟨-, same⟩ | found
    · cases same
      exact absurd rfl settled
    · exact held.waiter p kind' found

theorem Held.append_drain (held : Held promises drains belows) {id : Nat} (n : Nat)
    (fresh : id ∉ drains.map Prod.fst) :
    Held (promises ++ [⟨.drain n, .pending⟩]) (drains ++ [(id, promises.length)]) belows where
  ready := ready_after held.ready _
  ids := by
    rw [List.map_append]
    exact nodup_snoc held.ids fresh
  drain := held.drain.append_waiter id (.drain n) ⟨n, rfl⟩
  below := held.below.append _
  waiter p kind found := by
    rw [List.map_append, List.mem_append]
    rcases get_append_cases found with ⟨rfl, -⟩ | found
    · exact Or.inr (Or.inl (Or.inr List.mem_cons_self))
    · exact (held.waiter p kind found).imp_right (Or.imp_left Or.inl)

theorem Held.append_below (held : Held promises drains belows) (limit : Nat) :
    Held (promises ++ [⟨.below limit, .pending⟩]) drains (belows ++ [(limit, promises.length)]) where
  ready := ready_after held.ready _
  ids := held.ids
  drain := held.drain.append _
  below := held.below.append_waiter limit (.below limit) rfl
  waiter p kind found := by
    rw [List.map_append, List.mem_append]
    rcases get_append_cases found with ⟨rfl, -⟩ | found
    · exact Or.inr (Or.inr (Or.inr List.mem_cons_self))
    · exact (held.waiter p kind found).imp_right (Or.imp_right Or.inl)

end CodeGraph.Extraction.StoreWriter
