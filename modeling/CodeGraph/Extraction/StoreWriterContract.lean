import CodeGraph.Extraction.StoreWriterSteps

/-!
# What the store writer promises

A drain vouches for the bundles before it, the counter for those that are on their way, and no
promise is left pending, in every run in which only the steps of bundles throw. Read off the
invariant.
-/
namespace CodeGraph.Extraction.StoreWriter

open Promises Transitions

variable {s t : State}

structure Kept (s : State) : Prop where
  /-- A drain that has resolved came after bundles that are all applied. -/
  drained : ∀ sentBefore, ⟨.drain sentBefore, .resolved⟩ ∈ s.promises →
    ∀ bundle < sentBefore, bundle ∈ s.worker.applied
  outstanding : s.worker.died = none → s.unsettled ≤ s.outstanding
  /-- Whichever event comes next, a wait it resolves had its reason. -/
  below : ∀ event t, Fine s event → step s event = some t → ∀ (p : Nat) limit,
    t.promises[p]? = some ⟨.below limit, .resolved⟩ →
      s.promises[p]? = some ⟨.below limit, .resolved⟩ ∨ t.unsettled < limit ∨
        t.firstError.isSome ∨ t.exited = true
  settled : (s.worker.inbox = [] ∧ s.worker.replies = []) ∨ s.exited = true →
    ∀ promise ∈ s.promises, promise.status ≠ .pending

private theorem inv_settled (inv : Inv s)
    (finished : (s.worker.inbox = [] ∧ s.worker.replies = []) ∨ s.exited = true) :
    ∀ promise ∈ s.promises, promise.status ≠ .pending := by
  rintro ⟨kind, status⟩ member rfl
  obtain ⟨p, found⟩ := List.mem_iff_getElem?.mp member
  have waiter := inv.held.waiter p kind found
  rcases inv.phase with working | down
  · obtain ⟨inbox, replies⟩ := finished.resolve_right (by rw [working.running]; decide)
    have opened : s.worker.opened = true := by
      refine working.opening.resolve_right ?_
      rintro ⟨rest, first⟩
      rw [inbox] at first
      cases first
    rcases waiter with rfl | drain | below
    · obtain ⟨was, ready⟩ := inv.held.ready
      have both := found.symm.trans ready
      cases both
      rcases working.ready found with closed | replied
      · rw [opened] at closed
        cases closed
      · rw [replies] at replied
        cases replied
    · obtain ⟨w, member, -⟩ := List.mem_map.mp drain
      have waits := working.drain w member
      rw [inbox, replies] at waits
      rcases waits with queued | replied
      · cases queued
      · cases replied
    · obtain ⟨w, member, -⟩ := List.mem_map.mp below
      obtain ⟨positive, most⟩ := working.below w member
      rw [working.counted, State.unsettled, inbox, replies] at most
      exact absurd most (Nat.not_le.mpr positive)
  · rcases waiter with rfl | drain | below
    · obtain ⟨was, ready⟩ := inv.held.ready
      have both := found.symm.trans ready
      cases both
      exact down.ready found
    · rw [down.drain] at drain
      cases drain
    · rw [down.below] at below
      cases below

private theorem message_below {reply : Reply} {p limit : Nat}
    (held : Held s.promises s.drainWaiters s.belowWaiters)
    (found : (s.onMessage reply).promises[p]? = some ⟨.below limit, .resolved⟩) :
    s.promises[p]? = some ⟨.below limit, .resolved⟩ ∨ (s.onMessage reply).outstanding < limit := by
  have one : ∀ {u : State}, u.belowWaiters = s.belowWaiters → u.promises = s.promises →
      u.settleOne.promises[p]? = some ⟨.below limit, .resolved⟩ →
      s.promises[p]? = some ⟨.below limit, .resolved⟩ ∨ u.settleOne.outstanding < limit := by
    intro u waiters same found
    change (settle _ .resolved u.promises)[p]? = _ at found
    rw [same] at found
    refine (resolved_settle found).imp_right fun ⟨_, listed, open_⟩ => ?_
    obtain ⟨w, member, rfl⟩ := List.mem_map.mp listed
    rw [List.mem_filter, waiters] at member
    obtain ⟨kind, is_below, other⟩ := held.below.pending w member.1
    rw [open_] at other
    cases other
    cases is_below
    exact of_decide_eq_true member.2
  cases reply with
  | ack => exact one rfl rfl found
  | error text => exact one rfl rfl found
  | ready =>
    refine Or.inl ((resolved_settle found).resolve_right fun ⟨_, listed, open_⟩ => ?_)
    obtain ⟨was, ready⟩ := held.ready
    rw [List.mem_singleton.mp listed, ready] at open_
    cases open_
  | drained id =>
    left
    unfold State.onMessage at found
    dsimp only at found
    split at found
    · exact found
    · next waiter waits =>
      refine (resolved_settle found).resolve_right fun ⟨_, listed, open_⟩ => ?_
      obtain ⟨kind, ⟨n, is_drain⟩, other⟩ :=
        held.drain.pending waiter (List.mem_of_find?_eq_some waits)
      rw [List.mem_singleton.mp listed, other] at open_
      cases open_
      cases is_drain

private theorem step_below {event : Event} {p limit : Nat} (inv : Inv s) (after : Inv t)
    (taken : step s event = some t)
    (found : t.promises[p]? = some ⟨.below limit, .resolved⟩) :
    s.promises[p]? = some ⟨.below limit, .resolved⟩ ∨ t.unsettled < limit ∨
      t.firstError.isSome ∨ t.exited = true := by
  -- the counter is the number of bundles, unless the writer has heard of an end
  have counted : t.outstanding < limit → t.unsettled < limit ∨ t.firstError.isSome ∨ t.exited = true := by
    intro room
    exact after.phase.imp (fun working : Working t => working.counted ▸ room) fun down => down.known
  cases event with
  | send =>
    cases taken
    unfold State.send at found
    split at found <;> exact Or.inl found
  | waitBelow wanted =>
    cases taken
    unfold State.waitBelow at found counted ⊢
    split at found
    · next reason =>
      rw [if_pos reason] at counted ⊢
      rcases get_append_cases found with ⟨-, same⟩ | old
      · cases same
        rcases reason with failed | exited | room
        · exact Or.inr (Or.inr (Or.inl failed))
        · exact Or.inr (Or.inr (Or.inr exited))
        · exact Or.inr (counted room)
      · exact Or.inl old
    · rcases get_append_cases found with ⟨-, same⟩ | old
      · cases same
      · exact Or.inl old
  | drain =>
    cases taken
    unfold State.drain at found
    split at found <;> rcases get_append_cases found with ⟨-, same⟩ | old
    · cases same
    · exact Or.inl old
    · cases same
    · exact Or.inl old
  | close =>
    cases taken
    unfold State.close at found
    split at found <;> exact Or.inl found
  | handle thrown =>
    simp only [step] at taken
    split at taken
    · cases taken
      exact Or.inl found
    · cases taken
  | message =>
    simp only [step] at taken
    split at taken
    · next reply replies whole =>
      cases taken
      exact (message_below (s := { s with worker := { s.worker with replies } }) inv.held found).imp_right
        counted
    · cases taken
  | crash =>
    obtain ⟨-, ⟨⟩⟩ := Option.ite_none_right_eq_some.mp taken
    exact Or.inl found
  | exit code =>
    obtain ⟨-, ⟨⟩⟩ := Option.ite_none_right_eq_some.mp taken
    exact Or.inl found
  | onError =>
    obtain ⟨uncaught, ⟨⟩⟩ := Option.ite_none_right_eq_some.mp taken
    refine Or.inr (Or.inr (Or.inl ?_))
    change (s.firstError.or _).isSome
    rw [Option.isSome_or, Option.isSome_some, Bool.or_true]
  | onExit =>
    simp only [step] at taken
    split at taken
    · obtain ⟨-, ⟨⟩⟩ := Option.ite_none_right_eq_some.mp taken
      refine Or.inr (Or.inr (Or.inr ?_))
      unfold State.onExit
      dsimp only
      split
      · rfl
      split <;> rfl
    · cases taken

/-- Where only steps of bundles throw, the writer keeps its promises in every state. -/
theorem writer_keeps (reached : ReachableWhen Fine .constructed step s) : Kept s where
  drained n member bundle before := by
    obtain ⟨p, found⟩ := List.mem_iff_getElem?.mp member
    exact (reachable_inv reached).ordered.drained p n found bundle before
  outstanding alive := by
    have inv := reachable_inv reached
    exact Nat.le_of_eq (inv.phase.resolve_right fun down => down.died alive).counted.symm
  below event t fine taken p limit found :=
    step_below (reachable_inv reached) (step_keeps (reachable_inv reached) fine taken) taken found
  settled finished := inv_settled (reachable_inv reached) finished

/-- A bundle and a drain after it, both sent. -/
theorem writer_keeps_sent : ∃ s, run step .constructed [.handle none, .send, .drain] = some s ∧
    Kept s :=
  ⟨_, rfl, writer_keeps (.step (e := .drain) (.step (e := .send)
    (.step (e := .handle none) .start trivial rfl) trivial rfl) trivial rfl)⟩

/-- Where opening the database throws, the error reply settles no ready promise, and is counted as
the reply to a bundle that has not been handled; where the worker exits with code 0 before it has
opened it, the ready promise stays pending too. -/
theorem open_failure :
    (∃ s, Reachable .constructed step s ∧ s.worker.inbox = [] ∧ s.worker.replies = [] ∧
      ⟨.ready, .pending⟩ ∈ s.promises) ∧
    (∃ s, Reachable .constructed step s ∧ s.worker.died = none ∧ s.outstanding < s.unsettled) ∧
    ∃ s, Reachable .constructed step s ∧ s.exited = true ∧ ⟨.ready, .pending⟩ ∈ s.promises := by
  have thrown : run step .constructed [.handle (some "unable to open"), .message] = some _ := rfl
  have counted : run step .constructed [.send, .handle (some "unable to open"), .message] = some _ :=
    rfl
  have exited : run step .constructed [.exit 0, .onExit] = some _ := rfl
  refine ⟨⟨_, run_reachable _ .start thrown, rfl, rfl, List.mem_cons_self⟩,
    ⟨_, run_reachable _ .start counted, rfl, by decide⟩,
    ⟨_, run_reachable _ .start exited, rfl, List.mem_cons_self⟩⟩

end CodeGraph.Extraction.StoreWriter
