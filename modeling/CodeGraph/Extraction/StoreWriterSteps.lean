import CodeGraph.Extraction.StoreWriterInv

/-!
# The steps of the store writer

Each event keeps the invariant, as long as only the steps of bundles throw.
-/
namespace CodeGraph.Extraction.StoreWriter

open Promises Transitions

variable {s t : State}

private theorem Ordered.writer (ordered : Ordered s) (worker : t.worker = s.worker)
    (sent : t.sent = s.sent) (next : t.nextDrainId = s.nextDrainId)
    (waiters : ∀ w ∈ t.drainWaiters, w ∈ s.drainWaiters)
    (awaits : ∀ id n, Awaits t id n → Awaits s id n)
    (failed : s.firstError.isSome → t.firstError.isSome)
    (drained : ∀ p n : Nat, t.promises[p]? = some ⟨.drain n, .resolved⟩ →
      s.promises[p]? = some ⟨.drain n, .resolved⟩ ∨ Applied s n) : Ordered t := by
  have reported : ∀ front, Reported s front → Reported t front := fun _ => Or.imp_left failed
  have applied : ∀ n, Applied s n → Applied t n := by
    intro n all
    rwa [Applied, worker]
  constructor
  · rw [sent, worker, ordered.sent]
  · rw [worker]
    exact ordered.numbered
  · rw [worker]
    exact ordered.handled.imp (reported _) (applied _)
  · obtain ⟨inbox, replies, waiting⟩ := ordered.fresh
    rw [worker, next]
    exact ⟨inbox, replies, fun w member => waiting w (waiters w member)⟩
  · rw [worker]
    exact fun front id back whole n waits => ordered.inbox front id back whole n (awaits id n waits)
  · rw [worker]
    exact fun front id back whole n waits =>
      (ordered.replies front id back whole n (awaits id n waits)).imp (reported _) (applied _)
  · intro p n found
    exact applied n ((drained p n found).elim (ordered.drained p n) id)

/-- The worker has handled its next message: `reply` is what it says, if it says anything. -/
private theorem Ordered.handle {message : InMessage} {inbox : List InMessage} {w : Worker}
    (ordered : Ordered s) (reply : Option Reply) (whole : s.worker.inbox = message :: inbox)
    (rest : w.inbox = inbox) (replies : w.replies = s.worker.replies ++ reply.toList)
    (handled : w.handled = s.worker.handled + if message.isBundle then 1 else 0)
    (applied : ∀ b ∈ s.worker.applied, b ∈ w.applied)
    (drained : ∀ id, reply = some (.drained id) → message = .drain id)
    (outcome : ∀ index, message = .bundle index →
      index ∈ w.applied ∨ ∃ error, reply = some error ∧ error.isError = true) :
    Ordered { s with worker := w } := by
  have applied_all : ∀ n, Applied s n → Applied { s with worker := w } n :=
    fun n all b before => applied b (all b before)
  have reported : Reported s s.worker.replies → Reported { s with worker := w } w.replies := by
    rintro (failed | ⟨error, member, is_error⟩)
    · exact Or.inl failed
    · refine Or.inr ⟨error, ?_, is_error⟩
      rw [replies]
      exact List.mem_append_left _ member
  have counted : ∀ front, s.worker.handled + (message :: front).countP InMessage.isBundle =
      w.handled + front.countP InMessage.isBundle := by
    intro front
    rw [List.countP_cons, handled]
    omega
  constructor
  · change s.sent = w.handled + w.inbox.countP InMessage.isBundle
    rw [ordered.sent, whole, rest, counted]
  · intro front index back parts
    rw [ordered.numbered (message :: front) index back
      (by rw [whole, ← rest]; exact congrArg (message :: ·) parts), counted]
  · change Reported _ w.replies ∨ Applied _ w.handled
    by_cases bundle : ∃ index, message = .bundle index
    · obtain ⟨index, rfl⟩ := bundle
      rcases outcome index rfl with done | ⟨error, rfl, is_error⟩
      · refine ordered.handled.imp reported fun all b before => ?_
        rw [handled, show (InMessage.bundle index).isBundle = true from rfl, if_pos rfl] at before
        have first := ordered.numbered [] index inbox whole
        rcases Nat.lt_succ_iff_lt_or_eq.mp before with earlier | last
        · exact applied b (all b earlier)
        · rwa [last, show s.worker.handled = index from first.symm]
      · refine Or.inl (Or.inr ⟨error, ?_, is_error⟩)
        rw [replies]
        exact List.mem_append_right _ List.mem_cons_self
    · have same : w.handled = s.worker.handled := by
        rw [handled]
        cases message with
        | bundle index => exact absurd ⟨index, rfl⟩ bundle
        | _ => rfl
      rw [same]
      exact ordered.handled.imp reported (applied_all _)
  · obtain ⟨in_inbox, in_replies, waiting⟩ := ordered.fresh
    refine ⟨fun id listed => in_inbox id ?_, fun id listed => ?_, waiting⟩
    · rw [whole, ← rest]
      exact List.mem_cons_of_mem _ listed
    · change Reply.drained id ∈ w.replies at listed
      rw [replies, List.mem_append, Option.mem_toList] at listed
      rcases listed with old | new
      · exact in_replies id old
      · apply in_inbox id
        rw [whole, drained id new]
        exact List.mem_cons_self
  · intro front id back parts n awaits
    rw [← counted front]
    exact ordered.inbox (message :: front) id back
      (by rw [whole, ← rest]; exact congrArg (message :: ·) parts) n awaits
  · intro front id back parts n awaits
    have old : ∀ back, s.worker.replies = front ++ Reply.drained id :: back →
        Reported { s with worker := w } front ∨ Applied { s with worker := w } n :=
      fun back parts => (ordered.replies front id back parts n awaits).imp_right (applied_all n)
    change w.replies = _ at parts
    rw [replies] at parts
    cases reply with
    | none => exact old back (by rw [← parts, Option.toList_none, List.append_nil])
    | some last =>
      rcases Queues.concat_cases parts with ⟨rfl, rfl⟩ | ⟨back, parts⟩
      · -- the reply to a drain comes after those of all bundles before it
        obtain rfl := drained id rfl
        have before := ordered.inbox [] id inbox whole n awaits
        refine ordered.handled.imp (fun known => known) fun all b earlier => ?_
        exact applied b (all b (Nat.lt_of_lt_of_le earlier before))
      · exact old back parts
  · exact fun p n found => applied_all n (ordered.drained p n found)

private theorem Ordered.post {message : InMessage} (ordered : Ordered s)
    (worker : t.worker = { s.worker with inbox := s.worker.inbox ++ [message] })
    (sent : t.sent = s.sent + if message.isBundle then 1 else 0)
    (index : ∀ i, message = .bundle i → i = s.sent)
    (next : s.nextDrainId ≤ t.nextDrainId)
    (id : ∀ id, message = .drain id → id = s.nextDrainId ∧ id < t.nextDrainId)
    (waiters : ∀ w ∈ t.drainWaiters, w ∈ s.drainWaiters ∨ w.1 < t.nextDrainId)
    (awaits : ∀ id n, Awaits t id n → Awaits s id n ∨ (id = s.nextDrainId ∧ n = s.sent))
    (failed : t.firstError = s.firstError)
    (drained : ∀ p n : Nat, t.promises[p]? = some ⟨.drain n, .resolved⟩ →
      s.promises[p]? = some ⟨.drain n, .resolved⟩) : Ordered t := by
  obtain ⟨in_inbox, in_replies, waiting⟩ := ordered.fresh
  have old_id : ∀ id n, Awaits s id n → id < s.nextDrainId := by
    rintro id n ⟨p, member, -⟩
    exact waiting (id, p) member
  have reported : ∀ front, Reported s front → Reported t front := by
    intro front
    rw [Reported, Reported, failed]
    exact fun known => known
  have applied : ∀ n, Applied s n → Applied t n := by
    intro n all
    rwa [Applied, worker]
  constructor
  · rw [sent, worker, ordered.sent]
    simp only [List.countP_append, List.countP_singleton]
    omega
  · intro front i back whole
    rw [worker] at whole ⊢
    rcases Queues.concat_cases whole with ⟨rfl, same⟩ | ⟨back, whole⟩
    · rw [index i same.symm, ordered.sent]
    · exact ordered.numbered front i back whole
  · rw [worker]
    exact ordered.handled.imp (reported _) (applied _)
  · rw [worker]
    refine ⟨fun i listed => ?_, fun i listed => Nat.lt_of_lt_of_le (in_replies i listed) next,
      fun w member => ?_⟩
    · rcases mem_snoc.mp listed with old | new
      · exact Nat.lt_of_lt_of_le (in_inbox i old) next
      · exact (id i new.symm).2
    · exact (waiters w member).elim (fun old => Nat.lt_of_lt_of_le (waiting w old) next) fun new => new
  · intro front i back whole n waits
    rw [worker] at whole ⊢
    rcases Queues.concat_cases whole with ⟨rfl, same⟩ | ⟨back, whole⟩ <;>
      rcases awaits i n waits with old | ⟨rfl, rfl⟩
    · have fresh := old_id i n old
      rw [(id i same.symm).1] at fresh
      exact absurd fresh (Nat.lt_irrefl _)
    · exact Nat.le_of_eq ordered.sent
    · exact ordered.inbox front i back whole n old
    · exact absurd (in_inbox _ (by rw [whole]; simp)) (Nat.lt_irrefl _)
  · intro front i back whole n waits
    rw [worker] at whole
    rcases awaits i n waits with old | ⟨rfl, rfl⟩
    · exact (ordered.replies front i back whole n old).imp (reported _) (applied _)
    · exact absurd (in_replies _ (by rw [whole]; simp)) (Nat.lt_irrefl _)
  · exact fun p n found => applied n (ordered.drained p n (drained p n found))

private theorem Ordered.take {reply : Reply} {replies : List Reply} (ordered : Ordered s)
    (whole : s.worker.replies = reply :: replies)
    (worker : t.worker = { s.worker with replies }) (sent : t.sent = s.sent)
    (next : t.nextDrainId = s.nextDrainId) (waiters : t.drainWaiters = s.drainWaiters)
    (promises : t.promises = s.promises)
    (failed : s.firstError.isSome ∨ reply.isError = true → t.firstError.isSome) : Ordered t := by
  have reported : ∀ front, Reported s (reply :: front) → Reported t front := by
    rintro front (known | ⟨error, member, is_error⟩)
    · exact Or.inl (failed (Or.inl known))
    · rcases List.mem_cons.mp member with rfl | later
      · exact Or.inl (failed (Or.inr is_error))
      · exact Or.inr ⟨error, later, is_error⟩
  have awaits : ∀ id n, Awaits t id n → Awaits s id n := by
    intro id n waits
    rwa [Awaits, waiters, promises] at waits
  have applied : ∀ n, Applied s n → Applied t n := by
    intro n all
    rwa [Applied, worker]
  constructor
  · rw [sent, worker, ordered.sent]
  · rw [worker]
    exact ordered.numbered
  · have handled := ordered.handled
    rw [whole] at handled
    rw [worker]
    exact handled.imp (reported _) (applied _)
  · obtain ⟨in_inbox, in_replies, waiting⟩ := ordered.fresh
    rw [worker, next, waiters]
    refine ⟨in_inbox, fun id listed => in_replies id ?_, waiting⟩
    rw [whole]
    exact List.mem_cons_of_mem _ listed
  · rw [worker]
    exact fun front id back parts n waits =>
      ordered.inbox front id back parts n (awaits id n waits)
  · intro front id back parts n waits
    rw [worker] at parts
    exact (ordered.replies (reply :: front) id back (by rw [whole]; exact congrArg (reply :: ·) parts)
      n (awaits id n waits)).imp (reported _) (applied _)
  · rw [promises]
    exact fun p n found => applied n (ordered.drained p n found)

/-! ### Calls of the main thread -/

private theorem Inv.working (inv : Inv s) (up : ¬(s.firstError.isSome ∨ s.exited = true)) :
    Working s := inv.phase.resolve_right fun down => up down.known

private theorem Working.post {message : InMessage} (working : Working s)
    (worker : t.worker = { s.worker with inbox := s.worker.inbox ++ [message] })
    (outstanding : t.outstanding = s.outstanding + if message.isBundle then 1 else 0)
    (below : t.belowWaiters = s.belowWaiters) (exited : t.exited = s.exited)
    (drain : ∀ w ∈ t.drainWaiters, w ∈ s.drainWaiters ∨ message = .drain w.1)
    (ready : t.promises[readyPromise]? = some ⟨.ready, .pending⟩ →
      s.promises[readyPromise]? = some ⟨.ready, .pending⟩) : Working t := by
  constructor
  · rw [outstanding, working.counted, State.unsettled, State.unsettled, worker]
    simp only [List.countP_append, List.countP_singleton]
    omega
  · intro w member
    rw [below] at member
    obtain ⟨positive, waits⟩ := working.below w member
    exact ⟨positive, by omega⟩
  · intro w member
    rw [worker]
    rcases drain w member with old | rfl
    · exact (working.drain w old).imp_left (List.mem_append_left _)
    · exact Or.inl (List.mem_append_right _ List.mem_cons_self)
  · rw [worker]
    exact working.opening.imp_right fun ⟨inbox, whole⟩ => ⟨inbox ++ [message], by rw [whole]; rfl⟩
  · intro open_
    rw [worker]
    exact working.ready (ready open_)
  · rw [exited, working.running]
  · rw [worker]
    exact working.died

private theorem send_keeps (inv : Inv s) : Inv s.send := by
  unfold State.send
  split
  · exact inv
  · next up =>
    refine ⟨inv.held, ?_, inv.ended, Or.inl ?_⟩
    · exact inv.ordered.post rfl rfl (fun i same => by cases same; rfl) (Nat.le_refl _)
        (fun id same => (nomatch same)) (fun w member => Or.inl member) (fun id n waits => Or.inl waits)
        rfl fun p n found => found
    · exact (inv.working up).post rfl rfl rfl rfl (fun w member => Or.inl member) id

private theorem close_keeps (inv : Inv s) : Inv s.close := by
  unfold State.close
  split
  · exact inv
  · next up =>
    refine ⟨inv.held, ?_, inv.ended, ?_⟩
    · exact inv.ordered.post rfl rfl (fun i same => (nomatch same)) (Nat.le_refl _)
        (fun id same => (nomatch same)) (fun w member => Or.inl member) (fun id n waits => Or.inl waits)
        rfl fun p n found => found
    · rcases inv.phase with working | ⟨drain, below, ready, known, died⟩
      · exact Or.inl (working.post rfl rfl rfl rfl (fun w member => Or.inl member) id)
      · exact Or.inr ⟨drain, below, ready, known, died⟩

private theorem awaits_append {last : Promise Kind} {id n p : Nat}
    (held : Held s.promises s.drainWaiters s.belowWaiters) (member : (id, p) ∈ s.drainWaiters)
    (found : (s.promises ++ [last])[p]? = some ⟨.drain n, .pending⟩) : Awaits s id n := by
  obtain ⟨kind, -, old⟩ := held.drain.pending (id, p) member
  rw [get_append old] at found
  cases found
  exact ⟨p, member, old⟩

private theorem ready_append (held : Held s.promises s.drainWaiters s.belowWaiters)
    (last : Promise Kind) :
    (s.promises ++ [last])[readyPromise]? = s.promises[readyPromise]? := by
  obtain ⟨status, found⟩ := held.ready
  rw [get_append found, found]

private theorem append_settled_keeps (inv : Inv s) {kind : Kind} {status : Status}
    (settled : status ≠ .pending) (drained : ∀ n, kind = .drain n → status ≠ .resolved) :
    Inv { s with promises := s.promises ++ [⟨kind, status⟩] } where
  held := inv.held.append_settled kind settled
  ordered := by
    refine inv.ordered.writer rfl rfl rfl (fun w member => member) (fun id n waits => ?_) id
      fun p n found => Or.inl ?_
    · obtain ⟨p, member, found⟩ := waits
      exact awaits_append inv.held member found
    · rcases get_append_cases found with ⟨-, same⟩ | old
      · cases same
        exact absurd rfl (drained n rfl)
      · exact old
  ended := inv.ended
  phase := by
    have same := ready_append inv.held ⟨kind, status⟩
    rcases inv.phase with working | down
    · exact Or.inl { working with ready := fun open_ => working.ready (same ▸ open_) }
    · exact Or.inr { down with ready := fun open_ => down.ready (same ▸ open_) }

private theorem waitBelow_keeps (inv : Inv s) {limit : Nat} (positive : 0 < limit) :
    Inv (s.waitBelow limit) := by
  unfold State.waitBelow
  split
  · exact append_settled_keeps inv (by decide) fun n same => (nomatch same)
  · next waits =>
    rw [not_or, not_or] at waits
    have working := inv.working (not_or.mpr ⟨waits.1, waits.2.1⟩)
    have same := ready_append inv.held ⟨.below limit, .pending⟩
    refine ⟨inv.held.append_below limit, ?_, inv.ended, Or.inl ?_⟩
    · refine inv.ordered.writer rfl rfl rfl (fun w member => member) (fun id n awaits => ?_) id
        fun p n found => Or.inl ?_
      · obtain ⟨p, member, found⟩ := awaits
        exact awaits_append inv.held member found
      · rcases get_append_cases found with ⟨-, same⟩ | old
        · cases same
        · exact old
    · refine { working with below := fun w member => ?_, ready := fun open_ => working.ready (same ▸ open_) }
      rcases mem_snoc.mp member with old | new
      · exact working.below w old
      · obtain rfl := new
        exact ⟨positive, Nat.not_lt.mp waits.2.2⟩

private theorem drain_keeps (inv : Inv s) : Inv s.drain := by
  unfold State.drain
  split
  · exact append_settled_keeps inv (by decide) fun n _ => by decide
  · next up =>
    have same := ready_append inv.held ⟨.drain s.sent, .pending⟩
    have fresh : s.nextDrainId ∉ s.drainWaiters.map Prod.fst := by
      intro listed
      obtain ⟨w, member, same⟩ := List.mem_map.mp listed
      exact Nat.lt_irrefl _ (same ▸ inv.ordered.fresh.2.2 w member)
    refine ⟨inv.held.append_drain s.sent fresh, ?_, inv.ended, Or.inl ?_⟩
    · refine inv.ordered.post rfl rfl (fun i same => (nomatch same)) (Nat.le_succ _)
        (fun id same => ?_) (fun w member => ?_) (fun id n awaits => ?_) rfl fun p n found => ?_
      · cases same
        exact ⟨rfl, Nat.lt_succ_self _⟩
      · refine (List.mem_append.mp member).imp_right fun new => ?_
        rw [List.mem_singleton.mp new]
        exact Nat.lt_succ_self _
      · obtain ⟨p, member, found⟩ := awaits
        rcases mem_snoc.mp member with old | new
        · exact Or.inl (awaits_append inv.held old found)
        · cases new
          have last : (s.promises ++ [⟨.drain s.sent, .pending⟩])[s.promises.length]? = _ := get_last
          have both := found.symm.trans last
          cases both
          exact Or.inr ⟨rfl, rfl⟩
      · rcases get_append_cases found with ⟨-, same⟩ | old
        · cases same
        · exact old
    · refine (inv.working up).post rfl rfl rfl rfl (fun w member => ?_) fun open_ => same ▸ open_
      refine (List.mem_append.mp member).imp_right fun new => ?_
      rw [List.mem_singleton.mp new]

private theorem Working.handle {message : InMessage} {inbox : List InMessage} {w : Worker}
    (working : Working s) (reply : Option Reply) (whole : s.worker.inbox = message :: inbox)
    (rest : w.inbox = inbox) (replies : w.replies = s.worker.replies ++ reply.toList)
    (opened : s.worker.opened = true ∨ message = .open → w.opened = true)
    (settles : message.isBundle = reply.any Reply.settlesBundle)
    (drained : ∀ id, message = .drain id → reply = some (.drained id))
    (ready : message = .open → reply = some .ready) : Working { s with worker := w } := by
  have opening : s.worker.opened = true ∨ message = .open := by
    refine working.opening.imp_right fun ⟨inbox', first⟩ => ?_
    rw [whole] at first
    exact (List.cons.inj first).1
  constructor
  · change s.outstanding = w.inbox.countP InMessage.isBundle + w.replies.countP Reply.settlesBundle
    rw [working.counted, State.unsettled, whole, rest, replies, List.countP_cons, List.countP_append,
      settles]
    cases reply with
    | none => rfl
    | some reply =>
      rw [Option.toList_some, List.countP_singleton]
      simp only [Option.any_some]
      omega
  · exact working.below
  · intro waiter member
    change InMessage.drain waiter.1 ∈ w.inbox ∨ Reply.drained waiter.1 ∈ w.replies
    rw [rest, replies]
    rcases working.drain waiter member with queued | replied
    · rw [whole] at queued
      rcases List.mem_cons.mp queued with first | later
      · rw [drained _ first.symm]
        exact Or.inr (List.mem_append_right _ List.mem_cons_self)
      · exact Or.inl later
    · exact Or.inr (List.mem_append_left _ replied)
  · exact Or.inl (opened opening)
  · intro open_
    change w.opened = false ∨ Reply.ready ∈ w.replies
    rw [replies]
    right
    rcases working.ready open_ with closed | replied
    · rw [ready (opening.resolve_left (by rw [closed]; decide))]
      exact List.mem_append_right _ List.mem_cons_self
    · exact List.mem_append_left _ replied
  · exact working.running
  · exact fun _ => opened opening

private theorem handle_keeps {message : InMessage} {inbox : List InMessage} {thrown : Option String}
    (inv : Inv s) (alive : s.worker.died = none) (whole : s.worker.inbox = message :: inbox)
    (fine : thrown.isSome → ∃ index, message = .bundle index) :
    Inv { s with worker := { s.worker with inbox }.handle thrown message } := by
  have working : Working s := inv.phase.resolve_right fun down => down.died alive
  have not_uncaught : s.worker.uncaught = false :=
    Bool.eq_false_iff.mpr fun uncaught => inv.ended uncaught alive
  cases message with
  | «open» =>
    cases thrown with
    | some text => exact (nomatch fine rfl)
    | none =>
      refine ⟨inv.held, ?_, inv.ended, Or.inl ?_⟩
      · exact inv.ordered.handle (some .ready) whole rfl rfl rfl (fun b member => member)
          (fun id same => by cases same) fun index same => by cases same
      · exact working.handle (some .ready) whole rfl rfl (fun _ => rfl) rfl
          (fun id same => by cases same) fun _ => rfl
  | bundle index =>
    have failing : ∀ text, Inv { s with worker := { s.worker with
        inbox, handled := s.worker.handled + 1, replies := s.worker.replies ++ [.error text] } } := by
      intro text
      refine ⟨inv.held, ?_, inv.ended, Or.inl ?_⟩
      · exact inv.ordered.handle (some (.error text)) whole rfl rfl rfl
          (fun b member => member) (fun id same => by cases same)
          fun index same => Or.inr ⟨_, rfl, rfl⟩
      · exact working.handle (some (.error text)) whole rfl rfl
          (fun opened => opened.resolve_right (by simp)) rfl (fun id same => by cases same)
          fun same => by cases same
    unfold Worker.handle
    dsimp only
    split
    · cases thrown with
      | some text => exact failing text
      | none =>
        refine ⟨inv.held, ?_, inv.ended, Or.inl ?_⟩
        · exact inv.ordered.handle (some .ack) whole rfl rfl rfl
            (fun b member => List.mem_append_left _ member) (fun id same => by cases same)
            fun index same => by
              cases same
              exact Or.inl (List.mem_append_right _ List.mem_cons_self)
        · exact working.handle (some .ack) whole rfl rfl
            (fun opened => opened.resolve_right (by simp)) rfl (fun id same => by cases same)
            fun same => by cases same
    · exact failing _
  | drain id =>
    cases thrown with
    | some text => exact (nomatch fine rfl)
    | none =>
      refine ⟨inv.held, ?_, inv.ended, Or.inl ?_⟩
      · exact inv.ordered.handle (some (.drained id)) whole rfl rfl rfl
          (fun b member => member) (fun id same => by cases same; rfl) fun index same => by cases same
      · exact working.handle (some (.drained id)) whole rfl rfl
          (fun opened => opened.resolve_right (by simp)) rfl (fun id same => by cases same; rfl)
          fun same => by cases same
  | close =>
    cases thrown with
    | some text => exact (nomatch fine rfl)
    | none =>
      refine ⟨inv.held, ?_, fun _ => by simp [Worker.handle], Or.inl ?_⟩
      · exact inv.ordered.handle none whole rfl (List.append_nil _).symm rfl
          (fun b member => member) (fun id same => by cases same) fun index same => by cases same
      · exact working.handle none whole rfl (List.append_nil _).symm
          (fun opened => opened.resolve_right (by simp)) rfl (fun id same => by cases same)
          fun same => by cases same

private theorem awaits_settle {given : List Nat} {status : Status} {id n : Nat}
    {waiters : List (Nat × Nat)} (settles : status ≠ .pending)
    (fewer : ∀ w ∈ waiters, w ∈ s.drainWaiters)
    (waits : ∃ p, (id, p) ∈ waiters ∧
      (settle given status s.promises)[p]? = some ⟨.drain n, .pending⟩) : Awaits s id n := by
  obtain ⟨p, member, found⟩ := waits
  exact ⟨p, fewer _ member, (pending_settle settles found).1⟩

private theorem ready_settle {given : List Nat} {status : Status} (settles : status ≠ .pending)
    (open_ : (settle given status s.promises)[readyPromise]? = some ⟨.ready, .pending⟩) :
    s.promises[readyPromise]? = some ⟨.ready, .pending⟩ := (pending_settle settles open_).1

private theorem below_resolves {given : List Nat} {status : Status} {p n : Nat}
    {waiters : List (Nat × Nat)} (below : Waiting IsBelow s.promises s.belowWaiters)
    (among : given = waiters.map Prod.snd) (fewer : ∀ w ∈ waiters, w ∈ s.belowWaiters)
    (found : (settle given status s.promises)[p]? = some ⟨.drain n, .resolved⟩) :
    s.promises[p]? = some ⟨.drain n, .resolved⟩ := by
  subst among
  rcases resolved_settle found with old | ⟨-, listed, open_⟩
  · exact old
  · obtain ⟨w, member, rfl⟩ := List.mem_map.mp listed
    obtain ⟨kind, is_below, other⟩ := below.pending w (fewer w member)
    rw [open_] at other
    cases other
    cases is_below

private theorem settleOne_keeps {reply : Reply} {replies : List Reply}
    (inv : Inv s) (failure : Option Failure) (whole : s.worker.replies = reply :: replies)
    (settles : reply.settlesBundle = true)
    (failed : s.firstError.isSome ∨ reply.isError = true → failure.isSome) :
    Inv ({ s with firstError := failure, worker := { s.worker with replies } } : State).settleOne := by
  have resolves : Status.resolved ≠ .pending := by decide
  have taken : Ordered { s with firstError := failure, worker := { s.worker with replies } } :=
    inv.ordered.take whole rfl rfl rfl rfl rfl failed
  refine ⟨?_, ?_, inv.ended, ?_⟩
  · have kept := inv.held.settle_belows resolves fun w => decide (s.outstanding - 1 < w.1)
    simpa only [State.settleOne, decide_not] using kept
  · exact taken.writer rfl rfl rfl (fun w member => member)
      (fun id n waits => awaits_settle resolves (fun w member => member) waits) id
      fun p n found => Or.inl (below_resolves inv.held.below rfl
        (fun w member => (List.mem_filter.mp member).1) found)
  · rcases inv.phase with working | down
    · have counted : s.outstanding = s.worker.inbox.countP InMessage.isBundle +
          (replies.countP Reply.settlesBundle + 1) := by
        rw [working.counted, State.unsettled, whole, List.countP_cons_of_pos settles]
      refine Or.inl ⟨?_, fun w member => ?_, fun w member => ?_, working.opening, fun open_ => ?_,
        working.running, working.died⟩
      · change s.outstanding - 1 = s.worker.inbox.countP InMessage.isBundle +
          replies.countP Reply.settlesBundle
        omega
      · obtain ⟨member, kept⟩ := List.mem_filter.mp member
        have room : w.1 ≤ s.outstanding - 1 := by simpa using kept
        exact ⟨(working.below w member).1, room⟩
      · refine (working.drain w member).imp_right fun replied => ?_
        rw [whole] at replied
        rcases List.mem_cons.mp replied with rfl | later
        · exact absurd settles Bool.false_ne_true
        · exact later
      · refine (working.ready (ready_settle resolves open_)).imp_right fun replied => ?_
        rw [whole] at replied
        rcases List.mem_cons.mp replied with rfl | later
        · exact absurd settles Bool.false_ne_true
        · exact later
    · refine Or.inr ⟨down.drain, ?_, fun open_ => down.ready (ready_settle resolves open_),
        down.known.imp_left fun known => failed (Or.inl known), down.died⟩
      change s.belowWaiters.filter _ = []
      rw [down.below]
      rfl

private theorem ready_resolves {status : Status} {p n : Nat}
    (ready : ∃ was, s.promises[readyPromise]? = some ⟨.ready, was⟩)
    (found : (settle [readyPromise] status s.promises)[p]? = some ⟨.drain n, .resolved⟩) :
    s.promises[p]? = some ⟨.drain n, .resolved⟩ := by
  rcases resolved_settle found with old | ⟨-, listed, open_⟩
  · exact old
  · obtain ⟨was, ready⟩ := ready
    rw [List.mem_singleton.mp listed, ready] at open_
    cases open_

private theorem message_keeps {reply : Reply} {replies : List Reply} (inv : Inv s)
    (whole : s.worker.replies = reply :: replies) :
    Inv (({ s with worker := { s.worker with replies } } : State).onMessage reply) := by
  have resolves : Status.resolved ≠ .pending := by decide
  cases reply with
  | ack =>
    exact settleOne_keeps inv s.firstError whole rfl fun known => known.resolve_right (by decide)
  | error text =>
    refine settleOne_keeps inv _ whole rfl fun _ => ?_
    cases s.firstError <;> rfl
  | ready =>
    have taken : Ordered { s with worker := { s.worker with replies } } :=
      inv.ordered.take whole rfl rfl rfl rfl rfl fun known => known.resolve_right (by decide)
    refine ⟨inv.held.settle_ready resolves, ?_, inv.ended, ?_⟩
    · exact taken.writer rfl rfl rfl (fun w member => member)
        (fun id n waits => awaits_settle resolves (fun w member => member) waits) id
        fun p n found => Or.inl (ready_resolves inv.held.ready found)
    · rcases inv.phase with working | down
      · refine Or.inl ⟨?_, working.below, fun w member => ?_, working.opening, fun open_ => ?_,
          working.running, working.died⟩
        · change s.outstanding = s.worker.inbox.countP InMessage.isBundle +
            replies.countP Reply.settlesBundle
          rw [working.counted, State.unsettled, whole, List.countP_cons_of_neg (by decide)]
        · refine (working.drain w member).imp_right fun replied => ?_
          rw [whole] at replied
          exact (List.mem_cons.mp replied).resolve_left (by simp)
        · exact absurd List.mem_cons_self (pending_settle resolves open_).2
      · exact Or.inr { down with ready := fun open_ => down.ready (ready_settle resolves open_) }
  | drained id =>
    have taken : Ordered { s with worker := { s.worker with replies } } :=
      inv.ordered.take whole rfl rfl rfl rfl rfl fun known =>
        known.resolve_right Bool.false_ne_true
    have ready : ∀ working : Working s, s.promises[readyPromise]? = some ⟨.ready, .pending⟩ →
        s.worker.opened = false ∨ Reply.ready ∈ replies := by
      intro working open_
      refine (working.ready open_).imp_right fun replied => ?_
      rw [whole] at replied
      exact (List.mem_cons.mp replied).resolve_left (by simp)
    have counted : ∀ working : Working s, s.outstanding =
        s.worker.inbox.countP InMessage.isBundle + replies.countP Reply.settlesBundle := by
      intro working
      rw [working.counted, State.unsettled, whole, List.countP_cons_of_neg Bool.false_ne_true]
    have waits : ∀ working : Working s, ∀ w ∈ s.drainWaiters, w.1 ≠ id →
        InMessage.drain w.1 ∈ s.worker.inbox ∨ Reply.drained w.1 ∈ replies := by
      intro working w member other
      refine (working.drain w member).imp_right fun replied => ?_
      rw [whole] at replied
      exact (List.mem_cons.mp replied).resolve_left fun same => other (Reply.drained.inj same)
    unfold State.onMessage
    dsimp only
    cases found : s.drainWaiters.find? (·.1 == id) with
    | none =>
      refine ⟨inv.held, taken, inv.ended, ?_⟩
      have others : ∀ w ∈ s.drainWaiters, w.1 ≠ id := by
        intro w member same
        exact List.find?_eq_none.mp found w member (beq_iff_eq.mpr same)
      rcases inv.phase with working | down
      · exact Or.inl ⟨counted working, working.below,
          fun w member => waits working w member (others w member), working.opening, ready working,
          working.running, working.died⟩
      · exact Or.inr { down with }
    | some waiter =>
      have member := List.mem_of_find?_eq_some found
      obtain rfl : waiter.1 = id := by simpa using List.find?_some found
      have settles : (if s.firstError.isSome then Status.rejected else Status.resolved) ≠ .pending := by
        split <;> decide
      refine ⟨inv.held.settle_drain settles member, ?_, inv.ended, ?_⟩
      · refine taken.writer rfl rfl rfl (fun w listed => (List.mem_filter.mp listed).1)
          (fun id n waits => awaits_settle settles (fun w listed => (List.mem_filter.mp listed).1) waits)
          (fun known => known) fun p n done => ?_
        -- every bundle before the drain is applied, unless the writer knows of a failure
        refine (resolved_settle done).imp_right fun ⟨resolved, listed, open_⟩ => ?_
        rw [List.mem_singleton.mp listed] at open_
        refine (inv.ordered.replies [] waiter.1 replies whole n ⟨waiter.2, member, open_⟩).resolve_left ?_
        rintro (known | ⟨error, none_, -⟩)
        · rw [if_pos known] at resolved
          cases resolved
        · exact nomatch none_
      · rcases inv.phase with working | down
        · refine Or.inl ⟨counted working, working.below, fun w listed => ?_, working.opening,
            fun open_ => ready working (ready_settle settles open_), working.running, working.died⟩
          obtain ⟨listed, other⟩ := List.mem_filter.mp listed
          exact waits working w listed (by simpa using other)
        · rw [down.drain] at member
          exact nomatch member

private theorem failAll_held (held : Held s.promises s.drainWaiters s.belowWaiters)
    (failure : Failure) : Held (s.failAll failure).promises [] [] := by
  have rejects : Status.rejected ≠ .pending := by decide
  have resolves : Status.resolved ≠ .pending := by decide
  have kept := (held.settle_drains rejects fun _ => true).settle_belows resolves fun _ => true
  simpa only [State.failAll, Bool.not_true, List.filter_true, List.filter_false] using kept

private theorem failAll_ordered (held : Held s.promises s.drainWaiters s.belowWaiters)
    (ordered : Ordered s) (failure : Failure) : Ordered (s.failAll failure) := by
  refine ordered.writer rfl rfl rfl (fun w member => (nomatch member)) (fun id n waits => ?_)
    (fun known => ?_) fun p n found => Or.inl ?_
  · obtain ⟨p, member, -⟩ := waits
    exact nomatch member
  · change (s.firstError.or _).isSome
    rw [Option.isSome_or, known]
    rfl
  · have rejects : Status.rejected ≠ .pending := by decide
    have below : Waiting IsBelow (settle (s.drainWaiters.map Prod.snd) .rejected s.promises)
        s.belowWaiters := by
      have kept := (held.settle_drains rejects fun _ => true).below
      rwa [List.filter_true] at kept
    have old := below_resolves (s := { s with
      promises := settle (s.drainWaiters.map Prod.snd) .rejected s.promises }) below rfl
      (fun w member => member) found
    rcases resolved_settle old with old | ⟨resolved, -⟩
    · exact old
    · cases resolved

private theorem fail_keeps (held : Held s.promises s.drainWaiters s.belowWaiters) (ordered : Ordered s)
    (died : s.worker.died ≠ none) (failure : Failure) : Inv (s.failAll failure).readyReject := by
  have rejects : Status.rejected ≠ .pending := by decide
  have failed := failAll_held held failure
  refine ⟨failed.settle_ready rejects, ?_, fun _ => died, Or.inr ⟨rfl, rfl, fun open_ => ?_, ?_, died⟩⟩
  · exact (failAll_ordered held ordered failure).writer rfl rfl rfl (fun w member => member)
      (fun id n waits => awaits_settle rejects (fun w member => member) waits) id
      fun p n found => Or.inl (ready_resolves failed.ready found)
  · exact (pending_settle rejects open_).2 List.mem_cons_self
  · refine Or.inl ?_
    change (s.firstError.or _).isSome
    rw [Option.isSome_or, Option.isSome_some, Bool.or_true]

private theorem onError_keeps (inv : Inv s) (uncaught : s.worker.uncaught = true) :
    Inv ({ s with worker := { s.worker with uncaught := false } } : State).onError := by
  have ordered : Ordered { s with worker := { s.worker with uncaught := false } } :=
    { inv.ordered with }
  exact fail_keeps (s := { s with worker := { s.worker with uncaught := false } }) inv.held ordered
    (inv.ended uncaught) .uncaught

private theorem onExit_keeps {code : Int} (inv : Inv s) (died : s.worker.died = some code)
    (taken : s.worker.replies = []) : Inv (s.onExit code) := by
  have some_ : s.worker.died ≠ none := by
    rw [died]
    exact Option.some_ne_none code
  have ordered : Ordered { s with exited := true } := { inv.ordered with }
  unfold State.onExit
  dsimp only
  split
  · exact fail_keeps (s := { s with exited := true }) inv.held ordered some_ _
  · next zero =>
    obtain rfl : code = 0 := by simpa using zero
    -- the worker has opened its database and every reply has come
    have ready : s.promises[readyPromise]? ≠ some ⟨.ready, .pending⟩ := by
      intro open_
      rcases inv.phase with working | down
      · rcases working.ready open_ with closed | replied
        · rw [working.died died] at closed
          cases closed
        · rw [taken] at replied
          exact nomatch replied
      · exact down.ready open_
    have held : Held (State.failAll { s with exited := true } .exitedBeforeDrain).promises [] [] :=
      failAll_held (s := { s with exited := true }) inv.held _
    split
    · refine ⟨held, failAll_ordered (s := { s with exited := true }) inv.held ordered _, inv.ended,
        Or.inr ⟨rfl, rfl, fun open_ => ready ?_, Or.inr rfl, some_⟩⟩
      exact (pending_settle (by decide) (pending_settle (by decide) open_).1).1
    · next none_ =>
      rw [not_or, not_not, not_not] at none_
      exact ⟨inv.held, ordered, inv.ended, Or.inr ⟨none_.1, none_.2, ready, Or.inr rfl, some_⟩⟩

private theorem end_keeps {code : Int} {uncaught : Bool} (inv : Inv s)
    (opened : code = 0 → s.worker.opened = true) :
    Inv { s with worker := { s.worker with died := some code, uncaught } } where
  held := inv.held
  ordered := { inv.ordered with }
  ended _ := Option.some_ne_none code
  phase := inv.phase.imp
    (fun working => { working with died := fun zero => opened (Option.some.inj zero) })
    fun down => { down with died := Option.some_ne_none code }

theorem step_keeps {event : Event} (inv : Inv s) (fine : Fine s event)
    (taken : step s event = some t) : Inv t := by
  cases event with
  | send =>
    cases taken
    exact send_keeps inv
  | waitBelow limit =>
    cases taken
    exact waitBelow_keeps inv fine
  | drain =>
    cases taken
    exact drain_keeps inv
  | close =>
    cases taken
    exact close_keeps inv
  | handle thrown =>
    simp only [step] at taken
    split at taken
    · next message inbox alive whole =>
      cases taken
      refine handle_keeps inv alive whole fun throws => ?_
      cases thrown with
      | none => exact nomatch throws
      | some text =>
        obtain ⟨index, rest, first⟩ := fine
        rw [whole] at first
        exact ⟨index, (List.cons.inj first).1⟩
    · cases taken
  | message =>
    simp only [step] at taken
    split at taken
    · next reply replies whole =>
      cases taken
      exact message_keeps inv whole
    · cases taken
  | crash =>
    obtain ⟨-, ⟨⟩⟩ := Option.ite_none_right_eq_some.mp taken
    exact end_keeps inv fun one => absurd one (by decide)
  | exit code =>
    obtain ⟨-, ⟨⟩⟩ := Option.ite_none_right_eq_some.mp taken
    exact end_keeps inv fine
  | onError =>
    obtain ⟨uncaught, ⟨⟩⟩ := Option.ite_none_right_eq_some.mp taken
    exact onError_keeps inv uncaught
  | onExit =>
    simp only [step] at taken
    split at taken
    · next code died =>
      obtain ⟨⟨replied, -⟩, ⟨⟩⟩ := Option.ite_none_right_eq_some.mp taken
      exact onExit_keeps inv died replied
    · cases taken

theorem reachable_inv (reached : ReachableWhen Fine .constructed step s) : Inv s :=
  reached.invariant constructed_inv fun _ _ _ inv fine taken => step_keeps inv fine taken

end CodeGraph.Extraction.StoreWriter
