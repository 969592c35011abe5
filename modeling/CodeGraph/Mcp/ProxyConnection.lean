import CodeGraph.Mcp.Proxy

/-!
The connection of the proxy to the daemon: what its status, its socket and the attempt to connect say
of one another in every state.

Lines are buffered only while an attempt is under way that will serve them or write them to a daemon,
and requests are in flight only while a daemon is attached.
-/
namespace CodeGraph.Mcp.Proxy

variable {deps : Deps} {s t u : Proxy}

structure Shape (s : Proxy) : Prop where
  ready : s.daemonStatus = .ready ↔ s.daemonSocket = true
  attached : s.daemonSocket = true → s.attempt = .none
  connecting : s.daemonStatus = .connecting ↔
    s.attempt = .initial ∨ (∃ r, s.attempt = .retiring r) ∨ s.attempt = .connecting true
  buffered : s.pending ≠ [] → s.daemonStatus = .connecting
  orphans : s.daemonSocket = false → s.inflight = [] ∧ s.forwarded = []
  /-- There is one attempt at a time. -/
  timer : s.retryTimer = true → s.attempt = .none

private theorem Shape.same (shape : Shape s) (status : t.daemonStatus = s.daemonStatus)
    (socket : t.daemonSocket = s.daemonSocket) (attempt : t.attempt = s.attempt)
    (pending : t.pending ≠ [] → s.pending ≠ [] ∨ s.daemonStatus = .connecting)
    (orphans : s.daemonSocket = false → t.inflight = [] ∧ t.forwarded = [])
    (timer : t.retryTimer = s.retryTimer) : Shape t := by
  refine ⟨?_, ?_, ?_, fun h => ?_, fun h => orphans (socket ▸ h), fun h => ?_⟩
  · rw [status, socket]
    exact shape.ready
  · rw [socket, attempt]
    exact shape.attached
  · rw [status, attempt]
    exact shape.connecting
  · rw [status]
    exact (pending h).elim shape.buffered id
  · rw [attempt]
    exact shape.timer (timer ▸ h)

structure Keeps (s t : Proxy) : Prop where
  status : t.daemonStatus = s.daemonStatus
  socket : t.daemonSocket = s.daemonSocket
  attempt : t.attempt = s.attempt
  pending : t.pending = s.pending
  inflight : t.inflight = s.inflight
  forwarded : t.forwarded = s.forwarded

theorem Keeps.refl (s : Proxy) : Keeps s s := ⟨rfl, rfl, rfl, rfl, rfl, rfl⟩

theorem Keeps.trans (first : Keeps s t) (second : Keeps t u) : Keeps s u :=
  ⟨second.status.trans first.status, second.socket.trans first.socket,
    second.attempt.trans first.attempt, second.pending.trans first.pending,
    second.inflight.trans first.inflight, second.forwarded.trans first.forwarded⟩

theorem ensureEngine_keeps (deps : Deps) (s : Proxy) : Keeps s (s.ensureEngine deps) := by
  simp only [ensureEngine]
  split
  · exact .refl s
  · exact ⟨rfl, rfl, rfl, rfl, rfl, rfl⟩

theorem handleLocally_keeps (deps : Deps) (s : Proxy) (l : Line) :
    Keeps s (s.handleLocally deps l) := by
  cases l with
  | unparsable text => exact .refl s
  | null => exact .refl s
  | message m =>
    simp only [handleLocally, serveLocally]
    split
    · exact .refl s
    · split
      · split
        · exact (ensureEngine_keeps deps s).trans ⟨rfl, rfl, rfl, rfl, rfl, rfl⟩
        · exact ⟨rfl, rfl, rfl, rfl, rfl, rfl⟩
      · split
        · exact ⟨rfl, rfl, rfl, rfl, rfl, rfl⟩
        · split
          · exact ⟨rfl, rfl, rfl, rfl, rfl, rfl⟩
          · exact .refl s

theorem handleLocally_timer (deps : Deps) (s : Proxy) (l : Line) :
    (s.handleLocally deps l).retryTimer = s.retryTimer := by
  cases l with
  | message m =>
    simp only [handleLocally, serveLocally, ensureEngine, callLocally, writeClient]
    repeat' split
    all_goals rfl
  | _ => rfl

theorem handleAll_keeps (deps : Deps) (lines : List Line) (s : Proxy) :
    Keeps s (lines.foldl (handleLocally deps) s) := by
  induction lines generalizing s with
  | nil => exact .refl s
  | cons l lines ih => exact (handleLocally_keeps deps s l).trans (ih _)

theorem scheduleDaemonRetry_keeps (deps : Deps) (s : Proxy) :
    Keeps s (s.scheduleDaemonRetry deps) := by
  simp only [scheduleDaemonRetry]
  split
  · exact ⟨rfl, rfl, rfl, rfl, rfl, rfl⟩
  · exact .refl s

structure Sends (s t : Proxy) : Prop where
  status : t.daemonStatus = s.daemonStatus
  socket : t.daemonSocket = s.daemonSocket
  attempt : t.attempt = s.attempt
  pending : t.pending = s.pending
  timer : t.retryTimer = s.retryTimer

theorem send_sends (s : Proxy) (l : Line) : Sends s ((s.trackInflight l).writeDaemon l) := by
  have tracks : Sends s (s.trackInflight l) := by
    cases l with
    | message m =>
      simp only [trackInflight]
      split <;> exact ⟨rfl, rfl, rfl, rfl, rfl⟩
    | _ => exact ⟨rfl, rfl, rfl, rfl, rfl⟩
  cases l with
  | message m =>
    simp only [writeDaemon]
    split
    · exact ⟨tracks.status, tracks.socket, tracks.attempt, tracks.pending, tracks.timer⟩
    · exact tracks
  | _ => exact tracks

theorem flush_sends (lines : List Line) (s : Proxy) :
    Sends s (lines.foldl (fun s l => (s.trackInflight l).writeDaemon l) s) := by
  induction lines generalizing s with
  | nil => exact ⟨rfl, rfl, rfl, rfl, rfl⟩
  | cons l lines ih =>
    have first := send_sends s l
    have rest := ih ((s.trackInflight l).writeDaemon l)
    exact ⟨rest.status.trans first.status, rest.socket.trans first.socket,
      rest.attempt.trans first.attempt, rest.pending.trans first.pending,
      rest.timer.trans first.timer⟩

theorem replay_sends (s : Proxy) (again : Bool) : Sends s (s.replay again) := by
  simp only [replay]
  split
  · simp only [writeDaemon]
    split <;> exact ⟨rfl, rfl, rfl, rfl, rfl⟩
  · exact ⟨rfl, rfl, rfl, rfl, rfl⟩

private theorem routeToDaemon_shape (shape : Shape s) (l : Line) :
    Shape (s.routeToDaemon deps l) := by
  simp only [routeToDaemon]
  split
  · next _ socket =>
    have sends := send_sends s l
    refine shape.same sends.status sends.socket sends.attempt (fun h => .inl (sends.pending ▸ h)) ?_
      sends.timer
    rw [socket]
    exact fun h => nomatch h
  · have keeps := handleLocally_keeps deps s l
    refine shape.same keeps.status keeps.socket keeps.attempt (fun h => .inl (keeps.pending ▸ h)) ?_
      (handleLocally_timer deps s l)
    rw [keeps.inflight, keeps.forwarded]
    exact shape.orphans
  · next ready failed =>
    have connecting : s.daemonStatus = .connecting := by
      cases status : s.daemonStatus with
      | connecting => rfl
      | ready => exact absurd (shape.ready.mp status) (failed status)
      | failed => exact absurd status ready
    exact shape.same rfl rfl rfl (fun _ => .inr connecting) shape.orphans rfl

private theorem attachDaemon_shape (s : Proxy) (idle : s.attempt = .none) (again : Bool) :
    Shape (s.attachDaemon again) := by
  have replayed := replay_sends { s with daemonSocket := true, daemonStatus := .ready } again
  have flushed := flush_sends
    ({ s with daemonSocket := true, daemonStatus := .ready }.replay again).pending
    ({ s with daemonSocket := true, daemonStatus := .ready }.replay again)
  have socket : (s.attachDaemon again).daemonSocket = true := flushed.socket.trans replayed.socket
  have status : (s.attachDaemon again).daemonStatus = .ready := flushed.status.trans replayed.status
  have attempt : (s.attachDaemon again).attempt = .none :=
    (flushed.attempt.trans replayed.attempt).trans idle
  refine ⟨?_, fun _ => attempt, ?_, fun h => absurd rfl h, ?_, fun _ => attempt⟩
  · simp [status, socket]
  · simp [status, attempt]
  · simp [socket]

private theorem unavailable_shape {u : Proxy} (keeps : Keeps s u) (status : s.daemonStatus = .failed)
    (socket : s.daemonSocket = false) (attempt : s.attempt = .none) (pending : s.pending = [])
    (orphans : s.inflight = [] ∧ s.forwarded = []) : Shape u := by
  refine ⟨?_, fun _ => keeps.attempt.trans attempt, ?_, fun h => ?_, fun _ => ?_,
    fun _ => keeps.attempt.trans attempt⟩
  · simp [keeps.status, keeps.socket, status, socket]
  · simp [keeps.status, keeps.attempt, status, attempt]
  · exact absurd (keeps.pending.trans pending) h
  · rw [keeps.inflight, keeps.forwarded]
    exact orphans

private theorem connected_shape (shape : Shape s) {found : Bool}
    (taken : s.connected deps found s.attempt = some t) : Shape t := by
  -- Nothing is attached while there is an attempt.
  have detached (other : s.attempt ≠ .none) : s.daemonSocket = false :=
    (Bool.not_eq_true _).mp fun attached => other (shape.attached attached)
  have unavailable (other : s.attempt ≠ .none) :
      Shape (({ s with attempt := .none, daemonStatus := .failed }.serveBufferedLocally
        deps).scheduleDaemonRetry deps) :=
    unavailable_shape ((handleAll_keeps deps s.pending _).trans (scheduleDaemonRetry_keeps deps _))
      rfl (detached other) rfl rfl (shape.orphans (detached other))
  cases at_ : s.attempt with
  | none =>
    rw [at_] at taken
    cases taken
  | initial =>
    rw [at_] at taken
    cases found with
    | true =>
      cases taken
      exact attachDaemon_shape _ rfl false
    | false =>
      cases taken
      exact unavailable (by simp [at_])
  | retiring r =>
    rw [at_] at taken
    cases taken
  | connecting handover =>
    rw [at_] at taken
    cases found with
    | true =>
      have attached := attachDaemon_shape { s with attempt := .none } rfl true
      cases taken
      split
      · exact attached
      · exact attached.same rfl rfl rfl .inl attached.orphans rfl
    | false =>
      cases taken
      exact unavailable (by simp [at_])

theorem step_shape (shape : Shape s) {e : Event} (taken : s.step deps e = some t) : Shape t := by
  obtain ⟨-, taken⟩ := Option.ite_none_left_eq_some.mp taken
  cases e with
  | line l =>
    have same : t = s.onLine deps l := by
      cases l with
      | message m => exact (Option.some.inj (Option.ite_none_right_eq_some.mp taken).2).symm
      | _ => exact (Option.some.inj taken).symm
    subst same
    cases l with
    | unparsable text => exact routeToDaemon_shape shape _
    | null => exact shape.same rfl rfl rfl .inl shape.orphans rfl
    | message m =>
      simp only [onLine, onMessage]
      split
      · refine routeToDaemon_shape ?_ _
        exact shape.same rfl rfl rfl .inl shape.orphans rfl
      · split
        · exact shape.same rfl rfl rfl .inl shape.orphans rfl
        · split
          · exact shape.same rfl rfl rfl .inl shape.orphans rfl
          · refine routeToDaemon_shape ?_ _
            exact shape.same rfl rfl rfl .inl shape.orphans rfl
  | daemonReply m =>
    simp only at taken
    split at taken
    · next id asked =>
      obtain ⟨⟨attached, -⟩, same⟩ := Option.ite_none_right_eq_some.mp taken
      cases same
      simp only [onReply]
      have detached (u : Proxy) : s.daemonSocket = false → u.inflight = [] ∧ u.forwarded = [] := by
        rw [attached]
        exact fun h => nomatch h
      split <;> exact shape.same rfl rfl rfl .inl (detached _) rfl
    · cases taken
  | daemonLost =>
    obtain ⟨attached, same⟩ := Option.ite_none_right_eq_some.mp taken
    cases same
    have pending : s.pending = [] := by
      refine Decidable.byContradiction fun some_ => ?_
      have connecting := shape.buffered some_
      rw [shape.ready.mpr attached] at connecting
      cases connecting
    exact unavailable_shape ((handleAll_keeps deps _ _).trans (scheduleDaemonRetry_keeps deps _))
      rfl rfl (shape.attached attached) pending ⟨rfl, rfl⟩
  | connected found => exact connected_shape shape taken
  | retryTimer =>
    obtain ⟨-, same⟩ := Option.ite_none_right_eq_some.mp taken
    cases same
    simp only [retryDaemon]
    split
    · exact ⟨shape.ready, shape.attached, shape.connecting, shape.buffered, shape.orphans,
        fun h => nomatch h⟩
    · next failed =>
      have failed : s.daemonStatus = .failed := Decidable.not_not.mp failed
      have detached : s.daemonSocket = false := by
        refine (Bool.not_eq_true _).mp fun attached => ?_
        rw [shape.ready.mpr attached] at failed
        cases failed
      split
      · refine ⟨?_, fun h => ?_, ?_, fun _ => rfl, fun _ => shape.orphans detached,
          fun h => nomatch h⟩
        · simp [detached]
        · exact absurd (detached.symm.trans h) (by decide)
        · simp
      · refine ⟨?_, fun h => ?_, ?_, fun h => shape.buffered h, fun _ => shape.orphans detached,
          fun h => nomatch h⟩
        · simp [detached, failed]
        · exact absurd (detached.symm.trans h) (by decide)
        · simp [failed]
  | handedOver =>
    simp only at taken
    split at taken
    · next r at_ =>
      obtain ⟨-, same⟩ := Option.ite_none_right_eq_some.mp taken
      cases same
      have connecting : s.daemonStatus = .connecting :=
        shape.connecting.mpr (.inr (.inl ⟨r, at_⟩))
      have detached : s.daemonSocket = false := by
        refine (Bool.not_eq_true _).mp fun attached => ?_
        rw [shape.ready.mpr attached] at connecting
        cases connecting
      refine ⟨?_, fun h => ?_, ?_, shape.buffered, shape.orphans, fun h => ?_⟩
      · exact shape.ready
      · exact absurd (detached.symm.trans h) (by decide)
      · simp [connecting]
      · have none_ := shape.timer h
        rw [at_] at none_
        cases none_
    · cases taken
  | stopped r =>
    obtain ⟨-, same⟩ := Option.ite_none_right_eq_some.mp taken
    cases same
    exact shape.same rfl rfl rfl .inl shape.orphans rfl
  | finished c outcome =>
    obtain ⟨-, same⟩ := Option.ite_none_right_eq_some.mp taken
    cases same
    simp only [finishCall]
    split <;> exact shape.same rfl rfl rfl .inl shape.orphans rfl

theorem start_shape : Shape start := by
  refine ⟨?_, (fun h => nomatch h), ?_, fun _ => rfl, fun _ => ⟨rfl, rfl⟩,
    fun h => nomatch h⟩
  · simp [start]
  · simp [start]

end CodeGraph.Mcp.Proxy
