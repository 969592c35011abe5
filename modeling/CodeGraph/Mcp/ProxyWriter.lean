import CodeGraph.Mcp.ProxyConnection

/-!
While the proxy tries to reach or start a daemon again, no engine of the session may write.

A writing engine is handed over before the attempt, and calls are buffered from then on. Without a
handover calls are still served in-process, and a call that finds no engine makes one; that is where
the condition comes in.
-/
namespace CodeGraph.Mcp.Proxy

variable {deps : Deps} {s t : Proxy}

/-- The engine that `retryDaemon` waits for. -/
def Attempt.engine : Attempt → Option Engine
  | .retiring r => r.engine
  | _ => .none

def Runs (s : Proxy) (e : Engine) : Prop :=
  s.engine = some e ∨ (∃ r ∈ s.retiring, r.engine = some e) ∨ s.attempt.engine = some e

/-- A line for which an engine is made if it is served in-process. -/
def Line.makes (s : Proxy) : Line → Bool
  | .message m => s.engine.isNone && m.id.isSome && m.method = some "tools/call" && m.objectArguments
  | _ => false

def Alone (deps : Deps) (s : Proxy) : Event → Prop
  | .line l => s.attempt = .connecting false → l.makes s = true → deps.makeEngine s.made ≠ some false
  | _ => True

/-! ### The invariant -/

structure WriterInv (s : Proxy) : Prop where
  shape : Shape s
  /-- Who stops in the background only reads. -/
  retired : ∀ r ∈ s.retiring, ∀ e, r.engine = some e → e.isReadOnly = true
  /-- Before a daemon is tried the engine is handed over, if it may write. -/
  handing : ∀ r, s.attempt = .retiring r → s.engine = none
  connecting : ∀ handover, s.attempt = .connecting handover →
    ∀ e, s.engine = some e → e.isReadOnly = true

private theorem WriterInv.same (inv : WriterInv s) (shape : Shape t)
    (engine : t.engine = s.engine) (retiring : ∀ r ∈ t.retiring, r ∈ s.retiring)
    (attempt : t.attempt = s.attempt) : WriterInv t := by
  refine ⟨shape, fun r listed => inv.retired r (retiring r listed), fun r at_ => ?_,
    fun handover at_ e there => ?_⟩
  · rw [engine]
    exact inv.handing r (attempt ▸ at_)
  · exact inv.connecting handover (attempt ▸ at_) e (engine ▸ there)

private theorem WriterInv.of_none (shape : Shape t) (attempt : t.attempt = .none)
    (retired : ∀ r ∈ t.retiring, ∀ e, r.engine = some e → e.isReadOnly = true) : WriterInv t := by
  refine ⟨shape, retired, fun r at_ => ?_, fun handover at_ => ?_⟩
  · rw [attempt] at at_
    cases at_
  · rw [attempt] at at_
    cases at_

private theorem handleLocally_retiring (deps : Deps) (s : Proxy) (l : Line) :
    (s.handleLocally deps l).retiring = s.retiring := by
  cases l with
  | message m =>
    simp only [handleLocally, serveLocally, ensureEngine, callLocally, writeClient]
    repeat' split
    all_goals rfl
  | _ => rfl

private theorem handleAll_retiring (deps : Deps) (lines : List Line) (s : Proxy) :
    (lines.foldl (handleLocally deps) s).retiring = s.retiring := by
  induction lines generalizing s with
  | nil => rfl
  | cons l lines ih => exact (ih _).trans (handleLocally_retiring deps s l)

private theorem scheduleDaemonRetry_retiring (deps : Deps) (s : Proxy) :
    (s.scheduleDaemonRetry deps).retiring = s.retiring := by
  simp only [scheduleDaemonRetry]
  split <;> rfl

private theorem handleLocally_engine {l : Line} {e : Engine}
    (there : (s.handleLocally deps l).engine = some e) :
    s.engine = some e ∨ l.makes s = true ∧ deps.makeEngine s.made = some e.isReadOnly := by
  cases l with
  | unparsable text => exact .inl there
  | null => exact .inl there
  | message m =>
    simp only [handleLocally, serveLocally] at there
    split at there
    · exact .inl there
    · next i id =>
      split at there
      · next call =>
        split at there
        · next object =>
          simp only [callLocally, ensureEngine] at there
          split at there
          · exact .inl there
          · next missing =>
            obtain ⟨readOnly, made, rfl⟩ := Option.map_eq_some_iff.mp there
            have none_ : s.engine = none := by simpa using missing
            exact .inr ⟨by simp [Line.makes, none_, id, call, object], made⟩
        · exact .inl there
      · split at there
        · exact .inl there
        · split at there <;> exact .inl there

private theorem trackInflight_engine (s : Proxy) (l : Line) :
    ((s.trackInflight l).writeDaemon l).engine = s.engine ∧
      ((s.trackInflight l).writeDaemon l).retiring = s.retiring := by
  have tracks : (s.trackInflight l).engine = s.engine ∧
      (s.trackInflight l).retiring = s.retiring := by
    cases l with
    | message m =>
      simp only [trackInflight]
      split <;> exact ⟨rfl, rfl⟩
    | _ => exact ⟨rfl, rfl⟩
  cases l with
  | message m =>
    simp only [writeDaemon]
    split <;> exact tracks
  | _ => exact tracks

private theorem flush_engine (lines : List Line) (s : Proxy) :
    (lines.foldl (fun s l => (s.trackInflight l).writeDaemon l) s).engine = s.engine ∧
      (lines.foldl (fun s l => (s.trackInflight l).writeDaemon l) s).retiring = s.retiring := by
  induction lines generalizing s with
  | nil => exact ⟨rfl, rfl⟩
  | cons l lines ih =>
    have first := trackInflight_engine s l
    have rest := ih ((s.trackInflight l).writeDaemon l)
    exact ⟨rest.1.trans first.1, rest.2.trans first.2⟩

private theorem attachDaemon_attempt (s : Proxy) (again : Bool) :
    (s.attachDaemon again).attempt = s.attempt :=
  (flush_sends _ _).attempt.trans
    (replay_sends { s with daemonSocket := true, daemonStatus := .ready } again).attempt

private theorem attachDaemon_engine (s : Proxy) (again : Bool) :
    (s.attachDaemon again).engine = s.engine ∧ (s.attachDaemon again).retiring = s.retiring := by
  have replayed (u : Proxy) :
      (u.replay again).engine = u.engine ∧ (u.replay again).retiring = u.retiring := by
    simp only [replay]
    split
    · simp only [writeDaemon]
      split <;> exact ⟨rfl, rfl⟩
    · exact ⟨rfl, rfl⟩
  have first := replayed { s with daemonSocket := true, daemonStatus := .ready }
  have rest := flush_engine
    ({ s with daemonSocket := true, daemonStatus := .ready }.replay again).pending
    ({ s with daemonSocket := true, daemonStatus := .ready }.replay again)
  exact ⟨rest.1.trans first.1, rest.2.trans first.2⟩

private theorem routeToDaemon_engine {l : Line} {e : Engine}
    (there : (s.routeToDaemon deps l).engine = some e) :
    s.engine = some e ∨
      s.daemonStatus = .failed ∧ l.makes s = true ∧ deps.makeEngine s.made = some e.isReadOnly := by
  simp only [routeToDaemon] at there
  split at there
  · rw [(trackInflight_engine s l).1] at there
    exact .inl there
  · next failed => exact (handleLocally_engine there).imp_right fun made => ⟨failed, made⟩
  · exact .inl there

private theorem routeToDaemon_retiring (l : Line) :
    (s.routeToDaemon deps l).retiring = s.retiring := by
  simp only [routeToDaemon]
  split
  · exact (trackInflight_engine s l).2
  · exact handleLocally_retiring deps s l
  · rfl

private theorem routeToDaemon_attempt (l : Line) :
    (s.routeToDaemon deps l).attempt = s.attempt := by
  simp only [routeToDaemon]
  split
  · exact (send_sends s l).attempt
  · exact (handleLocally_keeps deps s l).attempt
  · rfl

private theorem onLine_routes (deps : Deps) (s : Proxy) (l : Line) :
    ∃ u : Proxy, (s.onLine deps l = u ∨ s.onLine deps l = u.routeToDaemon deps l) ∧
      u.engine = s.engine ∧ u.retiring = s.retiring ∧ u.attempt = s.attempt ∧ u.made = s.made ∧
      u.daemonStatus = s.daemonStatus := by
  cases l with
  | unparsable text => exact ⟨s, .inr rfl, rfl, rfl, rfl, rfl, rfl⟩
  | null => exact ⟨{ s with exited := true }, .inl rfl, rfl, rfl, rfl, rfl, rfl⟩
  | message m =>
    simp only [onLine, onMessage]
    split
    · exact ⟨_, .inr rfl, rfl, rfl, rfl, rfl, rfl⟩
    · split
      · exact ⟨_, .inl rfl, rfl, rfl, rfl, rfl, rfl⟩
      · split
        · exact ⟨_, .inl rfl, rfl, rfl, rfl, rfl, rfl⟩
        · exact ⟨_, .inr rfl, rfl, rfl, rfl, rfl, rfl⟩

private theorem onLine_keeps (inv : WriterInv s) {l : Line} (fine : Alone deps s (.line l))
    (shape : Shape (s.onLine deps l)) : WriterInv (s.onLine deps l) := by
  obtain ⟨u, same | same, engine, retiring, attempt, made, status⟩ := onLine_routes deps s l
  · rw [same] at shape ⊢
    exact inv.same shape engine (fun r listed => retiring ▸ listed) attempt
  · rw [same] at shape ⊢
    have attempt' : (u.routeToDaemon deps l).attempt = s.attempt :=
      (routeToDaemon_attempt l).trans attempt
    refine ⟨shape, fun r listed => ?_, fun r at_ => ?_, fun handover at_ e there => ?_⟩
    · rw [routeToDaemon_retiring, retiring] at listed
      exact inv.retired r listed
    · rw [attempt'] at at_
      -- Calls are buffered while the engine is handed over.
      have connecting : s.daemonStatus = .connecting := inv.shape.connecting.mpr (.inr (.inl ⟨r, at_⟩))
      have missing := inv.handing r at_
      cases there : (u.routeToDaemon deps l).engine with
      | none => rfl
      | some e =>
        rcases routeToDaemon_engine there with old | ⟨failed, -⟩
        · rw [engine, missing] at old
          cases old
        · rw [status, connecting] at failed
          cases failed
    · rw [attempt'] at at_
      rcases routeToDaemon_engine there with old | ⟨failed, makes, new⟩
      · exact inv.connecting handover at_ e (engine ▸ old)
      · cases handover with
        | true =>
          have connecting : s.daemonStatus = .connecting := inv.shape.connecting.mpr (.inr (.inr at_))
          rw [status, connecting] at failed
          cases failed
        | false =>
          have makes' : l.makes s = true := by
            cases l with
            | message m => simpa [Line.makes, engine] using makes
            | _ => exact makes
          have writes := fine at_ makes'
          rw [made] at new
          cases readOnly : e.isReadOnly with
          | true => rfl
          | false =>
            rw [readOnly] at new
            exact absurd new writes

theorem writer_step_keeps (inv : WriterInv s) {e : Event} (fine : Alone deps s e)
    (taken : s.step deps e = some t) : WriterInv t := by
  have shape : Shape t := step_shape inv.shape taken
  obtain ⟨-, taken⟩ := Option.ite_none_left_eq_some.mp taken
  cases e with
  | line l =>
    have same : t = s.onLine deps l := by
      cases l with
      | message m => exact (Option.some.inj (Option.ite_none_right_eq_some.mp taken).2).symm
      | _ => exact (Option.some.inj taken).symm
    subst same
    exact onLine_keeps inv fine shape
  | daemonReply m =>
    simp only at taken
    split at taken
    · obtain ⟨-, same⟩ := Option.ite_none_right_eq_some.mp taken
      cases same
      simp only [onReply] at shape ⊢
      split
      · next dropped =>
        rw [if_pos dropped] at shape
        exact inv.same shape rfl (fun _ listed => listed) rfl
      · next passed =>
        rw [if_neg passed] at shape
        exact inv.same shape rfl (fun _ listed => listed) rfl
    · cases taken
  | daemonLost =>
    obtain ⟨attached, same⟩ := Option.ite_none_right_eq_some.mp taken
    cases same
    refine .of_none shape ?_ fun r listed => ?_
    · have keeps := (handleAll_keeps deps (s.inflight.map fun e => Line.message e.2)
        { s with daemonStatus := .failed, daemonSocket := false, inflight := [], forwarded := [] }).trans
          (scheduleDaemonRetry_keeps deps _)
      exact keeps.attempt.trans (inv.shape.attached attached)
    · simp only [onDaemonLost, scheduleDaemonRetry_retiring, handleAll_retiring] at listed
      exact inv.retired r listed
  | connected found =>
    have unavailable (shape : Shape (({ s with attempt := .none, daemonStatus := .failed
        }.serveBufferedLocally deps).scheduleDaemonRetry deps)) :
        WriterInv (({ s with attempt := .none, daemonStatus := .failed }.serveBufferedLocally
          deps).scheduleDaemonRetry deps) := by
      refine .of_none shape ?_ fun r listed => ?_
      · exact ((handleAll_keeps deps s.pending _).trans (scheduleDaemonRetry_keeps deps _)).attempt
      · simp only [serveBufferedLocally, scheduleDaemonRetry_retiring, handleAll_retiring] at listed
        exact inv.retired r listed
    simp only at taken
    have attached (again : Bool) := attachDaemon_engine { s with attempt := .none } again
    cases at_ : s.attempt with
    | none =>
      rw [at_] at taken
      cases taken
    | retiring r =>
      rw [at_] at taken
      cases taken
    | initial =>
      rw [at_] at taken
      cases found with
      | true =>
        cases taken
        refine .of_none shape (attachDaemon_attempt _ false) fun r listed => ?_
        exact inv.retired r ((attached false).2 ▸ listed)
      | false =>
        cases taken
        exact unavailable shape
    | connecting handover =>
      rw [at_] at taken
      cases found with
      | true =>
        cases taken
        cases handover with
        | true =>
          refine .of_none shape (attachDaemon_attempt _ true) fun r listed => ?_
          exact inv.retired r ((attached true).2 ▸ listed)
        | false =>
          refine .of_none shape (attachDaemon_attempt _ true) fun r listed e there => ?_
          rcases mem_snoc.mp listed with old | new
          · exact inv.retired r ((attached true).2 ▸ old) e there
          · -- The engine that is retired now was there while the daemon was tried.
            rw [new] at there
            exact inv.connecting false at_ e ((attached true).1 ▸ there)
      | false =>
        cases taken
        exact unavailable shape
  | retryTimer =>
    obtain ⟨-, same⟩ := Option.ite_none_right_eq_some.mp taken
    cases same
    simp only [retryDaemon] at shape ⊢
    split
    · next up =>
      rw [if_pos up] at shape
      exact inv.same shape rfl (fun _ listed => listed) rfl
    · next failed =>
      rw [if_neg failed] at shape
      split
      · next writes =>
        rw [if_pos writes] at shape
        exact ⟨shape, inv.retired, (fun _ _ => rfl), fun _ at_ => by cases at_⟩
      · next reads =>
        rw [if_neg reads] at shape
        refine ⟨shape, inv.retired, (fun _ at_ => by cases at_), fun _ _ e there => ?_⟩
        have current : s.engine = some e := there
        simpa [current] using reads
  | handedOver =>
    simp only at taken
    split at taken
    · next r at_ =>
      obtain ⟨-, same⟩ := Option.ite_none_right_eq_some.mp taken
      cases same
      refine ⟨shape, inv.retired, (fun _ h => by cases h), fun _ _ e there => ?_⟩
      have missing := inv.handing r at_
      rw [missing] at there
      cases there
    · cases taken
  | stopped r =>
    obtain ⟨-, same⟩ := Option.ite_none_right_eq_some.mp taken
    cases same
    exact inv.same shape rfl (fun _ listed => List.mem_of_mem_erase listed) rfl
  | finished c outcome =>
    obtain ⟨-, same⟩ := Option.ite_none_right_eq_some.mp taken
    cases same
    simp only [finishCall] at shape ⊢
    split
    · next throws =>
      rw [if_pos throws] at shape
      exact inv.same shape rfl (fun _ listed => listed) rfl
    · next fine =>
      rw [if_neg fine] at shape
      exact inv.same shape rfl (fun _ listed => listed) rfl

theorem start_writerInv : WriterInv start :=
  ⟨start_shape, fun _ listed => (nomatch listed), fun _ at_ => (nomatch at_), fun _ at_ => nomatch at_⟩

abbrev ReachableAlone (deps : Deps) : Proxy → Prop :=
  Transitions.ReachableWhen (Alone deps) start (step deps)

/-- Whenever `retryDaemon` tries to reach or start a daemon, every engine of the session that has not
stopped only reads. -/
theorem proxy_one_writer (reached : ReachableAlone deps s) {handover : Bool}
    (trying : s.attempt = .connecting handover) {e : Engine} (runs : s.Runs e) :
    e.isReadOnly = true := by
  have inv : WriterInv s :=
    reached.invariant start_writerInv fun _ _ _ inv fine taken => writer_step_keeps inv fine taken
  rcases runs with current | ⟨r, listed, there⟩ | handing
  · exact inv.connecting handover trying e current
  · exact inv.retired r listed e there
  · rw [trying] at handing
    cases handing

/-! ### Runs of one session -/

instance (deps : Deps) (s : Proxy) (e : Event) : Decidable (Alone deps s e) :=
  match e with
  | .line _ => inferInstanceAs (Decidable (_ → _ → ¬ _))
  | .daemonReply _ => .isTrue trivial
  | .daemonLost => .isTrue trivial
  | .connected _ => .isTrue trivial
  | .retryTimer => .isTrue trivial
  | .handedOver => .isTrue trivial
  | .stopped _ => .isTrue trivial
  | .finished _ _ => .isTrue trivial

def toolCall (id : String) : Event := .line (.message ⟨some ⟨id, true⟩, some "tools/call", true, true⟩)

def reading : Deps := { makeEngine := fun _ => some true, telemetry := true, retries := true }

def readingRun : List Event := [.connected false, toolCall "1", .retryTimer, toolCall "2"]

theorem proxy_one_writer_reading : ∃ s,
    Transitions.run (Transitions.guarded (Alone reading) (step reading)) start readingRun = some s ∧
      s.attempt = .connecting false ∧ s.engine = some ⟨0, true⟩ ∧
      (⟨0, true⟩ : Engine).isReadOnly = true := by
  have seen : (Transitions.run (Transitions.guarded (Alone reading) (step reading)) start
      readingRun).map (fun s => (s.attempt, s.engine)) =
        some (.connecting false, some ⟨0, true⟩) := by decide +kernel
  obtain ⟨s, done, view⟩ := Option.map_eq_some_iff.mp seen
  obtain ⟨attempt, engine⟩ : _ ∧ _ := by simpa only [Prod.mk.injEq] using view
  exact ⟨s, done, attempt, engine,
    proxy_one_writer (Transitions.run_reachableWhen readingRun .start done) attempt (.inl engine)⟩

def writing : Deps := { makeEngine := fun _ => some false, telemetry := true, retries := true }

def writingRun : List Event := [.connected false, .retryTimer, toolCall "1"]

/-- A writing engine runs while `retryDaemon` tries to reach or start a daemon. -/
theorem proxy_two_writers : ∃ s,
    Transitions.run (step writing) start writingRun = some s ∧
      ¬ ∀ handover, s.attempt = .connecting handover → ∀ e, s.Runs e → e.isReadOnly = true := by
  have seen : (Transitions.run (step writing) start writingRun).map (fun s => (s.attempt, s.engine)) =
      some (.connecting false, some ⟨0, false⟩) := by decide +kernel
  obtain ⟨s, done, view⟩ := Option.map_eq_some_iff.mp seen
  obtain ⟨attempt, engine⟩ : _ ∧ _ := by simpa only [Prod.mk.injEq] using view
  exact ⟨s, done, fun alone => absurd (alone false attempt ⟨0, false⟩ (.inl engine)) (by decide)⟩

/-- In every run: there is a socket exactly if the daemon is ready, at most one attempt to reach it is
under way, lines are buffered only while connecting, and nothing is in flight without a socket. -/
theorem proxy_connection_kept (reached : Transitions.Reachable start (step deps) s) : Shape s :=
  reached.invariant start_writerInv.shape fun _ _ _ shape taken => step_shape shape taken

theorem proxy_connection_kept_writing : ∃ s,
    Transitions.run (step writing) start writingRun = some s ∧ s.attempt = .connecting false ∧
      s.inflight = [] ∧ s.forwarded = [] := by
  have seen : (Transitions.run (step writing) start writingRun).map (fun s =>
      (s.attempt, s.daemonSocket)) = some (.connecting false, false) := by decide +kernel
  obtain ⟨s, done, view⟩ := Option.map_eq_some_iff.mp seen
  obtain ⟨attempt, socket⟩ : _ ∧ _ := by simpa only [Prod.mk.injEq] using view
  have shape := proxy_connection_kept (Transitions.run_reachable writingRun .start done)
  exact ⟨s, done, attempt, shape.orphans socket⟩

end CodeGraph.Mcp.Proxy
