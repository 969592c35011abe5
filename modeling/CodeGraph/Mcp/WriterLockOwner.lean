import CodeGraph.Mcp.WriterLock

/-!
Writer records are not stolen, as long as no process is handed a record while it still has an older
release, or an older stamp of the same generation, to do.

The process that holds the mutation lock is the only one that writes, so what it has seen of the
record holds until its write. A deferred release looks at the process of the record only; that the
record is not newer than the release has to be an invariant, and a record that another process
installs may break it.
-/
namespace CodeGraph.Mcp.WriterLock

variable {s t : State} {p : Pid}

/-! ### Processes -/

namespace State

@[simp] theorem goto_process (s : State) (p q : Pid) (c : Control) : (s.goto p c).process q =
    if q = p then { s.process p with control := c } else s.process q := rfl

@[simp] theorem finish_process (s : State) (p q : Pid) : (s.finish p).process q =
    if q = p then { s.process p with control := .idle } else s.process q := rfl

@[simp] theorem cancelPendingReadiness_process (s : State) (p q : Pid) :
    (s.cancelPendingReadiness p).process q =
      if q = p then { s.process p with pendingReadiness := none } else s.process q := rfl

@[simp] theorem cancelPendingRelease_process (s : State) (p q : Pid) :
    (s.cancelPendingRelease p).process q =
      if q = p then { s.process p with pendingRelease := none } else s.process q := rfl

@[simp] theorem report_process (s : State) (p q : Pid) (value : Bool) :
    (s.report p value).process q =
      if q = p then { s.process p with reported := some value } else s.process q := rfl

@[simp] theorem install_process (s : State) (i : WriterLockInfo) :
    (s.install i).process = s.process := rfl

@[simp] theorem clear_process (s : State) : s.clear.process = s.process := rfl

end State

def Control.job : Control → Option Job
  | .idle => none
  | .looking job => some job
  | .waiting job => some job
  | .inspecting job => some job
  | .writing job _ => some job

def Control.locked : Control → Bool
  | .inspecting _ => true
  | .writing _ _ => true
  | _ => false

def Process.ReleaseAsked (proc : Process) (asked : Nat) : Prop :=
  proc.pendingRelease = some asked ∨ proc.control.job = some (.release asked)

def Process.ReadyAsked (proc : Process) (owned : WriterLockInfo) (asked : Nat) : Prop :=
  proc.pendingReadiness = some (owned, asked) ∨ proc.control.job = some (.ready owned asked)

def Fits (s : State) (p : Pid) : Job → Write → Prop
  | .acquire _ _ _, .create _ => True
  | .acquire _ _ _, .recheck _ => True
  | .acquire _ _ _, .fill => s.slot = some empty
  | .acquire _ _ _, .unlinkStale => ∀ raw, s.slot = some raw → s.stale (decode raw) = true
  | .ready owned _, .stamp i => s.slot = some (.info i) ∧ i.pid = p ∧ i.mode = owned.mode ∧
      i.startedAt = owned.startedAt
  | .update expected next, .replace n => next = some n ∧
      ∃ i, s.slot = some (.info i) ∧ expected.fits i = true
  | .update expected next, .unlinkMatched => next = none ∧
      ∃ i, s.slot = some (.info i) ∧ expected.fits i = true
  | .release _, .unlinkOwn => ∃ i, s.slot = some (.info i) ∧ i.pid = p
  | _, _ => False

/-- A record that names a process is not newer than the release, or the stamp of its generation, that
the process still has to do. -/
def Older (s : State) (p : Pid) : Prop :=
  ∀ i, s.slot = some (.info i) → i.pid = p →
    (∀ asked, (s.process p).ReleaseAsked asked → s.serial ≤ asked) ∧
      ∀ owned asked, (s.process p).ReadyAsked owned asked → i.mode = owned.mode →
        i.startedAt = owned.startedAt → s.serial ≤ asked

structure Inv (s : State) : Prop where
  counted : s.serial ≤ s.installed
  locked : ∀ p, s.running p = true → (s.process p).control.locked = true → s.mutation = some p
  fits : ∀ p job w, s.running p = true → (s.process p).control = .writing job w → Fits s p job w
  older : ∀ p, s.running p = true → Older s p

structure Local (s t : State) (p : Pid) : Prop where
  running : t.running = s.running
  others : ∀ q, q ≠ p → t.process q = s.process q
  mutation : t.mutation = s.mutation ∨ s.mutation = none ∧ t.mutation = some p ∨
    s.mutation = some p ∧ t.mutation = none
  slot : t.slot = s.slot ∧ t.serial = s.serial ∨ s.mutation = some p ∧
    ∀ q, q ≠ p → s.running q = true → Older t q

private theorem fits_congr (slot : t.slot = s.slot) (running : t.running = s.running) (job : Job)
    (w : Write) : Fits t p job w ↔ Fits s p job w := by
  have stale (i : Option WriterLockInfo) : t.stale i = s.stale i := by
    unfold State.stale
    rw [running]
  cases job <;> cases w <;> simp only [Fits, slot, stale]

private theorem Inv.of_local (inv : Inv s) (here : Local s t p) (counted : t.serial ≤ t.installed)
    (locked : (t.process p).control.locked = true → t.mutation = some p)
    (fits : ∀ job w, (t.process p).control = .writing job w → Fits t p job w)
    (older : s.running p = true → Older t p) : Inv t := by
  refine ⟨counted, fun q live at_ => ?_, fun q job w live at_ => ?_, fun q live => ?_⟩
  · by_cases same : q = p
    · subst same
      exact locked at_
    · rw [here.others q same] at at_
      rw [here.running] at live
      have owner := inv.locked q live at_
      rcases here.mutation with kept | ⟨free, -⟩ | ⟨mine, -⟩
      · exact kept.trans owner
      · rw [owner] at free
        cases free
      · exact absurd (Option.some.inj (owner.symm.trans mine)) same
  · by_cases same : q = p
    · subst same
      exact fits job w at_
    · rw [here.others q same] at at_
      rw [here.running] at live
      have owner := inv.locked q live (by rw [at_]; rfl)
      rcases here.slot with ⟨kept, -⟩ | ⟨mine, -⟩
      · exact (fits_congr kept here.running job w).mpr (inv.fits q job w live at_)
      · exact absurd (Option.some.inj (owner.symm.trans mine)) same
  · rw [here.running] at live
    by_cases same : q = p
    · subst same
      exact older live
    · rcases here.slot with ⟨kept, serial⟩ | ⟨-, others⟩
      · unfold Older
        rw [kept, serial, here.others q same]
        exact inv.older q live
      · exact others q same live

private theorem Older.of_undecodable (empty : ∀ i, s.slot ≠ some (.info i)) : Older s p :=
  fun i there => absurd there (empty i)

private theorem Inv.quiet (inv : Inv s) (slot : t.slot = s.slot) (serial : t.serial = s.serial)
    (installed : t.installed = s.installed) (running : t.running = s.running)
    (others : ∀ q, q ≠ p → t.process q = s.process q)
    (mutation : t.mutation = s.mutation ∨ s.mutation = none ∧ t.mutation = some p ∨
      s.mutation = some p ∧ t.mutation = none)
    (locked : (t.process p).control.locked = true → t.mutation = some p)
    (fits : ∀ job w, (t.process p).control = .writing job w → Fits s p job w)
    (release : ∀ asked, (t.process p).ReleaseAsked asked →
      (s.process p).ReleaseAsked asked ∨ asked = s.installed)
    (ready : ∀ owned asked, (t.process p).ReadyAsked owned asked →
      (s.process p).ReadyAsked owned asked ∨ asked = s.installed) : Inv t := by
  refine inv.of_local ⟨running, others, mutation, .inl ⟨slot, serial⟩⟩
    (by rw [serial, installed]; exact inv.counted) locked
    (fun job w at_ => (fits_congr slot running job w).mpr (fits job w at_)) (fun live i there named => ?_)
  rw [slot] at there
  rw [serial]
  obtain ⟨releases, stamps⟩ := inv.older p live i there named
  refine ⟨fun asked h => ?_, fun owned asked h mode started => ?_⟩
  · rcases release asked h with old | rfl
    · exact releases asked old
    · exact inv.counted
  · rcases ready owned asked h with old | rfl
    · exact stamps owned asked old mode started
    · exact inv.counted

/-! ### Steps without a write -/

/-- A process changes, and not by locking, nor by seeing or asking anything new. -/
private theorem setProcess_keeps (inv : Inv s) {f : Process → Process}
    (locked : (f (s.process p)).control.locked = true → s.mutation = some p)
    (fits : ∀ job w, (f (s.process p)).control = .writing job w → Fits s p job w)
    (release : ∀ asked, (f (s.process p)).ReleaseAsked asked →
      (s.process p).ReleaseAsked asked ∨ asked = s.installed)
    (ready : ∀ owned asked, (f (s.process p)).ReadyAsked owned asked →
      (s.process p).ReadyAsked owned asked ∨ asked = s.installed) : Inv (s.setProcess p f) := by
  have own : (s.setProcess p f).process p = f (s.process p) := if_pos rfl
  rw [← own] at locked fits release ready
  exact inv.quiet (p := p) rfl rfl rfl rfl (fun q other => if_neg other) (.inl rfl) locked fits release ready

theorem State.setProcess_setProcess (s : State) (p : Pid) (f g : Process → Process) :
    (s.setProcess p f).setProcess p g = s.setProcess p fun proc => g (f proc) := by
  simp only [State.setProcess, if_true, State.mk.injEq, true_and]
  funext q
  split <;> rfl

private theorem call_keeps (inv : Inv s) (job : Job) : Inv (s.call p job) := by
  cases job with
  | acquire info reuse preserve =>
    rw [State.call, State.goto]
    exact setProcess_keeps inv nofun (fun _ _ h => nomatch h) (fun _ h => .inl (h.imp_right nofun))
      fun _ _ h => .inl (h.imp_right nofun)
  | ready owned asked =>
    rw [State.call, State.goto]
    refine setProcess_keeps inv nofun (fun _ _ h => nomatch h) (fun _ h => .inl (h.imp_right nofun))
      fun owned asked h => ?_
    rcases h with pending | job
    · exact .inl (.inl pending)
    · cases job
      exact .inr rfl
  | update expected next =>
    rw [State.call, State.goto]
    exact setProcess_keeps inv nofun (fun _ _ h => nomatch h) (fun _ h => .inl (h.imp_right nofun))
      fun _ _ h => .inl (h.imp_right nofun)
  | release asked =>
    rw [State.call, State.cancelPendingReadiness, State.goto, State.setProcess_setProcess]
    refine setProcess_keeps inv nofun (fun _ _ h => nomatch h) (fun asked h => ?_) fun _ _ h => ?_
    · rcases h with pending | job
      · exact .inl (.inl pending)
      · cases job
        exact .inr rfl
    · rcases h with pending | job
      · cases pending
      · cases job

private theorem goto_keeps (inv : Inv s) {c : Control}
    (locked : c.locked = true → s.mutation = some p)
    (fits : ∀ job w, c = .writing job w → Fits s p job w)
    (job : ∀ j, c.job = some j → (s.process p).control.job = some j) : Inv (s.goto p c) :=
  setProcess_keeps inv locked fits (fun _ h => .inl (h.imp_right (job _)))
    fun _ _ h => .inl (h.imp_right (job _))

private theorem finish_keeps (inv : Inv s) (mine : s.mutation = some p) : Inv (s.finish p) := by
  refine inv.quiet (p := p) rfl rfl rfl rfl (fun q other => by simp [other])
    (.inr (.inr ⟨mine, rfl⟩)) (fun at_ => ?_) (fun j w at_ => ?_) (fun asked h => .inl ?_)
    (fun owned asked h => .inl ?_)
  · simp [Control.locked] at at_
  · simp at at_
  · exact .inl (by simpa [Process.ReleaseAsked, Control.job] using h)
  · exact .inl (by simpa [Process.ReadyAsked, Control.job] using h)

private theorem cancelPendingReadiness_keeps (inv : Inv s) (live : s.running p = true) :
    Inv (s.cancelPendingReadiness p) :=
  setProcess_keeps inv (inv.locked p live) (fun j w => inv.fits p j w live) (fun _ => .inl)
    fun _ _ h => .inl (h.imp_left nofun)

private theorem cancelPendingRelease_keeps (inv : Inv s) (live : s.running p = true) :
    Inv (s.cancelPendingRelease p) :=
  setProcess_keeps inv (inv.locked p live) (fun j w => inv.fits p j w live)
    (fun _ h => .inl (h.imp_left nofun)) fun _ _ => .inl

private theorem report_keeps (inv : Inv s) (live : s.running p = true) (value : Bool) :
    Inv (s.report p value) :=
  setProcess_keeps inv (inv.locked p live) (fun j w => inv.fits p j w live) (fun _ => .inl) fun _ _ => .inl

private theorem retryReadiness_keeps (inv : Inv s) (live : s.running p = true)
    {owned : WriterLockInfo} {asked : Nat}
    (way : (s.process p).control.job = some (.ready owned asked)) :
    Inv (s.retryReadiness p owned asked) := by
  refine setProcess_keeps inv (inv.locked p live) (fun j w => inv.fits p j w live) (fun _ => .inl)
    fun owned' asked' h => .inl ?_
  rcases h with pending | job
  · cases old : (s.process p).pendingReadiness with
    | none =>
      simp only [old, Option.getD_none, Option.some.injEq, Prod.mk.injEq] at pending
      obtain ⟨rfl, rfl⟩ := pending
      exact .inr way
    | some timer => exact .inl (by simpa [old] using pending)
  · exact .inr job

private theorem retryRelease_keeps (inv : Inv s) (live : s.running p = true) {asked : Nat}
    (way : (s.process p).control.job = some (.release asked)) : Inv (s.retryRelease p asked) := by
  refine setProcess_keeps inv (inv.locked p live) (fun j w => inv.fits p j w live) (fun asked' h => .inl ?_)
    fun _ _ => .inl
  rcases h with pending | job
  · cases old : (s.process p).pendingRelease with
    | none =>
      simp only [old, Option.getD_none, Option.some.injEq] at pending
      exact .inr (pending ▸ way)
    | some timer => exact .inl (by simpa [old] using pending)
  · exact .inr job

private theorem giveUp_keeps (inv : Inv s) (live : s.running p = true) {job : Job}
    (way : (s.process p).control = .waiting job) : Inv (s.giveUp p job) := by
  have job_ : (s.process p).control.job = some job := by
    rw [way]
    rfl
  cases job with
  | acquire info reuse preserve =>
    exact goto_keeps inv (fun h => nomatch h) (fun _ _ h => nomatch h) (fun _ h => nomatch h)
  | ready owned asked =>
    exact goto_keeps (retryReadiness_keeps inv live job_) (fun h => nomatch h)
      (fun _ _ h => nomatch h) (fun _ h => nomatch h)
  | update expected next =>
    exact goto_keeps (report_keeps inv live false) (fun h => nomatch h) (fun _ _ h => nomatch h)
      (fun _ h => nomatch h)
  | release asked =>
    exact goto_keeps (retryRelease_keeps inv live job_) (fun h => nomatch h)
      (fun _ _ h => nomatch h) (fun _ h => nomatch h)

private theorem inspect_keeps (inv : Inv s) (live : s.running p = true) {job : Job}
    (way : (s.process p).control = .inspecting job) : Inv (s.inspect p job) := by
  have mine : s.mutation = some p := inv.locked p live (by rw [way]; rfl)
  have job_ : (s.process p).control.job = some job := by
    rw [way]
    rfl
  -- The call goes on to a write that what it saw allows.
  have goes {u : State} (kept : Inv u) (same : u.mutation = s.mutation)
      (control : (u.process p).control = (s.process p).control) {w : Write}
      (fits : Fits u p job w) : Inv (u.goto p (.writing job w)) := by
    refine goto_keeps kept (fun _ => same.trans mine) (fun j w' h => ?_) (fun j h => ?_)
    · obtain ⟨rfl, rfl⟩ := Control.writing.inj h
      exact fits
    · rw [control, job_]
      exact h
  cases job with
  | acquire info reuse preserve =>
    simp only [State.inspect]
    split
    · exact goes inv rfl rfl trivial
    · exact finish_keeps inv mine
  | ready owned asked =>
    have kept := cancelPendingReadiness_keeps inv live
    simp only [State.inspect]
    split
    · exact finish_keeps kept mine
    · next i seen =>
      split
      · exact finish_keeps kept mine
      · next matching =>
        rw [not_or, not_or, Decidable.not_not, Decidable.not_not, Decidable.not_not] at matching
        refine goes kept rfl (by simp) ⟨?_, matching⟩
        obtain ⟨raw, there, decoded⟩ := Option.bind_eq_some_iff.mp seen
        cases raw with
        | info j =>
          cases decoded
          exact there
        | garbage n => cases decoded
  | update expected next =>
    simp only [State.inspect]
    split
    · exact finish_keeps (report_keeps inv live _) mine
    · exact finish_keeps (report_keeps inv live _) mine
    · next i there =>
      split
      · exact finish_keeps (report_keeps inv live _) mine
      · next fits =>
        have fits : expected.fits i = true := Decidable.not_not.mp fits
        split
        · exact goes inv rfl rfl ⟨rfl, i, there, fits⟩
        · exact goes inv rfl rfl ⟨rfl, i, there, fits⟩
        · split
          · exact goes inv rfl rfl ⟨rfl, i, there, fits⟩
          · exact finish_keeps (report_keeps inv live _) mine
  | release asked =>
    have kept := cancelPendingRelease_keeps inv live
    simp only [State.inspect]
    split
    · next i seen =>
      split
      · next own =>
        refine goes kept rfl (by simp) ⟨i, ?_, own⟩
        obtain ⟨raw, there, decoded⟩ := Option.bind_eq_some_iff.mp seen
        cases raw with
        | info j =>
          cases decoded
          exact there
        | garbage n => cases decoded
      · exact finish_keeps kept mine
    · exact finish_keeps kept mine

/-! ### Writes -/

def installs (hardLinks : Bool) (s : State) (p : Pid) : Option WriterLockInfo :=
  match (s.process p).control with
  | .writing (.acquire info _ _) (.create _) =>
    if s.slot = none ∧ hardLinks = true then some info else none
  | .writing (.acquire info _ _) .fill => some info
  | .writing (.update _ _) (.replace next) => some next
  | _ => none

def Process.releases (proc : Process) : Bool :=
  proc.pendingRelease.isSome ||
    match proc.control.job with
    | some (.release _) => true
    | _ => false

def Process.stamps (proc : Process) (i : WriterLockInfo) : Bool :=
  (match proc.pendingReadiness with
    | some (owned, _) => i.mode == owned.mode && i.startedAt == owned.startedAt
    | none => false) ||
    match proc.control.job with
    | some (.ready owned _) => i.mode == owned.mode && i.startedAt == owned.startedAt
    | _ => false

private theorem releases_of_asked {proc : Process} {asked : Nat} (h : proc.ReleaseAsked asked) :
    proc.releases = true := by
  rcases h with pending | job
  · simp [Process.releases, pending]
  · simp [Process.releases, job]

private theorem stamps_of_asked {proc : Process} {owned i : WriterLockInfo} {asked : Nat}
    (h : proc.ReadyAsked owned asked) (mode : i.mode = owned.mode)
    (started : i.startedAt = owned.startedAt) : proc.stamps i = true := by
  rcases h with pending | job
  · simp [Process.stamps, pending, mode, started]
  · simp [Process.stamps, job, mode, started]

def Undisturbed (hardLinks : Bool) (s : State) : Event → Prop
  | .advance p =>
    match installs hardLinks s p with
    | some next => next.pid ≠ p → s.running next.pid = true →
        (s.process next.pid).releases = false ∧ (s.process next.pid).stamps next = false
    | none => True
  | _ => True

private theorem erase_keeps (inv : Inv s) (mine : s.mutation = some p)
    (slot : ∀ i, t.slot ≠ some (.info i)) (serial : t.serial = s.serial)
    (installed : t.installed = s.installed) (running : t.running = s.running)
    (others : ∀ q, q ≠ p → t.process q = s.process q)
    (mutation : t.mutation = s.mutation ∨ t.mutation = none)
    (locked : (t.process p).control.locked = true → t.mutation = some p)
    (fits : ∀ job w, (t.process p).control = .writing job w → Fits t p job w) : Inv t := by
  refine inv.of_local ⟨running, others, ?_, .inr ⟨mine, fun q _ _ => Older.of_undecodable slot⟩⟩
    (by rw [serial, installed]; exact inv.counted) locked fits fun _ => Older.of_undecodable slot
  rcases mutation with kept | free
  · exact .inl kept
  · exact .inr (.inr ⟨mine, free⟩)

private theorem install_keeps (inv : Inv s) (mine : s.mutation = some p) {n : WriterLockInfo}
    (slot : t.slot = some (.info n)) (serial : t.serial = t.installed)
    (running : t.running = s.running) (others : ∀ q, q ≠ p → t.process q = s.process q)
    (free : t.mutation = none) (idle : (t.process p).control = .idle)
    (own : n.pid = p → (t.process p).pendingRelease = none ∧ (t.process p).pendingReadiness = none)
    (fine : n.pid ≠ p → s.running n.pid = true →
      (s.process n.pid).releases = false ∧ (s.process n.pid).stamps n = false) : Inv t := by
  refine inv.of_local ⟨running, others, .inr (.inr ⟨mine, free⟩), .inr ⟨mine, ?_⟩⟩
    (Nat.le_of_eq serial) (fun at_ => ?_) (fun job w at_ => ?_) (fun _ => ?_)
  · -- Another process that is named has nothing to do that the record could suffer from.
    intro q other live i there named
    cases Raw.info.inj (Option.some.inj (slot.symm.trans there))
    subst named
    obtain ⟨releases, stamps⟩ := fine other live
    rw [others _ other]
    refine ⟨fun asked h => ?_, fun owned asked h mode started => ?_⟩
    · rw [releases_of_asked h] at releases
      cases releases
    · rw [stamps_of_asked h mode started] at stamps
      cases stamps
  · rw [idle] at at_
    cases at_
  · rw [idle] at at_
    cases at_
  · intro i there named
    cases Raw.info.inj (Option.some.inj (slot.symm.trans there))
    obtain ⟨release, ready⟩ := own named
    refine ⟨fun asked h => ?_, fun owned asked h => ?_⟩
    · rcases h with pending | job
      · rw [release] at pending
        cases pending
      · rw [idle] at job
        cases job
    · rcases h with pending | job
      · rw [ready] at pending
        cases pending
      · rw [idle] at job
        cases job

private theorem stamp_keeps (inv : Inv s) (live : s.running p = true) (mine : s.mutation = some p)
    {i : WriterLockInfo} (there : s.slot = some (.info i)) :
    Inv ({ s with slot := some (.info { i with ready := some true }) }.finish p) := by
  have older (q : Pid) (fewer : ∀ asked,
      (({ s with slot := some (.info { i with ready := some true }) } : State).finish p).process q
        |>.ReleaseAsked asked → (s.process q).ReleaseAsked asked)
      (fewer' : ∀ owned asked,
        (({ s with slot := some (.info { i with ready := some true }) } : State).finish p).process q
          |>.ReadyAsked owned asked → (s.process q).ReadyAsked owned asked)
      (h : Older s q) :
      Older ({ s with slot := some (.info { i with ready := some true }) }.finish p) q := by
    intro j stamped named
    cases Raw.info.inj (Option.some.inj stamped)
    obtain ⟨releases, stamps⟩ := h i there named
    exact ⟨fun asked ask => releases asked (fewer asked ask),
      fun owned asked ask => stamps owned asked (fewer' owned asked ask)⟩
  refine inv.of_local ⟨rfl, fun q other => by simp [other], .inr (.inr ⟨mine, rfl⟩),
    .inr ⟨mine, fun q other running => ?_⟩⟩ inv.counted (fun at_ => ?_) (fun job w at_ => ?_)
    (fun _ => ?_)
  · exact older q (fun asked h => by simpa [other] using h)
      (fun owned asked h => by simpa [other] using h) (inv.older q running)
  · simp [Control.locked] at at_
  · simp at at_
  · exact older p (fun asked h => .inl (by simpa [Process.ReleaseAsked, Control.job] using h))
      (fun owned asked h => .inl (by simpa [Process.ReadyAsked, Control.job] using h))
      (inv.older p live)

private theorem taken_keeps (inv : Inv s) (live : s.running p = true) (mine : s.mutation = some p)
    {job : Job} (way : (s.process p).control.job = some job)
    (acquires : ∃ info reuse preserve, job = .acquire info reuse preserve) (reuse preserve : Bool)
    (raw : Raw) : Inv (s.taken p job reuse preserve raw) := by
  unfold State.taken
  split
  · exact finish_keeps (cancelPendingRelease_keeps inv live) mine
  · split
    · exact finish_keeps inv mine
    · split
      · refine goto_keeps inv (fun _ => mine) (fun j w h => ?_) (fun j h => way.trans h)
        obtain ⟨rfl, rfl⟩ := Control.writing.inj h
        obtain ⟨info, reuse, preserve, rfl⟩ := acquires
        trivial
      · exact finish_keeps inv mine

private theorem recheck_keeps (inv : Inv s) (mine : s.mutation = some p) {info : WriterLockInfo}
    {reuse preserve : Bool}
    (way : (s.process p).control.job = some (.acquire info reuse preserve)) (observed : Raw) :
    Inv (s.recheck p (.acquire info reuse preserve) preserve observed) := by
  have goes {w : Write} (fits : Fits s p (.acquire info reuse preserve) w) :
      Inv (s.goto p (.writing (.acquire info reuse preserve) w)) := by
    refine goto_keeps inv (fun _ => mine) (fun j w' h => ?_) (fun j h => way.trans h)
    obtain ⟨rfl, rfl⟩ := Control.writing.inj h
    exact fits
  unfold State.recheck
  split
  · exact goes trivial
  · next raw there =>
    split
    · exact finish_keeps inv mine
    · split
      · next stale =>
        refine goes fun other found => ?_
        cases Option.some.inj (there.symm.trans found)
        exact stale.2
      · exact goes trivial

private theorem acquireWrite_keeps (inv : Inv s) (live : s.running p = true) {hardLinks : Bool}
    {info : WriterLockInfo} {reuse preserve : Bool} {w : Write}
    (at_ : (s.process p).control = .writing (.acquire info reuse preserve) w)
    (fine : ∀ next, installs hardLinks s p = some next → next.pid ≠ p →
      s.running next.pid = true →
        (s.process next.pid).releases = false ∧ (s.process next.pid).stamps next = false) :
    Inv (s.acquireWrite p hardLinks info reuse preserve w) := by
  have mine : s.mutation = some p := inv.locked p live (by rw [at_]; rfl)
  have way : (s.process p).control.job = some (.acquire info reuse preserve) := by
    rw [at_]
    rfl
  have fits := inv.fits p _ w live at_
  -- Whoever acquires the record cancels its own timers.
  have installed (target : installs hardLinks s p = some info) :
      Inv ((s.install info).acquired p) :=
    install_keeps inv mine rfl rfl rfl (fun q other => by simp [State.acquired, other]) rfl
      (by simp [State.acquired]) (fun _ => by simp [State.acquired]) (fine info target)
  cases w with
  | create again =>
    simp only [State.acquireWrite]
    split
    · next free =>
      unfold State.create
      split
      · next links =>
        exact installed (by simp [installs, at_, free, links])
      · refine erase_keeps inv mine (fun i => by simp [State.goto, State.setProcess, empty]) rfl rfl
          rfl (fun q other => by simp [other]) (.inl rfl) (fun _ => mine) (fun job w h => ?_)
        simp only [State.goto_process, if_true] at h
        obtain ⟨rfl, rfl⟩ := Control.writing.inj h
        rfl
    · split
      · exact finish_keeps inv mine
      · exact taken_keeps inv live mine way ⟨info, reuse, preserve, rfl⟩ reuse preserve _
  | fill => exact installed (by simp [installs, at_])
  | recheck observed => exact recheck_keeps inv mine way observed
  | unlinkStale =>
    show Inv (s.clear.goto p (.writing (.acquire info reuse preserve) (.create true)))
    refine erase_keeps inv mine (fun i => by simp [State.goto, State.setProcess, State.clear]) rfl rfl
      rfl (fun q other => by simp [other]) (.inl rfl) (fun _ => mine) (fun job w h => ?_)
    simp only [State.goto_process, if_true] at h
    obtain ⟨rfl, rfl⟩ := Control.writing.inj h
    trivial
  | stamp i => exact fits.elim
  | replace next => exact fits.elim
  | unlinkMatched => exact fits.elim
  | unlinkOwn => exact fits.elim

theorem write_keeps (inv : Inv s) (live : s.running p = true) {hardLinks : Bool} {job : Job}
    {w : Write} (at_ : (s.process p).control = .writing job w)
    (fine : ∀ next, installs hardLinks s p = some next → next.pid ≠ p →
      s.running next.pid = true →
        (s.process next.pid).releases = false ∧ (s.process next.pid).stamps next = false) :
    Inv (s.write p hardLinks job w) := by
  have mine : s.mutation = some p := inv.locked p live (by rw [at_]; rfl)
  have fits := inv.fits p job w live at_
  cases job with
  | acquire info reuse preserve => exact acquireWrite_keeps inv live at_ fine
  | ready owned asked =>
    cases w with
    | stamp i => exact stamp_keeps inv live mine fits.1
    | _ => exact fits.elim
  | update expected next =>
    cases w with
    | replace n =>
      have target : installs hardLinks s p = some n := by simp [installs, at_]
      simp only [State.write]
      refine install_keeps inv mine ?_ ?_ ?_ (fun q other => ?_) rfl ?_ (fun named => ?_)
        (fine n target)
      · split <;> rfl
      · split <;> rfl
      · split <;> rfl
      · split <;> simp [other]
      · split <;> simp
      · simp [named]
    | unlinkMatched =>
      refine erase_keeps inv mine (fun i h => nomatch h) rfl rfl rfl
        (fun q other => by simp [State.write, other]) (.inr rfl) (fun h => ?_) (fun job w h => ?_)
      · simp [State.write, Control.locked] at h
      · simp [State.write] at h
    | _ => exact fits.elim
  | release asked =>
    cases w with
    | unlinkOwn =>
      refine erase_keeps inv mine (fun i h => nomatch h) rfl rfl rfl
        (fun q other => by simp [State.write, other]) (.inr rfl) (fun h => ?_) (fun job w h => ?_)
      · simp [State.write, Control.locked] at h
      · simp [State.write] at h
    | _ => exact fits.elim

private theorem writeFailed_keeps (inv : Inv s) (live : s.running p = true) {job : Job} {w : Write}
    (at_ : (s.process p).control = .writing job w) : Inv (s.writeFailed p job) := by
  have mine : s.mutation = some p := inv.locked p live (by rw [at_]; rfl)
  cases job with
  | acquire info reuse preserve => exact finish_keeps inv mine
  | ready owned asked =>
    exact finish_keeps (retryReadiness_keeps inv live (by rw [at_]; rfl)) mine
  | update expected next => exact finish_keeps (report_keeps inv live false) mine
  | release asked => exact finish_keeps inv mine

private theorem renameRetried_keeps (inv : Inv s) (live : s.running p = true) {job : Job} {w : Write}
    (at_ : (s.process p).control = .writing job w) : Inv (s.renameRetried p job) := by
  have mine : s.mutation = some p := inv.locked p live (by rw [at_]; rfl)
  cases job with
  | acquire info reuse preserve => exact finish_keeps inv mine
  | ready owned asked => exact finish_keeps inv mine
  | update expected next =>
    simp only [State.renameRetried]
    split
    · split
      · exact inv
      · exact finish_keeps (report_keeps inv live false) mine
    · exact finish_keeps (report_keeps inv live false) mine
  | release asked => exact finish_keeps inv mine

private theorem advance_keeps (inv : Inv s) (live : s.running p = true) {hardLinks : Bool}
    (fine : Undisturbed hardLinks s (.advance p))
    (taken : s.advance p hardLinks (s.process p).control = some t) : Inv t := by
  cases at_ : (s.process p).control with
  | idle =>
    rw [at_] at taken
    cases taken
  | looking job =>
    rw [at_] at taken
    simp only [State.advance] at taken
    split at taken
    · cases taken
      exact goto_keeps inv (fun h => nomatch h) (fun _ _ h => nomatch h)
        (fun j h => (congrArg Control.job at_).trans h)
    · cases taken
      exact goto_keeps (cancelPendingReadiness_keeps inv live) (fun h => nomatch h)
        (fun _ _ h => nomatch h) (fun _ h => nomatch h)
  | waiting job =>
    rw [at_] at taken
    obtain ⟨free, same⟩ := Option.ite_none_right_eq_some.mp taken
    cases same
    refine inv.quiet (p := p) rfl rfl rfl rfl (fun q other => by simp [other])
      (.inr (.inl ⟨free, rfl⟩)) (fun _ => rfl) (fun j w h => ?_) (fun asked h => .inl ?_)
      (fun owned asked h => .inl ?_)
    · simp at h
    · exact h.imp (by simp) (by simp [at_, Control.job])
    · exact h.imp (by simp) (by simp [at_, Control.job])
  | inspecting job =>
    rw [at_] at taken
    cases taken
    exact inspect_keeps inv live at_
  | writing job w =>
    rw [at_] at taken
    cases taken
    refine write_keeps inv live at_ fun next target other running => ?_
    simp only [Undisturbed, target] at fine
    exact fine other running

theorem death_keeps (inv : Inv s) (p : Pid) : Inv (s.death p) := by
  have live {q : Pid} (h : (s.death p).running q = true) : q ≠ p ∧ s.running q = true := by
    simp only [State.death] at h
    split at h
    · cases h
    · next other => exact ⟨other, h⟩
  refine ⟨inv.counted, fun q alive at_ => ?_, fun q job w alive at_ => ?_,
    fun q alive => inv.older q (live alive).2⟩
  · obtain ⟨other, alive⟩ := live alive
    have owner := inv.locked q alive at_
    simp only [State.death]
    rw [owner, if_neg]
    exact fun same => other (Option.some.inj same)
  · have seen := inv.fits q job w (live alive).2 at_
    cases job <;> cases w <;> try exact seen
    -- What was stale is stale after a death.
    intro raw there
    have stale := seen raw there
    unfold State.stale at stale ⊢
    split
    · rfl
    · next i decoded =>
      rw [decoded] at stale
      simp only [State.death, Bool.or_eq_true, decide_eq_true_eq, Bool.not_eq_true'] at stale ⊢
      refine stale.imp_right fun dead => ?_
      split
      · rfl
      · exact dead

theorem start_inv (slot : Option Raw) (running : Pid → Bool) : Inv (start slot running) := by
  refine ⟨Nat.le_refl 0, fun p _ at_ => ?_, fun p job w _ at_ => ?_, fun p _ i _ _ => ?_⟩
  · cases at_
  · cases at_
  · exact ⟨fun asked _ => Nat.zero_le asked, fun _ asked _ _ _ => Nat.zero_le asked⟩

private inductive Moves (hardLinks : Bool) (s : State) : Event → State → Prop
  | begun (e : Event) (p : Pid) (job : Job) : Moves hardLinks s e (s.call p job)
  | advanced (p : Pid) {t : State} : s.running p = true →
    s.advance p hardLinks (s.process p).control = some t → Moves hardLinks s (.advance p) t
  | gaveUp (p : Pid) (job : Job) : s.running p = true → (s.process p).control = .waiting job →
    Moves hardLinks s (.giveUp p) (s.giveUp p job)
  | failed (p : Pid) (job : Job) (w : Write) : s.running p = true →
    (s.process p).control = .writing job w → Moves hardLinks s (.writeFailed p) (s.writeFailed p job)
  | retried (p : Pid) (job : Job) (w : Write) : s.running p = true →
    (s.process p).control = .writing job w → Moves hardLinks s (.renameRetried p) (s.renameRetried p job)
  | released (p : Pid) (asked : Nat) : (s.process p).pendingRelease = some asked →
    Moves hardLinks s (.releaseTimer p) ((s.cancelPendingRelease p).goto p (.waiting (.release asked)))
  | stamped (p : Pid) (owned : WriterLockInfo) (asked : Nat) :
    (s.process p).pendingReadiness = some (owned, asked) → Moves hardLinks s (.readinessTimer p)
      ((s.cancelPendingReadiness p).goto p (.looking (.ready owned asked)))
  | died (p : Pid) : Moves hardLinks s (.death p) (s.death p)

private theorem step_moves {hardLinks : Bool} {e : Event} (taken : s.step hardLinks e = some t) :
    Moves hardLinks s e t := by
  have begun {p : Pid} {job : Job} (h : s.begin p job = some t) : Moves hardLinks s e t := by
    obtain ⟨-, ⟨⟩⟩ := Option.ite_none_right_eq_some.mp h
    exact .begun e p job
  cases e with
  | tryAcquireWriterLock p mode now preserve => exact begun taken
  | reserveWriterLock p holder uuid now => exact begun (Option.ite_none_right_eq_some.mp taken).2
  | markWriterReady p owned => exact begun taken
  | updateWriterLock p expected next => exact begun taken
  | releaseWriterLock p => exact begun taken
  | advance p =>
    obtain ⟨live, taken⟩ := Option.ite_none_right_eq_some.mp taken
    exact .advanced p live taken
  | giveUp p =>
    simp only [State.step] at taken
    split at taken
    · next job at_ =>
      obtain ⟨⟨live, -⟩, ⟨⟩⟩ := Option.ite_none_right_eq_some.mp taken
      exact .gaveUp p job live at_
    · cases taken
  | writeFailed p =>
    simp only [State.step] at taken
    split at taken
    · next job w at_ =>
      obtain ⟨live, ⟨⟩⟩ := Option.ite_none_right_eq_some.mp taken
      exact .failed p job w live at_
    · cases taken
  | renameRetried p =>
    simp only [State.step] at taken
    split at taken
    · next job w at_ =>
      obtain ⟨live, ⟨⟩⟩ := Option.ite_none_right_eq_some.mp taken
      exact .retried p job _ live at_
    · cases taken
  | releaseTimer p =>
    simp only [State.step] at taken
    split at taken
    · next asked armed =>
      obtain ⟨-, ⟨⟩⟩ := Option.ite_none_right_eq_some.mp taken
      exact .released p asked armed
    · cases taken
  | readinessTimer p =>
    simp only [State.step] at taken
    split at taken
    · next owned asked armed =>
      obtain ⟨-, ⟨⟩⟩ := Option.ite_none_right_eq_some.mp taken
      exact .stamped p owned asked armed
    · cases taken
  | death p =>
    cases taken
    exact .died p

theorem step_keeps (inv : Inv s) {hardLinks : Bool} {e : Event} (fine : Undisturbed hardLinks s e)
    (taken : s.step hardLinks e = some t) : Inv t := by
  cases step_moves taken with
  | begun _ p job => exact call_keeps inv job
  | advanced p live taken => exact advance_keeps inv live fine taken
  | gaveUp p job live at_ => exact giveUp_keeps inv live at_
  | failed p job w live at_ => exact writeFailed_keeps inv live at_
  | retried p job w live at_ => exact renameRetried_keeps inv live at_
  | released p asked armed =>
    rw [State.cancelPendingRelease, State.goto, State.setProcess_setProcess]
    refine setProcess_keeps inv nofun (fun _ _ h => nomatch h) (fun asked h => ?_)
      fun _ _ h => .inl (h.imp_right nofun)
    rcases h with pending | job
    · cases pending
    · cases job
      exact .inl (.inl armed)
  | stamped p owned asked armed =>
    rw [State.cancelPendingReadiness, State.goto, State.setProcess_setProcess]
    refine setProcess_keeps inv nofun (fun _ _ h => nomatch h) (fun _ h => .inl (h.imp_right nofun))
      fun owned asked h => ?_
    rcases h with pending | job
    · cases pending
    · cases job
      exact .inl (.inl armed)
  | died p => exact death_keeps inv p

/-! ### The contract -/

abbrev Reachable (hardLinks : Bool) (slot : Option Raw) (running : Pid → Bool) : State → Prop :=
  Transitions.ReachableWhen (Undisturbed hardLinks) (start slot running) (State.step hardLinks)

/-- A write of the process `p` that may change the record `i` of a running process. -/
inductive Permitted (i : WriterLockInfo) (p : Pid) : Job → Write → Option Raw → Prop where
  | release (asked : Nat) : i.pid = p → Permitted i p (.release asked) .unlinkOwn none
  | stamp (owned : WriterLockInfo) (asked : Nat) : i.pid = p → i.mode = owned.mode →
    i.startedAt = owned.startedAt →
    Permitted i p (.ready owned asked) (.stamp i) (some (.info { i with ready := some true }))
  | update (expected : Expected) (next : Option WriterLockInfo) (w : Write) :
    expected.fits i = true → Permitted i p (.update expected next) w (next.map .info)

structure Contract (hardLinks : Bool) (s : State) : Prop where
  /-- Only the write of a call changes the slot, and an update that writes reports it. -/
  written : ∀ e t, s.step hardLinks e = some t → t.slot = s.slot ∨
    ∃ p job w, e = .advance p ∧ (s.process p).control = .writing job w ∧
      ∀ expected next, job = .update expected next → (t.process p).reported = some true
  owned : ∀ e t, s.step hardLinks e = some t → ∀ i, s.slot = some (.info i) → 0 < i.pid →
    s.running i.pid = true → t.slot = s.slot ∨
      ∃ p job w, e = .advance p ∧ (s.process p).control = .writing job w ∧
        Permitted i p job w t.slot
  /-- The record that an update replaces is there until the step that puts the next one there. -/
  replaced : ∀ p expected next n, s.running p = true →
    (s.process p).control = .writing (.update expected next) (.replace n) →
      next = some n ∧ (∃ i, s.slot = some (.info i) ∧ expected.fits i = true) ∧
        ∀ e t, s.step hardLinks e = some t →
          t.slot = s.slot ∨ e = .advance p ∧ t.slot = some (.info n)
  /-- The record that a release or a stamp is about to change is not newer than the call. -/
  older : ∀ p job w, s.running p = true → (s.process p).control = .writing job w → ∀ asked,
    (job = .release asked ∨ ∃ owned, job = .ready owned asked) → s.serial ≤ asked

namespace State

private theorem call_slot (s : State) (p : Pid) (job : Job) : (s.call p job).slot = s.slot := by
  cases job <;> rfl

private theorem giveUp_slot (s : State) (p : Pid) (job : Job) : (s.giveUp p job).slot = s.slot := by
  cases job <;> rfl

private theorem writeFailed_slot (s : State) (p : Pid) (job : Job) :
    (s.writeFailed p job).slot = s.slot := by
  cases job <;> rfl

private theorem renameRetried_slot (s : State) (p : Pid) (job : Job) :
    (s.renameRetried p job).slot = s.slot := by
  cases job with
  | update expected next =>
    simp only [renameRetried]
    split
    · split <;> rfl
    · rfl
  | _ => rfl

private theorem inspect_slot (s : State) (p : Pid) (job : Job) : (s.inspect p job).slot = s.slot := by
  cases job with
  | acquire info reuse preserve =>
    simp only [inspect]
    split <;> rfl
  | ready owned asked =>
    simp only [inspect]
    split
    · rfl
    · split <;> rfl
  | update expected next =>
    simp only [inspect]
    split
    · rfl
    · rfl
    · split
      · rfl
      · split
        · rfl
        · rfl
        · split <;> rfl
  | release asked =>
    simp only [inspect]
    split
    · split <;> rfl
    · rfl

theorem step_slot {hardLinks : Bool} {e : Event} (taken : s.step hardLinks e = some t) :
    t.slot = s.slot ∨ ∃ p job w, e = .advance p ∧ s.running p = true ∧
      (s.process p).control = .writing job w ∧ t = s.write p hardLinks job w := by
  cases step_moves taken with
  | begun _ p job => exact .inl (call_slot s p job)
  | advanced p live taken =>
    cases at_ : (s.process p).control with
    | idle =>
      rw [at_] at taken
      cases taken
    | looking job =>
      rw [at_] at taken
      simp only [State.advance] at taken
      split at taken <;> cases taken <;> exact .inl rfl
    | waiting job =>
      rw [at_] at taken
      obtain ⟨-, ⟨⟩⟩ := Option.ite_none_right_eq_some.mp taken
      exact .inl rfl
    | inspecting job =>
      rw [at_] at taken
      cases taken
      exact .inl (inspect_slot s p job)
    | writing job w =>
      rw [at_] at taken
      cases taken
      exact .inr ⟨p, job, w, rfl, live, at_, rfl⟩
  | gaveUp p job => exact .inl (giveUp_slot s p job)
  | failed p job => exact .inl (writeFailed_slot s p job)
  | retried p job => exact .inl (renameRetried_slot s p job)
  | released | stamped | died => exact .inl rfl

end State

private theorem acquireWrite_slot (inv : Inv s) (live : s.running p = true) {hardLinks : Bool}
    {info i : WriterLockInfo} {reuse preserve : Bool} {w : Write}
    (at_ : (s.process p).control = .writing (.acquire info reuse preserve) w)
    (there : s.slot = some (.info i)) (named : 0 < i.pid) (running : s.running i.pid = true) :
    (s.acquireWrite p hardLinks info reuse preserve w).slot = s.slot := by
  have fits := inv.fits p _ w live at_
  cases w with
  | create again =>
    simp only [State.acquireWrite, there]
    split
    · exact there
    · unfold State.taken
      split
      · exact there
      · split
        · exact there
        · split <;> exact there
  | fill =>
    have free : s.slot = some empty := fits
    rw [there] at free
    cases free
  | recheck observed =>
    simp only [State.acquireWrite, State.recheck, there]
    split
    · exact there
    · split <;> exact there
  | unlinkStale =>
    have stale := fits _ there
    simp only [decode, State.stale, running, Bool.not_true, Bool.or_false, decide_eq_true_eq] at stale
    exact absurd named (Int.not_lt.mpr stale)
  | stamp j => exact fits.elim
  | replace next => exact fits.elim
  | unlinkMatched => exact fits.elim
  | unlinkOwn => exact fits.elim

private theorem write_slot (inv : Inv s) (live : s.running p = true) {hardLinks : Bool} {job : Job}
    {w : Write} (at_ : (s.process p).control = .writing job w) {i : WriterLockInfo}
    (there : s.slot = some (.info i)) (named : 0 < i.pid) (running : s.running i.pid = true) :
    (s.write p hardLinks job w).slot = s.slot ∨
      Permitted i p job w (s.write p hardLinks job w).slot := by
  have fits := inv.fits p job w live at_
  cases job with
  | acquire info reuse preserve =>
    exact .inl (acquireWrite_slot inv live at_ there named running)
  | ready owned asked =>
    cases w with
    | stamp j =>
      obtain ⟨slot, own, mode, started⟩ := fits
      cases Raw.info.inj (Option.some.inj (there.symm.trans slot))
      exact .inr (.stamp owned asked own mode started)
    | _ => exact fits.elim
  | update expected next =>
    cases w with
    | replace n =>
      obtain ⟨rfl, j, slot, fit⟩ := fits
      cases Raw.info.inj (Option.some.inj (there.symm.trans slot))
      have installed : (s.write p hardLinks (.update expected (some n)) (.replace n)).slot =
          some (.info n) := by
        simp only [State.write]
        split <;> rfl
      rw [installed]
      exact .inr (.update expected (some n) _ fit)
    | unlinkMatched =>
      obtain ⟨rfl, j, slot, fit⟩ := fits
      cases Raw.info.inj (Option.some.inj (there.symm.trans slot))
      exact .inr (.update expected none _ fit)
    | _ => exact fits.elim
  | release asked =>
    cases w with
    | unlinkOwn =>
      obtain ⟨j, slot, own⟩ := fits
      cases Raw.info.inj (Option.some.inj (there.symm.trans slot))
      exact .inr (.release asked own)
    | _ => exact fits.elim

/-- Records are kept in every run in which nobody is handed a record while it has an older release, or
an older stamp of the same generation, to do. -/
theorem writer_lock_contract {hardLinks : Bool} {slot : Option Raw} {running : Pid → Bool}
    (reached : Reachable hardLinks slot running s) : Contract hardLinks s := by
  have inv : Inv s :=
    reached.invariant (start_inv slot running) fun _ _ _ inv fine taken => step_keeps inv fine taken
  refine ⟨fun e t taken => ?_, fun e t taken i there named alive => ?_,
    fun p expected next n live at_ => ?_, fun p job w live at_ asked ask => ?_⟩
  · rcases State.step_slot taken with kept | ⟨p, job, w, rfl, live, at_, rfl⟩
    · exact .inl kept
    · refine .inr ⟨p, job, w, rfl, at_, fun expected next same => ?_⟩
      subst same
      have fits := inv.fits p _ w live at_
      cases w with
      | replace n => simp [State.write]
      | unlinkMatched => simp [State.write]
      | _ => exact fits.elim
  · rcases State.step_slot taken with kept | ⟨p, job, w, rfl, live, at_, rfl⟩
    · exact .inl kept
    · exact (write_slot inv live at_ there named alive).imp_right fun permitted =>
        ⟨p, job, w, rfl, at_, permitted⟩
  · obtain ⟨target, seen⟩ := inv.fits p _ _ live at_
    refine ⟨target, seen, fun e t taken => ?_⟩
    rcases State.step_slot taken with kept | ⟨q, job, w, rfl, running, way, rfl⟩
    · exact .inl kept
    · -- The writer holds the mutation lock, so it is this process.
      have mine := inv.locked p live (by rw [at_]; rfl)
      cases Option.some.inj (mine.symm.trans (inv.locked q running (by rw [way]; rfl)))
      obtain ⟨rfl, rfl⟩ := Control.writing.inj (at_.symm.trans way)
      refine .inr ⟨rfl, ?_⟩
      simp only [State.write]
      split <;> rfl
  · have fits := inv.fits p job w live at_
    rcases ask with rfl | ⟨owned, rfl⟩
    · cases w with
      | unlinkOwn =>
        obtain ⟨i, there, own⟩ := fits
        exact (inv.older p live i there own).1 asked (.inr (by rw [at_]; rfl))
      | _ => exact fits.elim
    · cases w with
      | stamp i =>
        obtain ⟨there, own, mode, started⟩ := fits
        exact (inv.older p live i there own).2 owned asked (.inr (by rw [at_]; rfl)) mode started
      | _ => exact fits.elim

instance (hardLinks : Bool) (s : State) (e : Event) : Decidable (Undisturbed hardLinks s e) :=
  match e with
  | .advance p =>
    match target : installs hardLinks s p with
    | some next =>
      decidable_of_iff (next.pid ≠ p → s.running next.pid = true →
          (s.process next.pid).releases = false ∧ (s.process next.pid).stamps next = false) (by
        simp only [Undisturbed, target])
    | none => .isTrue (by simp only [Undisturbed, target])
  | .tryAcquireWriterLock _ _ _ _ => .isTrue trivial
  | .reserveWriterLock _ _ _ _ => .isTrue trivial
  | .markWriterReady _ _ => .isTrue trivial
  | .updateWriterLock _ _ _ => .isTrue trivial
  | .releaseWriterLock _ => .isTrue trivial
  | .giveUp _ => .isTrue trivial
  | .writeFailed _ => .isTrue trivial
  | .renameRetried _ => .isTrue trivial
  | .releaseTimer _ => .isTrue trivial
  | .readinessTimer _ => .isTrue trivial
  | .death _ => .isTrue trivial

/-- Process `1` acquires the record, and hands it to process `2`. -/
def handOver : List Event :=
  .tryAcquireWriterLock 1 "daemon" 5 false :: List.replicate 3 (.advance 1) ++
  .updateWriterLock 1 (.pid 1) (some ⟨2, "direct", 6, some true⟩) :: List.replicate 3 (.advance 1)

theorem writer_lock_contract_hand_over : ∃ s,
    Transitions.run (Transitions.guarded (Undisturbed true) (State.step true))
        (start none fun p => p == 1 || p == 2) handOver = some s ∧
      s.slot = some (.info ⟨2, "direct", 6, some true⟩) ∧
      (s.process 1).reported = some true ∧ Contract true s := by
  have seen : (Transitions.run (Transitions.guarded (Undisturbed true) (State.step true))
      (start none fun p => p == 1 || p == 2) handOver).map
        (fun s => (s.slot, (s.process 1).reported)) =
          some (some (.info ⟨2, "direct", 6, some true⟩), some true) := by decide +kernel
  obtain ⟨s, done, view⟩ := Option.map_eq_some_iff.mp seen
  obtain ⟨record, reported⟩ : _ ∧ _ := by simpa only [Prod.mk.injEq] using view
  exact ⟨s, done, record, reported,
    writer_lock_contract (Transitions.run_reachableWhen handOver .start done)⟩

/-- Process `2` hands its record to process `1`, which it has found without one, while a release of
process `1` is pending from an earlier generation. -/
def handBack : List Event :=
  .tryAcquireWriterLock 1 "daemon" 5 false :: List.replicate 3 (.advance 1) ++
  [.updateWriterLock 2 (.pid 1) (some ⟨2, "direct", 6, some true⟩), .advance 2, .releaseWriterLock 1,
    .giveUp 1] ++
  List.replicate 2 (.advance 2) ++
  .updateWriterLock 2 (.pid 2) (some ⟨1, "daemon", 5, some true⟩) :: List.replicate 3 (.advance 2) ++
  .releaseTimer 1 :: List.replicate 2 (.advance 1)

/-- The pending release unlinks the record that was handed over after it. -/
theorem writer_record_released_late : ∃ s,
    Transitions.run (State.step true) (start none fun p => p == 1 || p == 2) handBack = some s ∧
      s.slot = some (.info ⟨1, "daemon", 5, some true⟩) ∧
      (s.step true (.advance 1)).map State.slot = some none ∧
      ¬ ∀ p job w, s.running p = true → (s.process p).control = .writing job w → ∀ asked,
        (job = .release asked ∨ ∃ owned, job = .ready owned asked) → s.serial ≤ asked := by
  have seen : (Transitions.run (State.step true) (start none fun p => p == 1 || p == 2)
      handBack).map (fun s => (s.running 1, (s.process 1).control, s.serial, s.slot)) =
        some (true, .writing (.release 1) .unlinkOwn, 3, some (.info ⟨1, "daemon", 5, some true⟩)) := by
    decide +kernel
  obtain ⟨s, done, view⟩ := Option.map_eq_some_iff.mp seen
  obtain ⟨live, control, serial, slot⟩ : _ ∧ _ ∧ _ ∧ _ := by simpa only [Prod.mk.injEq] using view
  refine ⟨s, done, slot, ?_, fun older => ?_⟩
  · simp only [State.step, live, if_true, control]
    rfl
  · have early := older 1 _ _ live control 1 (.inl rfl)
    rw [serial] at early
    exact absurd early (by decide)

end CodeGraph.Mcp.WriterLock
