import CodeGraph.Db.WalValve

/-!
# The WAL valve over its runs

Everywhere between two tasks the connection runs at most one checkpoint, and a pause waits for it.
-/
namespace CodeGraph.Db.WalValve

open Transitions State

variable {ε : Type} {caps : Caps} {s t : State ε} {e : Event ε} {sizes : Sizes}
  {report : Option (Report ε)} {passes : List (Outcome ε)}

/-- The pass `res` covered the whole WAL. -/
def Outcome.Full (outcome : Outcome ε) : Prop :=
  ∃ res : CheckpointResult, outcome = .fulfilled (some res) ∧ res.Complete

def LastFull (passes : List (Outcome ε)) : Prop := ∃ last ∈ passes.getLast?, last.Full

def Held (writer : Writer) : Prop := writer = .parked ∨ writer = .folding

inductive Steady : State ε → Prop where
  /-- No checkpoint runs. -/
  | quiet {base giveUps next : Nat} : Steady
    { start with sizeAtLastFullBackfill := base, consecutiveGiveUps := giveUps, nextId := next }
  /-- The timer's pass runs, and `foldNow` may drain it. -/
  | fired {base giveUps next id : Nat} {writer : Writer}
    (free : writer = .idle ∨ writer = .drainingInflight id) : Steady
    { inflight := some id, pause := false, sizeAtLastFullBackfill := base,
      consecutiveGiveUps := giveUps, foldsIn := none, checkpoints := [⟨id, .fire⟩],
      nextId := next, writer }
  /-- A pause waits for the pass that the timer fired before it. -/
  | stale {base giveUps next id : Nat} {writer : Writer} (held : Held writer) : Steady
    { inflight := some id, pause := true, sizeAtLastFullBackfill := base,
      consecutiveGiveUps := giveUps, foldsIn := some (id, 0, []), checkpoints := [⟨id, .fire⟩],
      nextId := next, writer }
  /-- A pause runs its next pass. -/
  | passing {base giveUps next id : Nat} {writer : Writer} {passes : List (Outcome ε)}
    (held : Held writer) (room : passes.length < MAX_PAUSED_BACKFILL_PASSES) : Steady
    { inflight := none, pause := true, sizeAtLastFullBackfill := base,
      consecutiveGiveUps := giveUps, foldsIn := none,
      checkpoints := [⟨id, .passive passes.length passes⟩], nextId := next, writer }
  /-- A pause truncates, after a pass that covered everything. -/
  | truncating {base giveUps next id : Nat} {writer : Writer} {passes : List (Outcome ε)}
    (held : Held writer) (bound : passes.length ≤ MAX_PAUSED_BACKFILL_PASSES)
    (full : LastFull passes) : Steady
    { inflight := none, pause := true, sizeAtLastFullBackfill := base,
      consecutiveGiveUps := giveUps, foldsIn := none, checkpoints := [⟨id, .truncate passes⟩],
      nextId := next, writer }

theorem room_nil : ([] : List (Outcome ε)).length < MAX_PAUSED_BACKFILL_PASSES :=
  Nat.zero_lt_succ 19

def remaining (s : State ε) : Nat :=
  match s.checkpoints.map Checkpoint.continuation with
  | .fire :: _ => MAX_PAUSED_BACKFILL_PASSES + 2
  | .passive i _ :: _ => MAX_PAUSED_BACKFILL_PASSES - i + 1
  | .truncate _ :: _ => 1
  | [] => 0

/-- What a writer may be told of `backpressure` in the state `t`, by a task that read `sizes`. -/
def Justified (caps : Caps) (e : Event ε) (t : State ε) (report : Report ε) : Prop :=
  match report.answer with
  | .null => ¬ t.OverCap caps e.sizes
  | .settled (.ok ()) => LastFull report.passes ∨ ¬ t.OverCap caps e.sizes
  | .settled (.error (.abort _)) => ¬ LastFull report.passes ∧ t.OverCap caps e.sizes
  | .settled (.error (.checkpoint error)) => ∃ id, e = .settle id (.rejected error) e.sizes

/-! ### A pause that waits -/

def callOf : Writer → Call
  | .parked => .backpressure
  | _ => .foldNow

theorem release_held {writer : Writer} (held : Held writer) (is : s.writer = writer)
    (verdict : Except (Failure ε) Unit) :
    s.release passes verdict sizes =
      ({ s with pause := false, writer := .idle },
        some ⟨callOf writer, .settled verdict, passes⟩) := by
  rcases held with rfl | rfl
  · simp only [release, is, callOf]
  · simp only [release, is, callOf]

/-- What a task makes of a pause: it waits for fewer checkpoints, or answers its writer. -/
inductive Progress (caps : Caps) (e : Event ε) (s t : State ε) : Option (Report ε) → Prop where
  | waits (steady : Steady t) (paused : t.pause = true) (same : t.writer = s.writer)
    (fewer : remaining t < remaining s) : Progress caps e s t none
  | answers {answer : Answer ε} {passes : List (Outcome ε)} (steady : Steady t)
    (cleared : t.pause = false) (free : t.writer = .idle)
    (bound : passes.length ≤ MAX_PAUSED_BACKFILL_PASSES)
    (justified : Justified caps e t ⟨callOf s.writer, answer, passes⟩) :
    Progress caps e s t (some ⟨callOf s.writer, answer, passes⟩)

theorem Full.lastFull {outcome : Outcome ε} (full : outcome.Full) (passes : List (Outcome ε)) :
    LastFull (passes ++ [outcome]) :=
  ⟨outcome, List.getLast?_concat, full⟩

theorem lastFull_concat {outcome : Outcome ε} :
    LastFull (passes ++ [outcome]) ↔ outcome.Full := by
  simp [LastFull]

theorem settle_only {own id : Nat} {continuation : Continuation ε} {outcome : Outcome ε}
    (only : s.checkpoints = [⟨own, continuation⟩])
    (taken : s.settle caps id outcome sizes = some (t, report)) :
    id = own ∧ { s with checkpoints := [] }.resume caps own continuation outcome sizes =
      (t, report) := by
  obtain ⟨checkpoint, found, taken⟩ := Option.map_eq_some_iff.mp taken
  rw [only] at found taken
  have same := List.mem_singleton.mp (List.mem_of_find?_eq_some found)
  have named := List.find?_some found
  subst same
  obtain rfl : own = id := of_decide_eq_true named
  refine ⟨rfl, ?_⟩
  simpa using taken

theorem Held.not_draining {writer : Writer} (held : Held writer) (id : Nat) :
    writer ≠ .drainingInflight id := by
  rcases held with rfl | rfl <;> nofun

theorem afterFire_eq (s : State ε) (id : Nat) (outcome : Outcome ε) (sizes : Sizes) :
    ∃ base, s.afterFire id outcome sizes =
      { s with sizeAtLastFullBackfill := base }.afterFire id (.fulfilled none) sizes := by
  cases outcome with
  | rejected error => exact ⟨s.sizeAtLastFullBackfill, rfl⟩
  | fulfilled res =>
    cases res with
    | none => exact ⟨s.sizeAtLastFullBackfill, rfl⟩
    | some res =>
      by_cases full : res.Complete
      · refine ⟨sizes.wal, ?_⟩
        simp only [afterFire, if_pos full]
      · refine ⟨s.sizeAtLastFullBackfill, ?_⟩
        simp only [afterFire, if_neg full]

theorem justified_of_caps {id : Nat} {outcome : Outcome ε} {call : Call}
    {error : WalValveAbortError} (partly : ¬LastFull passes)
    (same : t.sizeAtLastFullBackfill = s.sizeAtLastFullBackfill) :
    Justified caps (.settle id outcome sizes) t
      ⟨call, .settled (if s.OverCap caps sizes then .error (.abort error) else .ok ()),
        passes⟩ := by
  have beyond : t.OverCap caps sizes ↔ s.OverCap caps sizes := by
    rw [OverCap, OverCap, growthBytes, growthBytes, same]
  by_cases past : s.OverCap caps sizes
  · rw [if_pos past]
    exact ⟨partly, beyond.mpr past⟩
  · rw [if_neg past]
    exact Or.inr fun h => past (beyond.mp h)

theorem passive_progress {own : Nat} {outcome : Outcome ε} (held : Held s.writer)
    (room : passes.length < MAX_PAUSED_BACKFILL_PASSES) (paused : s.pause = true)
    (alone : s.inflight = none ∧ s.foldsIn = none)
    (only : s.checkpoints = [⟨own, .passive passes.length passes⟩])
    (taken : { s with checkpoints := [] }.afterPassive caps passes.length passes outcome sizes =
      (t, report)) :
    Progress caps (.settle own outcome sizes) s t report := by
  obtain ⟨inflight, pause, base, giveUps, foldsIn, checkpoints, nextId, writer⟩ := s
  obtain ⟨rfl, rfl⟩ := alone
  subst paused only
  have held : Held writer := held
  have bound : (passes ++ [outcome]).length ≤ MAX_PAUSED_BACKFILL_PASSES := by
    rw [List.length_append]
    exact room
  cases outcome with
  | rejected error =>
    simp only [afterPassive, release_held held] at taken
    cases taken
    exact .answers .quiet rfl rfl bound ⟨own, rfl⟩
  | fulfilled res =>
    cases res with
    | none =>
      have partly : ¬LastFull (passes ++ [(.fulfilled none : Outcome ε)]) := by
        rw [lastFull_concat]
        nofun
      simp only [afterPassive, unavailable, release_held held] at taken
      cases taken
      exact .answers .quiet rfl rfl bound (justified_of_caps partly rfl)
    | some res =>
      simp only [afterPassive] at taken
      split at taken
      next complete =>
        cases taken
        have full := Full.lastFull ⟨res, rfl, complete⟩ passes
        exact .waits (.truncating held bound full) rfl rfl (by simp [remaining, ask]; omega)
      next incomplete =>
        have partly : ¬LastFull (passes ++ [(.fulfilled (some res) : Outcome ε)]) := by
          rw [lastFull_concat]
          rintro ⟨_, same, complete⟩
          cases same
          exact incomplete complete
        split at taken
        next more =>
          have count : passes.length + 1 = (passes ++ [Outcome.fulfilled (some res)]).length := by
            rw [List.length_append, List.length_singleton]
          rw [count] at taken more
          cases taken
          exact .waits (.passing held more) rfl rfl (by simp [remaining, iteration, ask]; omega)
        next last =>
          simp only [giveUp, release_held held] at taken
          cases taken
          exact .answers .quiet rfl rfl bound (justified_of_caps partly rfl)

theorem stale_progress {own : Nat} {outcome : Outcome ε}
    (taken : { s with checkpoints := [] }.afterFire own outcome sizes = (t, report))
    (paused : s.pause = true) (running : s.inflight = some own)
    (waits : s.foldsIn = some (own, 0, [])) (only : s.checkpoints = [⟨own, .fire⟩])
    (held : Held s.writer) : Progress caps (.settle own outcome sizes) s t report := by
  obtain ⟨base, moved⟩ := afterFire_eq { s with checkpoints := [] } own outcome sizes
  obtain ⟨inflight, pause, _, giveUps, foldsIn, checkpoints, nextId, writer⟩ := s
  have held : Held writer := held
  subst paused running waits only
  rw [moved] at taken
  simp only [afterFire, if_true, ask, List.nil_append, held.not_draining, if_false] at taken
  cases taken
  exact .waits (.passing held room_nil) rfl rfl (by simp [remaining])

theorem settle_progress {id : Nat} {outcome : Outcome ε} (steady : Steady s)
    (paused : s.pause = true) (taken : s.settle caps id outcome sizes = some (t, report)) :
    Progress caps (.settle id outcome sizes) s t report := by
  cases steady with
  | quiet => cases paused
  | fired => cases paused
  | stale held =>
    obtain ⟨rfl, taken⟩ := settle_only rfl taken
    exact stale_progress taken rfl rfl rfl rfl held
  | passing held room =>
    obtain ⟨rfl, taken⟩ := settle_only rfl taken
    exact passive_progress held room rfl ⟨rfl, rfl⟩ rfl taken
  | truncating held bound full =>
    obtain ⟨rfl, taken⟩ := settle_only rfl taken
    cases outcome with
    | rejected error =>
      simp only [resume, afterTruncate, release_held held] at taken
      cases taken
      exact .answers .quiet rfl rfl bound ⟨id, rfl⟩
    | fulfilled res =>
      simp only [resume, afterTruncate, release_held held] at taken
      cases taken
      exact .answers .quiet rfl rfl bound (Or.inl full)

/-! ### Every step -/

theorem check_paused (paused : s.pause = true) : s.check caps sizes = s := by
  rw [check, if_neg]
  rintro ⟨open_, _⟩
  rw [paused] at open_
  cases open_

theorem check_steady (steady : Steady s) : Steady (s.check caps sizes) := by
  rw [check]
  split
  next fires =>
    obtain ⟨unpaused, none_, _⟩ := fires
    cases steady with
    | quiet => exact .fired (Or.inl rfl)
    | fired => cases none_
    | stale => cases unpaused
    | passing => cases unpaused
    | truncating => cases unpaused
  next => exact steady

theorem backfillFully_steady {writer : Writer} (held : Held writer) (steady : Steady s)
    (idle : s.writer = .idle) : Steady { s.backfillFully with writer } := by
  cases steady with
  | quiet => exact .passing held room_nil
  | fired => exact .stale held
  | stale busy | passing busy | truncating busy =>
    subst idle
    rcases busy with parked | folding
    · cases parked
    · cases folding

theorem unpaused_of_idle (steady : Steady s) (idle : s.writer = .idle) : s.pause = false := by
  cases steady with
  | quiet | fired => rfl
  | stale held | passing held | truncating held =>
    subst idle
    rcases held with parked | folding
    · cases parked
    · cases folding

/-- `foldNow` waits for the timer's pass, returns, or folds. -/
theorem drain_steady (steady : Steady s) (idle : s.writer = .idle) :
    Steady (s.drain sizes).1 := by
  have open_ := unpaused_of_idle steady idle
  rw [drain, if_neg (by rw [open_]; nofun)]
  split
  next id running =>
    cases steady with
    | quiet => cases running
    | fired =>
      cases running
      exact .fired (Or.inr rfl)
    | stale | passing | truncating => cases open_
  next =>
    split
    · rwa [← idle]
    · exact backfillFully_steady (Or.inr rfl) steady idle

theorem backpressure_steady (steady : Steady s) (idle : s.writer = .idle) :
    Steady (s.backpressure caps sizes).1 := by
  have open_ := unpaused_of_idle steady idle
  rw [backpressure, if_neg (by rw [open_]; nofun)]
  split
  · exact steady
  · exact backfillFully_steady (Or.inl rfl) steady idle

theorem Progress.steady (progress : Progress caps e s t report) : Steady t := by
  cases progress with
  | waits steady | answers steady => exact steady

theorem fired_steady {own : Nat} {outcome : Outcome ε}
    (taken : s.afterFire own outcome sizes = (t, report)) (open_ : s.pause = false)
    (running : s.inflight = some own) (alone : s.foldsIn = none ∧ s.checkpoints = [])
    (free : s.writer = .idle ∨ s.writer = .drainingInflight own) : Steady t := by
  obtain ⟨base, moved⟩ := afterFire_eq s own outcome sizes
  obtain ⟨inflight, pause, _, giveUps, foldsIn, checkpoints, nextId, writer⟩ := s
  obtain ⟨rfl, rfl⟩ := alone
  subst open_ running
  rw [moved] at taken
  rcases free with rfl | rfl
  · simp only [afterFire, if_true, reduceCtorEq, if_false] at taken
    cases taken
    exact .quiet
  · simp only [afterFire, drain, if_true, Bool.false_eq_true, if_false] at taken
    split at taken
    · cases taken
      exact .quiet
    · cases taken
      exact .passing (Or.inr rfl) room_nil

theorem step_steady (steady : Steady s) (taken : step caps s e = some (t, report)) : Steady t := by
  cases e with
  | check sizes =>
    cases taken
    exact check_steady steady
  | backpressure sizes =>
    obtain ⟨idle, taken⟩ := Option.ite_none_right_eq_some.mp taken
    have kept : Steady (s.backpressure caps sizes).1 := backpressure_steady steady idle
    rwa [Option.some.inj taken] at kept
  | foldNow sizes =>
    obtain ⟨idle, taken⟩ := Option.ite_none_right_eq_some.mp taken
    have kept : Steady (s.drain sizes).1 := drain_steady steady idle
    rwa [Option.some.inj taken] at kept
  | settle id outcome sizes =>
    cases steady with
    | quiet => cases taken
    | fired free =>
      obtain ⟨rfl, taken⟩ := settle_only rfl taken
      exact fired_steady taken rfl rfl ⟨rfl, rfl⟩ free
    | stale held => exact (settle_progress (.stale held) rfl taken).steady
    | passing held room => exact (settle_progress (.passing held room) rfl taken).steady
    | truncating held bound full =>
      exact (settle_progress (.truncating held bound full) rfl taken).steady

theorem reachable_steady (reached : Reachable start (next caps) s) : Steady s := by
  refine reached.invariant .quiet fun s e t steady taken => ?_
  obtain ⟨⟨t, report⟩, stepped, rfl⟩ := Option.map_eq_some_iff.mp taken
  exact step_steady steady stepped

theorem within_iff : s.growthBytes sizes ≤ caps.hardBytes ∧ sizes.wal ≤ caps.fileCapBytes ↔
    ¬s.OverCap caps sizes := by
  rw [OverCap, not_or, not_lt, not_lt, and_comm]

theorem drain_call {report : Report ε} (heard : (s.drain sizes).2 = some report) :
    report.call = .foldNow := by
  rw [drain] at heard
  split at heard
  · cases heard
  · split at heard
    · cases heard
    · split at heard
      · cases heard
        rfl
      · cases heard

theorem awaiting_call {draining : Prop} [Decidable draining] {report : Report ε}
    (heard : (if draining then s.drain sizes else (s, none)).2 = some report) :
    report.call = .foldNow := by
  split at heard
  · exact drain_call heard
  · cases heard

/-- What a writer hears of `backpressure` is justified, and the pause is over. -/
theorem backpressure_heard {report : Report ε} (steady : Steady s)
    (taken : step caps s e = some (t, some report)) (call : report.call = .backpressure) :
    Justified caps e t report ∧ report.passes.length ≤ MAX_PAUSED_BACKFILL_PASSES ∧
      t.pause = false ∧ t.writer = .idle := by
  cases e with
  | check sizes => cases taken
  | backpressure sizes =>
    obtain ⟨idle, taken⟩ := Option.ite_none_right_eq_some.mp taken
    have open_ := unpaused_of_idle steady idle
    rw [State.backpressure, if_neg (by rw [open_]; nofun)] at taken
    split at taken
    next within =>
      cases taken
      exact ⟨within_iff.mp within, Nat.zero_le _, open_, idle⟩
    next => cases taken
  | foldNow sizes =>
    obtain ⟨_, taken⟩ := Option.ite_none_right_eq_some.mp taken
    have other := drain_call (congrArg Prod.snd (Option.some.inj taken))
    rw [call] at other
    cases other
  | settle id outcome sizes =>
    by_cases paused : s.pause = true
    · cases settle_progress steady paused taken with
      | answers _ cleared free bound justified => exact ⟨justified, bound, cleared, free⟩
    · cases steady with
      | quiet => cases taken
      | fired =>
        obtain ⟨rfl, taken⟩ := settle_only rfl taken
        have other := awaiting_call (congrArg Prod.snd taken)
        rw [call] at other
        cases other
      | stale | passing | truncating => exact absurd rfl paused

/-! ### The end of a pause -/

def Event.isSettle : Event ε → Bool
  | .settle .. => true
  | _ => false

/-- In a run from `s`, the parked writer hears of its call. -/
def Answered (caps : Caps) (s : State ε) (events : List (Event ε)) : Prop :=
  ∃ earlier e later, events = earlier ++ e :: later ∧
    ∃ m t report, run (next caps) s earlier = some m ∧ step caps m e = some (t, some report) ∧
      report.call = .backpressure

theorem remaining_le (steady : Steady s) : remaining s ≤ MAX_PAUSED_BACKFILL_PASSES + 2 := by
  cases steady with
  | quiet => exact Nat.zero_le _
  | fired | stale => exact Nat.le_refl _
  | passing => exact Nat.add_le_add (Nat.sub_le _ _) (Nat.le_succ 1)
  | truncating => exact Nat.le_add_left 1 21

theorem paused_of_parked (steady : Steady s) (parked : s.writer = .parked) : s.pause = true := by
  cases steady with
  | quiet => cases parked
  | fired free =>
    subst parked
    rcases free with idle | draining
    · cases idle
    · cases draining
  | stale | passing | truncating => rfl

theorem remaining_pos (steady : Steady s) (paused : s.pause = true) : 0 < remaining s := by
  cases steady with
  | quiet | fired => cases paused
  | stale => exact Nat.succ_pos 21
  | passing => exact Nat.succ_pos _
  | truncating => exact Nat.one_pos

theorem Answered.later {events : List (Event ε)} (taken : step caps s e = some (t, report))
    (answered : Answered caps t events) : Answered caps s (e :: events) := by
  obtain ⟨earlier, last, later, rfl, m, u, heard, reached, rest⟩ := answered
  refine ⟨e :: earlier, last, later, rfl, m, u, heard, ?_, rest⟩
  rw [run, List.foldlM_cons, next, taken]
  exact reached

theorem answered_of_remaining {events : List (Event ε)} (steady : Steady s)
    (parked : s.writer = .parked) (done : run (next caps) s events = some t)
    (enough : remaining s ≤ events.countP Event.isSettle) : Answered caps s events := by
  have paused := paused_of_parked steady parked
  have busy : s.writer ≠ .idle := by
    rw [parked]
    nofun
  induction events generalizing s with
  | nil => exact absurd enough (remaining_pos steady paused).not_ge
  | cons e events ih =>
    obtain ⟨m, first, rest⟩ := Option.bind_eq_some_iff.mp done
    obtain ⟨⟨m, report⟩, taken, rfl⟩ := Option.map_eq_some_iff.mp first
    cases e with
    | check sizes =>
      have still : s.check caps sizes = s := check_paused paused
      obtain rfl : s = m := by
        rw [← still]
        exact congrArg Prod.fst (Option.some.inj taken)
      exact (ih steady parked rest enough paused busy).later taken
    | backpressure sizes => exact absurd (Option.ite_none_right_eq_some.mp taken).1 busy
    | foldNow sizes => exact absurd (Option.ite_none_right_eq_some.mp taken).1 busy
    | settle id outcome sizes =>
      cases settle_progress steady paused taken with
      | answers =>
        refine ⟨[], _, events, rfl, s, m, _, rfl, taken, ?_⟩
        rw [parked, callOf]
      | waits steady' paused' same fewer =>
        rw [List.countP_cons_of_pos rfl] at enough
        have parked' := same.trans parked
        have busy' : m.writer ≠ .idle := by
          rw [parked']
          nofun
        exact (ih steady' parked' rest (by omega) paused' busy').later taken

theorem settle_enabled {checkpoint : Checkpoint ε}
    (running : checkpoint ∈ s.checkpoints) (outcome : Outcome ε) (sizes : Sizes) :
    (step caps s (.settle checkpoint.id outcome sizes)).isSome := by
  have found : (s.checkpoints.find? fun other => other.id = checkpoint.id).isSome := by
    rw [List.find?_isSome]
    exact ⟨checkpoint, running, decide_eq_true rfl⟩
  rwa [step, State.settle, Option.isSome_map]

theorem running_of_paused (steady : Steady s) (paused : s.pause = true) : s.checkpoints ≠ [] := by
  cases steady with
  | quiet | fired => cases paused
  | stale | passing | truncating => exact List.cons_ne_nil _ _

theorem one_checkpoint (steady : Steady s) : s.checkpoints.length ≤ 1 := by
  cases steady with
  | quiet => exact Nat.zero_le _
  | fired | stale | passing | truncating => exact Nat.le_refl _

theorem backpressure_measures (caps : Caps) (idle : s.writer = .idle) (open_ : s.pause = false)
    (sizes : Sizes) :
    (s.OverCap caps sizes ∧ ∃ t, t.pause = true ∧ t.writer = .parked ∧
      step caps s (.backpressure sizes) = some (t, none)) ∨
    (¬s.OverCap caps sizes ∧
      step caps s (.backpressure sizes) = some (s, some ⟨.backpressure, .null, []⟩)) := by
  have unpaused : ¬s.pause = true := by
    rw [open_]
    nofun
  rw [step, if_pos idle, State.backpressure, if_neg unpaused]
  by_cases beyond : s.OverCap caps sizes
  · rw [if_neg fun within => within_iff.mp within beyond]
    exact Or.inl ⟨beyond, _, rfl, rfl, rfl⟩
  · rw [if_pos (within_iff.mpr beyond)]
    exact Or.inr ⟨beyond, rfl⟩

/-- One checkpoint runs at a time, and none for the timer during a pause. A call of `backpressure`
measures; the writer that it parks hears of it after a bounded number of passes, and only for a
reason. -/
theorem backpressure_fails_closed (softMb : ℚ) {s : State ε}
    (reached : Reachable start (next (Caps.ofMb softMb)) s) :
    s.checkpoints.length ≤ 1 ∧
    (s.pause = true → ∀ sizes, step (Caps.ofMb softMb) s (.check sizes) = some (s, none)) ∧
    (s.writer = .idle → s.pause = false ∧ ∀ sizes,
      (s.OverCap (Caps.ofMb softMb) sizes ∧ ∃ t, t.pause = true ∧ t.writer = .parked ∧
        step (Caps.ofMb softMb) s (.backpressure sizes) = some (t, none)) ∨
      (¬s.OverCap (Caps.ofMb softMb) sizes ∧
        step (Caps.ofMb softMb) s (.backpressure sizes) =
          some (s, some ⟨.backpressure, .null, []⟩))) ∧
    (∀ e t report, step (Caps.ofMb softMb) s e = some (t, some report) →
      report.call = .backpressure →
      Justified (Caps.ofMb softMb) e t report ∧
        report.passes.length ≤ MAX_PAUSED_BACKFILL_PASSES ∧ t.pause = false ∧ t.writer = .idle) ∧
    (s.writer = .parked →
      (∃ checkpoint ∈ s.checkpoints, ∀ outcome sizes,
        (step (Caps.ofMb softMb) s (.settle checkpoint.id outcome sizes)).isSome) ∧
      ∀ events t, run (next (Caps.ofMb softMb)) s events = some t →
        MAX_PAUSED_BACKFILL_PASSES + 2 ≤ events.countP Event.isSettle →
        Answered (Caps.ofMb softMb) s events) := by
  have steady := reachable_steady reached
  refine ⟨one_checkpoint steady, fun paused sizes => ?_, fun idle => ?_,
    fun e t report taken call => backpressure_heard steady taken call,
    fun parked => ⟨?_, fun events t done enough => ?_⟩⟩
  · rw [step, check_paused paused]
  · have open_ := unpaused_of_idle steady idle
    exact ⟨open_, backpressure_measures _ idle open_⟩
  · have paused := paused_of_parked steady parked
    obtain ⟨checkpoint, others, running⟩ :=
      List.exists_cons_of_ne_nil (running_of_paused steady paused)
    have mem : checkpoint ∈ s.checkpoints := running ▸ List.mem_cons_self
    exact ⟨checkpoint, mem, settle_enabled mem⟩
  · exact answered_of_remaining steady parked done ((remaining_le steady).trans enough)

/-- A call past both caps parks the writer, and the pass that it waits for can settle. -/
theorem backpressure_fails_closed_parked : ∃ s : State Unit,
    run (next (Caps.ofMb 1)) start [.backpressure ⟨5000000, 5000000⟩] = some s ∧
      ∃ checkpoint ∈ s.checkpoints, ∀ outcome sizes,
        (step (Caps.ofMb 1) s (.settle checkpoint.id outcome sizes)).isSome := by
  have beyond : (start : State Unit).OverCap (Caps.ofMb 1) ⟨5000000, 5000000⟩ := by
    apply Or.inl
    norm_num [Caps.ofMb, FILE_CAP_MULTIPLIER]
  have parks : ∃ t : State Unit, t.writer = .parked ∧
      step (Caps.ofMb 1) start (.backpressure ⟨5000000, 5000000⟩) = some (t, none) := by
    rcases backpressure_measures (s := (start : State Unit)) (Caps.ofMb 1) rfl rfl
      ⟨5000000, 5000000⟩ with ⟨_, t, _, parked, taken⟩ | ⟨under, _⟩
    · exact ⟨t, parked, taken⟩
    · exact absurd beyond under
  obtain ⟨t, parked, taken⟩ := parks
  have done : run (next (Caps.ofMb 1)) start [.backpressure ⟨5000000, 5000000⟩] = some t := by
    rw [run, List.foldlM_cons, next, taken]
    rfl
  exact ⟨t, done, ((backpressure_fails_closed 1 (run_reachable _ .start done)).2.2.2.2 parked).1⟩

end CodeGraph.Db.WalValve
