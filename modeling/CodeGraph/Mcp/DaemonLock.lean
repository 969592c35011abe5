import CodeGraph.Foundation.RecordFiles
import CodeGraph.Foundation.Transitions

/-!
The lock file of a project's daemon, and the candidates that link it into place or clear it when its
holder is dead.

Each candidate runs one file operation at a time, in any order with the others, and may die between
any two. The private file that is linked into place is seen by no other process.

A living daemon keeps its lock, as long as the file that a candidate unlinks still has the contents
which the candidate read again before. That the contents are those of a dead process is an invariant
of the candidate; what happens between its last look and its `unlink` is not in its hands.
-/
namespace CodeGraph.Mcp.DaemonLock

open RecordFiles

abbrev Pid := Int

structure DaemonLockInfo where
  pid : Pid
  version : String
  socketPath : String
  startedAt : Nat
  deriving DecidableEq, Repr

/-- The contents of a lock file: what `encodeLockInfo` writes, or another text, with what is decoded
of it. -/
inductive LockContents where
  | encoded (info : DaemonLockInfo)
  | other (text : Nat) (decoded : Option DaemonLockInfo)
  deriving DecidableEq, Repr

def encodeLockInfo (info : DaemonLockInfo) : LockContents := .encoded info

def decodeLockInfo : LockContents → Option DaemonLockInfo
  | .encoded info => some info
  | .other _ decoded => decoded

inductive Control where
  | idle
  | link (info : DaemonLockInfo)
  /-- The look at the file that was in the way. -/
  | read
  | probe (existing : DaemonLockInfo) (lockContents : LockContents)
  /-- The look of `clearStaleDaemonLock`. -/
  | reread (expectedDeadPid : Option Pid) (expectedLockContents : LockContents)
  | reprobe (info : DaemonLockInfo) (raw : LockContents)
  /-- The unlink, with the contents that were read again. -/
  | unlink (raw : LockContents)
  deriving DecidableEq, Repr

structure State where
  file : Option LockContents
  running : Pid → Bool
  /-- Who has been told that it holds the lock. -/
  acquired : Pid → Bool
  control : Pid → Control

inductive Event where
  | tryAcquireDaemonLock (p : Pid) (version socketPath : String) (now : Nat)
  | operation (p : Pid)
  | crash (p : Pid)
  deriving DecidableEq, Repr

namespace State

def goto (s : State) (p : Pid) (c : Control) : State :=
  { s with control := fun q => if q = p then c else s.control q }

/-- `link` fails if the file exists. -/
def link (s : State) (p : Pid) (info : DaemonLockInfo) : State :=
  match s.file with
  | none =>
    { s with file := some (encodeLockInfo info), acquired := fun q => if q = p then true else s.acquired q }
      |>.goto p .idle
  | some _ => s.goto p .read

/-- What is in the way is cleared if it names no process that may live. -/
def read (s : State) (p : Pid) : State :=
  match s.file with
  | none => s.goto p .idle
  | some lockContents =>
    match decodeLockInfo lockContents with
    | none => s.goto p (.reread none lockContents)
    | some existing =>
      if 0 < existing.pid then s.goto p (.probe existing lockContents)
      else s.goto p (.reread (some existing.pid) lockContents)

def clearStaleDaemonLock (s : State) (p : Pid) (expectedDeadPid : Option Pid)
    (expectedLockContents : LockContents) : State :=
  match s.file with
  | none => s.goto p .idle
  | some raw =>
    if raw ≠ expectedLockContents then s.goto p .idle
    else
      match decodeLockInfo raw with
      | none => s.goto p (.unlink raw)
      | some info =>
        if expectedDeadPid.any (· ≠ info.pid) then s.goto p .idle
        else if 0 < info.pid then s.goto p (.reprobe info raw)
        else s.goto p (.unlink raw)

def operation (s : State) (p : Pid) : Control → Option State
  | .idle => none
  | .link info => some (s.link p info)
  | .read => some (s.read p)
  | .probe existing lockContents =>
    if s.running existing.pid then some (s.goto p .idle)
    else some (s.goto p (.reread (some existing.pid) lockContents))
  | .reread expectedDeadPid expectedLockContents =>
    some (s.clearStaleDaemonLock p expectedDeadPid expectedLockContents)
  | .reprobe info raw =>
    if s.running info.pid then some (s.goto p .idle) else some (s.goto p (.unlink raw))
  | .unlink _ => some ({ s with file := none }.goto p .idle)

/-- A dead process does nothing, and its number is not used again. -/
def step (s : State) : Event → Option State
  | .tryAcquireDaemonLock p version socketPath now =>
    if s.running p = true ∧ 0 < p ∧ s.control p = .idle ∧ s.acquired p = false then
      some (s.goto p (.link ⟨p, version, socketPath, now⟩))
    else none
  | .operation p => if s.running p then s.operation p (s.control p) else none
  | .crash p => some { s with running := fun q => if q = p then false else s.running q }

end State

def start (file : Option LockContents) (running : Pid → Bool) : State :=
  { file := file, running := running, acquired := fun _ => false, control := fun _ => .idle }

variable {s t : State} {p : Pid}

/-! ### The invariant -/

def Dead (s : State) (c : LockContents) : Prop :=
  ∀ info, decodeLockInfo c = some info → 0 < info.pid → s.running info.pid = false

def Names (c : LockContents) (p : Pid) : Prop := ∃ info, decodeLockInfo c = some info ∧ info.pid = p

def view (s : State) : View Pid Unit LockContents :=
  ⟨fun _ => s.file, fun p => s.running p = true, fun p _ => s.acquired p = true⟩

structure Inv (s : State) : Prop where
  safe : Safe Names (view s)
  positive : ∀ p, s.acquired p = true → 0 < p
  linking : ∀ p info, s.control p = .link info → info.pid = p ∧ 0 < p
  /-- The process that is asked for last is the one of the contents. -/
  probed : ∀ p info raw, s.control p = .reprobe info raw → decodeLockInfo raw = some info
  dead : ∀ p raw, s.control p = .unlink raw → Dead s raw

def Undisturbed (s : State) : Event → Prop
  | .operation p =>
    match s.control p with
    | .unlink raw => ∀ c, s.file = some c → c = raw
    | _ => True
  | _ => True

private theorem goto_keeps (inv : Inv s) {c : Control}
    (linking : ∀ info, c = .link info → info.pid = p ∧ 0 < p)
    (probed : ∀ info raw, c = .reprobe info raw → decodeLockInfo raw = some info)
    (dead : ∀ raw, c = .unlink raw → Dead s raw) : Inv (s.goto p c) := by
  have at_ {q : Pid} {c' : Control} (h : (s.goto p c).control q = c') :
      q = p ∧ c = c' ∨ s.control q = c' := by
    simp only [State.goto] at h
    split at h
    · next same => exact .inl ⟨same, h⟩
    · exact .inr h
  refine ⟨inv.safe.quiet rfl (fun _ h => h) (fun _ _ h => h), inv.positive, ?_, ?_, ?_⟩
  · intro q info h
    rcases at_ h with ⟨rfl, here⟩ | before
    · exact linking info here
    · exact inv.linking q info before
  · intro q info raw h
    rcases at_ h with ⟨-, here⟩ | before
    · exact probed info raw here
    · exact inv.probed q info raw before
  · intro q raw h
    rcases at_ h with ⟨-, here⟩ | before
    · exact dead raw here
    · exact inv.dead q raw before

private theorem idle_keeps (inv : Inv s) : Inv (s.goto p .idle) :=
  goto_keeps inv (fun _ h => nomatch h) (fun _ _ h => nomatch h) (fun _ h => nomatch h)

private theorem link_keeps (inv : Inv s) {info : DaemonLockInfo} (at_ : s.control p = .link info) :
    Inv (s.link p info) := by
  obtain ⟨own, positive⟩ := inv.linking p info at_
  simp only [State.link]
  split
  · next free =>
    -- The free file is taken by the candidate that it names.
    have taken : Inv { s with
        file := some (encodeLockInfo info)
        acquired := fun q => if q = p then true else s.acquired q } := by
      refine ⟨?_, fun q h => ?_, inv.linking, inv.probed, inv.dead⟩
      · refine inv.safe.claim (a := p) (k := ()) free ⟨info, rfl, own⟩ (fun _ => (if_pos rfl).symm)
          (fun _ h => h) fun q k h => ?_
        by_cases same : q = p
        · exact .inr ⟨same, rfl⟩
        · simp only [view, if_neg same] at h
          exact .inl h
      · simp only at h
        split at h
        · next same => exact same ▸ positive
        · exact inv.positive q h
    exact idle_keeps taken
  · exact goto_keeps inv (fun _ h => nomatch h) (fun _ _ h => nomatch h) (fun _ h => nomatch h)

private theorem read_keeps (inv : Inv s) : Inv (s.read p) := by
  have goes (c : Control) (reads : c = .idle ∨ (∃ e l, c = .probe e l) ∨ ∃ e l, c = .reread e l) :
      Inv (s.goto p c) := by
    apply goto_keeps inv
    all_goals rcases reads with rfl | ⟨_, _, rfl⟩ | ⟨_, _, rfl⟩ <;> simp
  simp only [State.read]
  split
  · exact goes _ (.inl rfl)
  · split
    · exact goes _ (.inr (.inr ⟨_, _, rfl⟩))
    · split
      · exact goes _ (.inr (.inl ⟨_, _, rfl⟩))
      · exact goes _ (.inr (.inr ⟨_, _, rfl⟩))

private theorem clearStaleDaemonLock_keeps (inv : Inv s) (expectedDeadPid : Option Pid)
    (expectedLockContents : LockContents) :
    Inv (s.clearStaleDaemonLock p expectedDeadPid expectedLockContents) := by
  have unlinks {raw : LockContents} (dead : Dead s raw) : Inv (s.goto p (.unlink raw)) := by
    refine goto_keeps inv (fun _ h => nomatch h) (fun _ _ h => nomatch h) fun raw' h => ?_
    cases h
    exact dead
  simp only [State.clearStaleDaemonLock]
  split
  · exact idle_keeps inv
  · split
    · exact idle_keeps inv
    · split
      · next unreadable =>
        exact unlinks fun info decoded => by rw [unreadable] at decoded; cases decoded
      · next info decoded =>
        split
        · exact idle_keeps inv
        · split
          · refine goto_keeps inv (fun _ h => nomatch h) (fun info' raw' h => ?_) (fun _ h => nomatch h)
            cases h
            exact decoded
          · next none_ =>
            refine unlinks fun info' decoded' positive => ?_
            cases Option.some.inj (decoded.symm.trans decoded')
            exact absurd positive none_

private theorem unlink_keeps (inv : Inv s) {raw : LockContents} (dead : Dead s raw)
    (same : ∀ c, s.file = some c → c = raw) : Inv ({ s with file := none }.goto p .idle) := by
  have swept : Inv { s with file := none } := by
    refine ⟨?_, inv.positive, inv.linking, inv.probed, inv.dead⟩
    by_cases there : s.file = none
    · exact inv.safe.quiet (funext fun _ => there.symm) (fun _ h => h) (fun _ _ h => h)
    · -- An owner that lives would be named by what is unlinked.
      refine ⟨fun q k live own => ?_, inv.safe.single⟩
      obtain ⟨c, found, info, decoded, named⟩ := inv.safe.recorded q k live own
      have gone := dead info (same c found ▸ decoded) (named ▸ inv.positive q own)
      rw [named] at gone
      exact absurd (live.symm.trans gone) (by decide)
  exact idle_keeps swept

theorem start_inv (file : Option LockContents) (running : Pid → Bool) : Inv (start file running) := by
  refine ⟨⟨fun _ _ _ own => ?_, fun _ _ _ _ _ own => ?_⟩, fun _ h => ?_, fun _ _ h => ?_,
    fun _ _ _ h => ?_, fun _ _ h => ?_⟩
  · cases own
  · cases own
  · cases h
  · cases h
  · cases h
  · cases h

theorem step_keeps (inv : Inv s) {e : Event} (fine : Undisturbed s e) (taken : s.step e = some t) :
    Inv t := by
  cases e with
  | tryAcquireDaemonLock p version socketPath now =>
    obtain ⟨⟨-, positive, -⟩, same⟩ := Option.ite_none_right_eq_some.mp taken
    cases same
    refine goto_keeps inv (fun info h => ?_) (fun _ _ h => nomatch h) (fun _ h => nomatch h)
    cases h
    exact ⟨rfl, positive⟩
  | operation p =>
    obtain ⟨live, taken⟩ := Option.ite_none_right_eq_some.mp taken
    cases at_ : s.control p with
    | idle =>
      rw [at_] at taken
      cases taken
    | link info =>
      rw [at_] at taken
      cases taken
      exact link_keeps inv at_
    | read =>
      rw [at_] at taken
      cases taken
      exact read_keeps inv
    | probe existing lockContents =>
      rw [at_] at taken
      simp only [State.operation] at taken
      split at taken
      · cases taken
        exact idle_keeps inv
      · cases taken
        exact goto_keeps inv (fun _ h => nomatch h) (fun _ _ h => nomatch h) (fun _ h => nomatch h)
    | reread expectedDeadPid expectedLockContents =>
      rw [at_] at taken
      cases taken
      exact clearStaleDaemonLock_keeps inv expectedDeadPid expectedLockContents
    | reprobe info raw =>
      rw [at_] at taken
      simp only [State.operation] at taken
      split at taken
      · cases taken
        exact idle_keeps inv
      · next dead =>
        cases taken
        refine goto_keeps inv (fun _ h => nomatch h) (fun _ _ h => nomatch h) fun raw' h => ?_
        cases h
        -- The process of the contents has just been found dead.
        intro info' decoded _
        cases Option.some.inj ((inv.probed p info raw at_).symm.trans decoded)
        exact (Bool.not_eq_true _).mp dead
    | unlink raw =>
      rw [at_] at taken
      cases taken
      simp only [Undisturbed, at_] at fine
      exact unlink_keeps inv (inv.dead p raw at_) fine
  | crash p =>
    cases taken
    have fewer {q : Pid} (h : (if q = p then false else s.running q) = true) : s.running q = true := by
      split at h
      · cases h
      · exact h
    refine ⟨inv.safe.quiet rfl (fun _ h => fewer h) (fun _ _ h => h), inv.positive, inv.linking,
      inv.probed, fun q raw at_ info decoded positive => ?_⟩
    simp only
    split
    · rfl
    · exact inv.dead q raw at_ info decoded positive

abbrev Reachable (file : Option LockContents) (running : Pid → Bool) : State → Prop :=
  Transitions.ReachableWhen Undisturbed (start file running) State.step

structure Contract (s : State) : Prop where
  /-- The record of a living process stays. -/
  kept : ∀ e t, Undisturbed s e → s.step e = some t → ∀ c info, s.file = some c →
    decodeLockInfo c = some info → 0 < info.pid → s.running info.pid = true → t.file = s.file
  exclusive : ∀ p q, s.running p = true → s.running q = true → s.acquired p = true →
    s.acquired q = true → p = q

private theorem link_file {info : DaemonLockInfo} {c : LockContents} (there : s.file = some c) :
    (s.link p info).file = s.file := by
  simp only [State.link, there]
  exact there

private theorem read_file : (s.read p).file = s.file := by
  simp only [State.read]
  split
  · rfl
  · split
    · rfl
    · split <;> rfl

private theorem clearStaleDaemonLock_file {expectedDeadPid : Option Pid} {expected : LockContents} :
    (s.clearStaleDaemonLock p expectedDeadPid expected).file = s.file := by
  simp only [State.clearStaleDaemonLock]
  split
  · rfl
  · split
    · rfl
    · split
      · rfl
      · split
        · rfl
        · split <;> rfl

private theorem step_file (inv : Inv s) {e : Event} (fine : Undisturbed s e)
    (taken : s.step e = some t) {c : LockContents} {info : DaemonLockInfo} (there : s.file = some c)
    (decoded : decodeLockInfo c = some info) (positive : 0 < info.pid)
    (alive : s.running info.pid = true) : t.file = s.file := by
  cases e with
  | tryAcquireDaemonLock p version socketPath now =>
    obtain ⟨-, same⟩ := Option.ite_none_right_eq_some.mp taken
    cases same
    rfl
  | operation p =>
    obtain ⟨-, taken⟩ := Option.ite_none_right_eq_some.mp taken
    cases at_ : s.control p with
    | idle =>
      rw [at_] at taken
      cases taken
    | link info =>
      rw [at_] at taken
      cases taken
      exact link_file there
    | read =>
      rw [at_] at taken
      cases taken
      exact read_file
    | probe existing lockContents =>
      rw [at_] at taken
      simp only [State.operation] at taken
      split at taken <;> cases taken <;> rfl
    | reread expectedDeadPid expected =>
      rw [at_] at taken
      cases taken
      exact clearStaleDaemonLock_file
    | reprobe info raw =>
      rw [at_] at taken
      simp only [State.operation] at taken
      split at taken <;> cases taken <;> rfl
    | unlink raw =>
      -- What is unlinked is what was read, and that was dead.
      simp only [Undisturbed, at_] at fine
      have gone := inv.dead p raw at_ info (fine c there ▸ decoded) positive
      rw [alive] at gone
      cases gone
  | crash p =>
    cases taken
    rfl

/-- A living daemon keeps its lock, and is the only one, in every run without a disturbed unlink. -/
theorem daemon_lock_contract {file : Option LockContents} {running : Pid → Bool}
    (reached : Reachable file running s) : Contract s := by
  have inv : Inv s :=
    reached.invariant (start_inv file running) fun _ _ _ inv fine taken => step_keeps inv fine taken
  constructor
  · intro e t fine taken c info there decoded positive alive
    exact step_file inv fine taken there decoded positive alive
  · intro p q live live' own own'
    exact inv.safe.single p q () live live' own own'

instance (s : State) (e : Event) : Decidable (Undisturbed s e) :=
  match e with
  | .operation p =>
    match at_ : s.control p with
    | .unlink raw =>
      decidable_of_iff (s.file.all (· == raw) = true) (by
        simp only [Undisturbed, at_]
        cases s.file <;> simp)
    | .idle => .isTrue (by simp only [Undisturbed, at_])
    | .link _ => .isTrue (by simp only [Undisturbed, at_])
    | .read => .isTrue (by simp only [Undisturbed, at_])
    | .probe _ _ => .isTrue (by simp only [Undisturbed, at_])
    | .reread _ _ => .isTrue (by simp only [Undisturbed, at_])
    | .reprobe _ _ => .isTrue (by simp only [Undisturbed, at_])
  | .tryAcquireDaemonLock _ _ _ _ => .isTrue trivial
  | .crash _ => .isTrue trivial

/-- The lock that process `9` has left. -/
def left : LockContents := .encoded ⟨9, "1.0.0", "/tmp/d.sock", 1⟩

def clears (p : Pid) : List Event :=
  .tryAcquireDaemonLock p "1.0.0" "/tmp/d.sock" 2 :: List.replicate 6 (.operation p)

def links (p : Pid) : List Event := [.tryAcquireDaemonLock p "1.0.0" "/tmp/d.sock" 3, .operation p]

def takeOver : List Event :=
  clears 1 ++ links 1 ++ .tryAcquireDaemonLock 2 "1.0.0" "/tmp/d.sock" 4 ::
    List.replicate 3 (.operation 2)

theorem daemon_lock_contract_take_over : ∃ s,
    Transitions.run (Transitions.guarded Undisturbed State.step)
        (start (some left) fun p => p == 1 || p == 2) takeOver = some s ∧
      s.acquired 1 = true ∧ s.acquired 2 = false ∧ s.control 2 = .idle ∧ Contract s := by
  have seen : (Transitions.run (Transitions.guarded Undisturbed State.step)
      (start (some left) fun p => p == 1 || p == 2) takeOver).map
        (fun s => (s.acquired 1, s.acquired 2, s.control 2)) = some (true, false, .idle) := by
    decide +kernel
  obtain ⟨s, done, view⟩ := Option.map_eq_some_iff.mp seen
  obtain ⟨one, two, idle⟩ : _ ∧ _ ∧ _ := by simpa only [Prod.mk.injEq] using view
  exact ⟨s, done, one, two, idle,
    daemon_lock_contract (Transitions.run_reachableWhen takeOver .start done)⟩

/-- Both candidates have found the holder dead; the second one links its record before the first one
unlinks what it believes to be the dead holder's. -/
def takenAway : List Event :=
  .tryAcquireDaemonLock 1 "1.0.0" "/tmp/d.sock" 2 :: List.replicate 5 (.operation 1) ++
  clears 2 ++ links 2 ++ .operation 1 :: links 1

/-- Two living candidates hold the lock. -/
theorem daemon_lock_taken_away : ∃ s,
    Transitions.run State.step (start (some left) fun p => p == 1 || p == 2) takenAway = some s ∧
      ¬ ∀ p q, s.running p = true → s.running q = true → s.acquired p = true →
        s.acquired q = true → p = q := by
  have seen : (Transitions.run State.step (start (some left) fun p => p == 1 || p == 2)
      takenAway).map (fun s => (s.running 1, s.running 2, s.acquired 1, s.acquired 2)) =
        some (true, true, true, true) := by decide +kernel
  obtain ⟨s, done, view⟩ := Option.map_eq_some_iff.mp seen
  obtain ⟨live, live', one, two⟩ : _ ∧ _ ∧ _ ∧ _ := by simpa only [Prod.mk.injEq] using view
  exact ⟨s, done, fun exclusive => absurd (exclusive 1 2 live live' one two) (by decide)⟩

end CodeGraph.Mcp.DaemonLock
