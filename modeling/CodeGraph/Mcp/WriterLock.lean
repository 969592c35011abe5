import CodeGraph.Foundation.Transitions

/-!
The writer record of a project, and the processes that acquire, stamp, update and release it.

Every mutation happens under the mutation lock, which the system gives to one process at a time and
takes back when the process dies. A call reads the record, and probes the processes that it names, in
one step, and writes the record in the next, so that others may act in between.
-/
namespace CodeGraph.Mcp.WriterLock

abbrev Pid := Int

structure WriterLockInfo where
  pid : Pid
  mode : String
  startedAt : Nat
  ready : Option Bool
  deriving DecidableEq, Repr

/-- The contents of the record file; what cannot be decoded is told apart by a number. -/
inductive Raw where
  | info (i : WriterLockInfo)
  | garbage (n : Nat)
  deriving DecidableEq, Repr

def decode : Raw → Option WriterLockInfo
  | .info i => some i
  | .garbage _ => none

def empty : Raw := .garbage 0

/-- The record that an update expects: any of a process, or one generation. -/
inductive Expected where
  | pid (p : Pid)
  | generation (i : WriterLockInfo)
  deriving DecidableEq, Repr

def Expected.fits (i : WriterLockInfo) : Expected → Bool
  | .pid p => i.pid == p
  | .generation e => i.pid == e.pid && i.mode == e.mode && i.startedAt == e.startedAt

/-- A call, with the number of records that had been installed when it was made. -/
inductive Job where
  | acquire (info : WriterLockInfo) (reuseOwnRecord preserveUncertain : Bool)
  | ready (owned : WriterLockInfo) (asked : Nat)
  | update (expected : Expected) (next : Option WriterLockInfo)
  | release (asked : Nat)
  deriving DecidableEq, Repr

inductive Write where
  /-- The link of a new record; `again` after a stale one was cleared. -/
  | create (again : Bool)
  /-- The record of a file that was created empty, where hard links are missing. -/
  | fill
  /-- The second look at a stale record, as it was at the first. -/
  | recheck (observed : Raw)
  | unlinkStale
  | stamp (i : WriterLockInfo)
  | replace (next : WriterLockInfo)
  | unlinkMatched
  | unlinkOwn
  deriving DecidableEq, Repr

inductive Control where
  | idle
  /-- The look at the file before a readiness stamp. -/
  | looking (job : Job)
  | waiting (job : Job)
  /-- The mutation lock is held from here on. -/
  | inspecting (job : Job)
  | writing (job : Job) (w : Write)
  deriving DecidableEq, Repr

structure Process where
  control : Control
  /-- The timer of a release, with what the release was asked with. -/
  pendingRelease : Option Nat
  /-- The timer of a readiness stamp. -/
  pendingReadiness : Option (WriterLockInfo × Nat)
  /-- What the last update returned. -/
  reported : Option Bool
  deriving DecidableEq, Repr

structure State where
  slot : Option Raw
  /-- The number of the record in the slot, among all that were installed. -/
  serial : Nat
  installed : Nat
  running : Pid → Bool
  mutation : Option Pid
  process : Pid → Process

namespace State

def setProcess (s : State) (p : Pid) (f : Process → Process) : State :=
  { s with process := fun q => if q = p then f (s.process p) else s.process q }

def goto (s : State) (p : Pid) (c : Control) : State :=
  s.setProcess p fun proc => { proc with control := c }

def finish (s : State) (p : Pid) : State :=
  { s.goto p .idle with mutation := none }

def cancelPendingReadiness (s : State) (p : Pid) : State :=
  s.setProcess p fun proc => { proc with pendingReadiness := none }

def cancelPendingRelease (s : State) (p : Pid) : State :=
  s.setProcess p fun proc => { proc with pendingRelease := none }

def report (s : State) (p : Pid) (value : Bool) : State :=
  s.setProcess p fun proc => { proc with reported := some value }

def install (s : State) (i : WriterLockInfo) : State :=
  { s with slot := some (.info i), serial := s.installed + 1, installed := s.installed + 1 }

def clear (s : State) : State := { s with slot := none }

/-- What no living process answers for: no record, or a process that is none or dead. -/
def stale (s : State) : Option WriterLockInfo → Bool
  | none => true
  | some i => i.pid ≤ 0 || !s.running i.pid

/-- What `preserveUncertain` leaves alone. -/
def uncertain : Option WriterLockInfo → Bool
  | none => true
  | some i => i.pid ≤ 0

def retryReadiness (s : State) (p : Pid) (owned : WriterLockInfo) (asked : Nat) : State :=
  s.setProcess p fun proc =>
    { proc with pendingReadiness := some (proc.pendingReadiness.getD (owned, asked)) }

def retryRelease (s : State) (p : Pid) (asked : Nat) : State :=
  s.setProcess p fun proc => { proc with pendingRelease := some (proc.pendingRelease.getD asked) }

def call (s : State) (p : Pid) : Job → State
  | .acquire info reuse preserve => s.goto p (.waiting (.acquire info reuse preserve))
  | .ready owned _ => s.goto p (.looking (.ready owned s.installed))
  | .update expected next => s.goto p (.waiting (.update expected next))
  | .release _ => (s.cancelPendingReadiness p).goto p (.waiting (.release s.installed))

def giveUp (s : State) (p : Pid) : Job → State
  | .acquire _ _ _ => s.goto p .idle
  | .ready owned asked => (s.retryReadiness p owned asked).goto p .idle
  | .update _ _ => (s.report p false).goto p .idle
  | .release asked => (s.retryRelease p asked).goto p .idle

def inspect (s : State) (p : Pid) : Job → State
  | .acquire info reuse preserve =>
    if s.running info.pid then s.goto p (.writing (.acquire info reuse preserve) (.create false))
    else s.finish p
  | .ready owned asked =>
    let s := s.cancelPendingReadiness p
    match s.slot.bind decode with
    | none => s.finish p
    | some i =>
      if i.pid ≠ p ∨ i.mode ≠ owned.mode ∨ i.startedAt ≠ owned.startedAt then s.finish p
      else s.goto p (.writing (.ready owned asked) (.stamp i))
  | .update expected next =>
    match s.slot with
    | none => (s.report p next.isNone).finish p
    | some (.garbage _) => (s.report p false).finish p
    | some (.info i) =>
      if ¬ expected.fits i then (s.report p next.isNone).finish p
      else
        match expected, next with
        | _, none => s.goto p (.writing (.update expected next) .unlinkMatched)
        | .pid _, some n => s.goto p (.writing (.update expected next) (.replace n))
        | .generation e, some n =>
          if s.running e.pid then s.goto p (.writing (.update expected next) (.replace n))
          else (s.report p false).finish p
  | .release asked =>
    let s := s.cancelPendingRelease p
    match s.slot.bind decode with
    | some i => if i.pid = p then s.goto p (.writing (.release asked) .unlinkOwn) else s.finish p
    | none => s.finish p

def acquired (s : State) (p : Pid) : State :=
  ((s.cancelPendingReadiness p).cancelPendingRelease p).finish p

def create (s : State) (p : Pid) (job : Job) (info : WriterLockInfo) (hardLinks : Bool) : State :=
  if hardLinks then (s.install info).acquired p
  else { s with slot := some empty }.goto p (.writing job .fill)

def taken (s : State) (p : Pid) (job : Job) (reuse preserve : Bool) (raw : Raw) : State :=
  if reuse ∧ (decode raw).map WriterLockInfo.pid = some p then (s.cancelPendingRelease p).finish p
  else if preserve ∧ uncertain (decode raw) then s.finish p
  else if s.stale (decode raw) then s.goto p (.writing job (.recheck raw))
  else s.finish p

def recheck (s : State) (p : Pid) (job : Job) (preserve : Bool) (observed : Raw) : State :=
  match s.slot with
  | none => s.goto p (.writing job (.create true))
  | some raw =>
    if preserve ∧ (raw ≠ observed ∨ uncertain (decode raw)) then s.finish p
    else if (decode raw = none ∨
        (decode raw).map WriterLockInfo.pid = (decode observed).map WriterLockInfo.pid) ∧
        s.stale (decode raw) then
      s.goto p (.writing job .unlinkStale)
    else s.goto p (.writing job (.create true))

/-- One write of `acquireWriterRecord`. -/
def acquireWrite (s : State) (p : Pid) (hardLinks : Bool) (info : WriterLockInfo)
    (reuse preserve : Bool) : Write → State
  | .create again =>
    match s.slot with
    | none => s.create p (.acquire info reuse preserve) info hardLinks
    | some raw =>
      if again then s.finish p else s.taken p (.acquire info reuse preserve) reuse preserve raw
  | .fill => (s.install info).acquired p
  | .recheck observed => s.recheck p (.acquire info reuse preserve) preserve observed
  | .unlinkStale => s.clear.goto p (.writing (.acquire info reuse preserve) (.create true))
  | _ => s.finish p

def write (s : State) (p : Pid) (hardLinks : Bool) : Job → Write → State
  | .acquire info reuse preserve, w => s.acquireWrite p hardLinks info reuse preserve w
  | _, .stamp i => { s with slot := some (.info { i with ready := some true }) }.finish p
  | _, .replace next =>
    let s := (s.install next).cancelPendingReadiness p
    let s := if next.pid = p then s.cancelPendingRelease p else s
    (s.report p true).finish p
  | _, .unlinkMatched =>
    (((s.clear.cancelPendingReadiness p).cancelPendingRelease p).report p true).finish p
  | _, .unlinkOwn => s.clear.finish p
  | _, _ => s.finish p

def writeFailed (s : State) (p : Pid) : Job → State
  | .acquire _ _ _ => s.finish p
  | .ready owned asked => (s.retryReadiness p owned asked).finish p
  | .update _ _ => (s.report p false).finish p
  | .release _ => s.finish p

def renameRetried (s : State) (p : Pid) : Job → State
  | .update expected _ =>
    match s.slot with
    | some (.info i) => if expected.fits i then s else (s.report p false).finish p
    | _ => (s.report p false).finish p
  | _ => s.finish p

/-- The next step of a process; a call that waits gets the mutation lock if it is free. -/
def advance (s : State) (p : Pid) (hardLinks : Bool) : Control → Option State
  | .idle => none
  | .looking job =>
    if s.slot.isSome then some (s.goto p (.waiting job))
    else some ((s.cancelPendingReadiness p).goto p .idle)
  | .waiting job =>
    if s.mutation = none then some ({ s with mutation := some p }.goto p (.inspecting job)) else none
  | .inspecting job => some (s.inspect p job)
  | .writing job w => some (s.write p hardLinks job w)

end State

inductive Event where
  | tryAcquireWriterLock (p : Pid) (mode : String) (now : Nat) (preserveUncertain : Bool)
  /-- `uuid` makes the mode of a reservation unique. -/
  | reserveWriterLock (p : Pid) (holder : Pid) (uuid : String) (now : Nat)
  | markWriterReady (p : Pid) (owned : WriterLockInfo)
  | updateWriterLock (p : Pid) (expected : Expected) (next : Option WriterLockInfo)
  | releaseWriterLock (p : Pid)
  | advance (p : Pid)
  | giveUp (p : Pid)
  | writeFailed (p : Pid)
  /-- A rename refused by the system is tried again after another look. -/
  | renameRetried (p : Pid)
  | releaseTimer (p : Pid)
  | readinessTimer (p : Pid)
  | death (p : Pid)

namespace State

def begin (s : State) (p : Pid) (job : Job) : Option State :=
  if s.running p ∧ (s.process p).control = .idle then some (s.call p job) else none

/-- A death frees the mutation lock; a number is not used again. -/
def death (s : State) (p : Pid) : State :=
  { s with
    running := fun q => if q = p then false else s.running q
    mutation := if s.mutation = some p then none else s.mutation }

def step (hardLinks : Bool) (s : State) : Event → Option State
  | .tryAcquireWriterLock p mode now preserve =>
    s.begin p (.acquire ⟨p, mode, now, some false⟩ true preserve)
  | .reserveWriterLock p holder uuid now =>
    if 0 < holder ∧ s.running holder then
      s.begin p (.acquire ⟨holder, "promotion:" ++ uuid, now, some false⟩ false false)
    else none
  | .markWriterReady p owned => s.begin p (.ready owned 0)
  | .updateWriterLock p expected next => s.begin p (.update expected next)
  | .releaseWriterLock p => s.begin p (.release 0)
  | .advance p => if s.running p then s.advance p hardLinks (s.process p).control else none
  | .giveUp p =>
    match (s.process p).control with
    | .waiting job => if s.running p ∧ s.mutation ≠ none then some (s.giveUp p job) else none
    | _ => none
  | .writeFailed p =>
    match (s.process p).control with
    | .writing job _ => if s.running p then some (s.writeFailed p job) else none
    | _ => none
  | .renameRetried p =>
    match (s.process p).control with
    | .writing job (.replace _) => if s.running p then some (s.renameRetried p job) else none
    | _ => none
  | .releaseTimer p =>
    match (s.process p).pendingRelease with
    | some asked =>
      if s.running p ∧ (s.process p).control = .idle then
        some ((s.cancelPendingRelease p).goto p (.waiting (.release asked)))
      else none
    | none => none
  | .readinessTimer p =>
    match (s.process p).pendingReadiness with
    | some (owned, asked) =>
      if s.running p ∧ (s.process p).control = .idle then
        some ((s.cancelPendingReadiness p).goto p (.looking (.ready owned asked)))
      else none
    | none => none
  | .death p => some (s.death p)

end State

def start (slot : Option Raw) (running : Pid → Bool) : State :=
  { slot := slot, serial := 0, installed := 0, running := running, mutation := none
    process := fun _ => ⟨.idle, none, none, none⟩ }

end CodeGraph.Mcp.WriterLock
