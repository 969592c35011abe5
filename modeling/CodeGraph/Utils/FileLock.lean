import CodeGraph.Foundation.Transitions

/-!
`FileLock` on one path, file operation by file operation.

Each process runs `acquire` and `release` one operation at a time, in any order with the others, and
may die between any two. Level `0` is the lock itself and level `d + 1` is the `.break` of level `d`.
The private file that `create` links into place is seen by no other process, so that its link is
where a lock is created.
-/
namespace CodeGraph.Utils.FileLock

def MAX_LOCK_BREAK_DEPTH : Nat := 3

abbrev Pid := Nat

/-- What a lock file that exists says: a process, or nothing that is one. -/
inductive Content where
  | pid (p : Pid)
  | malformed
  deriving DecidableEq, Repr

/-- The calls of `create` in `tryAcquire`, in their order; the last is made under the break lock. -/
inductive Create where
  | first
  | again
  | replacing
  deriving DecidableEq, Repr

/-- The calls of `readHolder` in `tryAcquire`; the last two are made under the break lock. -/
inductive Look where
  | first
  | again
  | current
  | refused
  deriving DecidableEq, Repr

/-- The next file operation of `tryAcquire` at some level. -/
inductive Op where
  | link (c : Create)
  | read (l : Look)
  /-- `process.kill(p, 0)` for the process that was read. -/
  | probe (l : Look) (p : Pid)
  | unlinkStale
  /-- The release of the break lock; `ok` if the lock was taken. -/
  | releaseRead (ok : Bool)
  | releaseUnlink (ok : Bool)
  deriving DecidableEq, Repr

inductive Control where
  | idle
  /-- `tryAcquire` at a level; the levels below wait for it. -/
  | acquiring (level : Nat) (op : Op)
  | releaseRead
  | releaseUnlink
  deriving DecidableEq, Repr

structure State (Agent : Type) where
  /-- The lock file of each level. -/
  files : Nat → Option Content
  dead : Pid → Bool
  held : Agent → Bool
  control : Agent → Control

inductive Event (Agent : Type) where
  | acquire (a : Agent)
  | release (a : Agent)
  /-- The next file operation of an agent. -/
  | operation (a : Agent)
  | crash (p : Pid)
  deriving DecidableEq, Repr

variable {Agent : Type} [DecidableEq Agent] (pid : Agent → Pid)

namespace State

def goto (s : State Agent) (a : Agent) (c : Control) : State Agent :=
  { s with control := fun b => if b = a then c else s.control b }

def write (s : State Agent) (level : Nat) (content : Option Content) : State Agent :=
  { s with files := fun d => if d = level then content else s.files d }

def setHeld (s : State Agent) (a : Agent) (value : Bool) : State Agent :=
  { s with held := fun b => if b = a then value else s.held b }

/-- `tryAcquire` at a level returns null: the lock is ours. A level above the first goes on with what
it holds the break lock for. -/
def taken (s : State Agent) (a : Agent) : Nat → State Agent
  | 0 => (s.setHeld a true).goto a .idle
  | level + 1 => s.goto a (.acquiring level (.read .current))

/-- `tryAcquire` returns what kept us out, and so does every level below. -/
def refused (s : State Agent) (a : Agent) : State Agent := s.goto a .idle

/-- The rest of `tryAcquire` for a stale holder: the break lock is taken first. -/
def stale (s : State Agent) (a : Agent) (level : Nat) : State Agent :=
  if MAX_LOCK_BREAK_DEPTH ≤ level then s.refused a
  else s.goto a (.acquiring (level + 1) (.link .first))

/-- `tryAcquire` has its result under the break lock, which is released. -/
def finish (s : State Agent) (a : Agent) (level : Nat) (ok : Bool) : State Agent :=
  s.goto a (.acquiring level (.releaseRead ok))

/-- The result of `tryAcquire` once the break lock is released. -/
def result (s : State Agent) (a : Agent) (level : Nat) (ok : Bool) : State Agent :=
  if ok then s.taken a level else s.refused a

def link (s : State Agent) (a : Agent) (level : Nat) (c : Create) : State Agent :=
  match s.files level, c with
  | none, .replacing => (s.write level (some (.pid (pid a)))).finish a level true
  | none, _ => (s.write level (some (.pid (pid a)))).taken a level
  | some _, .first => s.goto a (.acquiring level (.read .first))
  | some _, .again => s.goto a (.acquiring level (.read .again))
  | some _, .replacing => s.goto a (.acquiring level (.read .refused))

def free (s : State Agent) (a : Agent) (level : Nat) : Look → State Agent
  | .first => s.goto a (.acquiring level (.link .again))
  | .again => s.refused a
  | .current => s.goto a (.acquiring level (.link .replacing))
  | .refused => s.finish a level false

def live (s : State Agent) (a : Agent) (level : Nat) : Look → State Agent
  | .first => s.refused a
  | .again => s.refused a
  | .current => s.finish a level false
  | .refused => s.finish a level false

def gone (s : State Agent) (a : Agent) (level : Nat) : Look → State Agent
  | .first => s.stale a level
  | .again => s.stale a level
  | .current => s.goto a (.acquiring level .unlinkStale)
  | .refused => s.finish a level false

def read (s : State Agent) (a : Agent) (level : Nat) (l : Look) : State Agent :=
  match s.files level with
  | none => s.free a level l
  | some .malformed => s.gone a level l
  | some (.pid p) => s.goto a (.acquiring level (.probe l p))

def probe (s : State Agent) (a : Agent) (level : Nat) (l : Look) (p : Pid) : State Agent :=
  if s.dead p then s.gone a level l else s.live a level l

/-- One operation of `tryAcquire` at a level. -/
def tryAcquire (s : State Agent) (a : Agent) (level : Nat) : Op → State Agent
  | .link c => s.link pid a level c
  | .read l => s.read a level l
  | .probe l p => s.probe a level l p
  | .unlinkStale => (s.write level none).goto a (.acquiring level (.link .replacing))
  | .releaseRead ok =>
    if s.files (level + 1) = some (.pid (pid a)) then
      s.goto a (.acquiring level (.releaseUnlink ok))
    else s.result a level ok
  | .releaseUnlink ok => (s.write (level + 1) none).result a level ok

def operation (s : State Agent) (a : Agent) : Control → Option (State Agent)
  | .idle => none
  | .acquiring level op => some (s.tryAcquire pid a level op)
  | .releaseRead =>
    if s.files 0 = some (.pid (pid a)) then some (s.goto a .releaseUnlink)
    else some ((s.setHeld a false).goto a .idle)
  | .releaseUnlink => some (((s.write 0 none).setHeld a false).goto a .idle)

/-- A dead process does nothing, and its number is not used again. -/
def step (s : State Agent) : Event Agent → Option (State Agent)
  | .acquire a =>
    if s.dead (pid a) ∨ s.control a ≠ .idle then none
    else some (s.goto a (.acquiring 0 (.link .first)))
  | .release a =>
    if s.dead (pid a) ∨ s.control a ≠ .idle then none
    else if s.held a then some (s.goto a .releaseRead)
    else some s
  | .operation a => if s.dead (pid a) then none else s.operation pid a (s.control a)
  | .crash p => some { s with dead := fun q => if q = p then true else s.dead q }

end State

def start (left : Nat → Option Content) (dead : Pid → Bool) : State Agent :=
  { files := left, dead := dead, held := fun _ => false, control := fun _ => .idle }

end CodeGraph.Utils.FileLock
