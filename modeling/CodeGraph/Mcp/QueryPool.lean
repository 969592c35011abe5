import CodeGraph.Foundation.Transitions
import CodeGraph.Foundation.WorkerPool

/-! The query worker pool: one step for each event that the daemon's main thread handles. -/
namespace CodeGraph.Mcp

open InsertionMap WorkerPool

namespace QueryPool

def MAX_POOL_SIZE : Nat := 16
def CRASH_BUDGET : Nat := 12
def MAX_CONCURRENT_SPAWN : Nat := 2
def MAX_WARM_SPAWN : Nat := 4

/-- A worker is the number of the call of `createWorker` that made it. -/
abbrev WorkerId := Nat

abbrev CallId := Nat

inductive Answer where
  | result (call : CallId)
  | busyGuidance
  | workerCrashed
  | shuttingDown
  deriving DecidableEq, Repr

/-- The soft timer of a call is armed as long as the call is not settled. -/
structure Job where
  retries : Nat
  settled : Bool
  deriving DecidableEq, Repr

end QueryPool

open QueryPool

structure QueryPoolOptions where
  /-- Whether there is a default project. -/
  root : Bool
  size : Nat
  maxRetries : Nat
  idleRetireMs : Nat
  warmFloor : Nat
  /-- Whether a call of `createWorker` gives a worker. -/
  createWorker : Nat → Bool

namespace QueryPoolOptions

def maxSize (o : QueryPoolOptions) : Nat := max 1 (min o.size MAX_POOL_SIZE)

def floor (o : QueryPoolOptions) : Nat := min o.warmFloor o.maxSize

end QueryPoolOptions

structure QueryPool where
  idle : List WorkerId
  queue : List CallId
  inflight : List (WorkerId × CallId)
  workers : List WorkerId
  pendingWorkers : List WorkerId
  nextId : Nat
  totalCrashes : Nat
  destroyed : Bool
  idleSince : WorkerId → Option Nat
  everReady : Bool
  jobs : CallId → Job
  /-- The calls of `createWorker` so far. -/
  created : Nat
  /-- The promises that were resolved so far. -/
  answers : List (CallId × Answer)
  /-- The calls that are posted to a worker and not answered by it. -/
  posted : List (WorkerId × CallId)
  /-- How often a call was posted. -/
  dispatched : CallId → Nat

namespace QueryPool

variable (o : QueryPoolOptions)

def healthy (s : QueryPool) : Bool := !s.destroyed && s.totalCrashes < CRASH_BUDGET

def spawnCap (s : QueryPool) : Nat := if s.everReady then MAX_WARM_SPAWN else MAX_CONCURRENT_SPAWN

/-- Workers are also started for a pool that is not healthy, if the caller does not look. -/
def spawnOne (s : QueryPool) : QueryPool :=
  if s.destroyed ∨ o.maxSize ≤ s.workers.length then s
  else
    let w := s.created
    if o.createWorker w then
      { s with
        created := s.created + 1
        workers := s.workers ++ [w]
        pendingWorkers := s.pendingWorkers ++ [w] }
    else { s with created := s.created + 1, totalCrashes := s.totalCrashes + 1 }

def park (s : QueryPool) (w : WorkerId) (now : Nat) : QueryPool :=
  { s with
    idle := s.idle ++ [w]
    idleSince := fun v => if v = w then some now else s.idleSince v }

def settle (s : QueryPool) (j : CallId) (answer : Answer) : QueryPool :=
  if (s.jobs j).settled then s
  else
    { s with
      jobs := fun k => if k = j then { s.jobs j with settled := true } else s.jobs k
      answers := s.answers ++ [(j, answer)] }

/-! ### `drain` -/

/-- A loop whose body is `spawnOne`. -/
def spawnWhile (more : QueryPool → Bool) : Nat → QueryPool → QueryPool
  | 0, s => s
  | fuel + 1, s => if more s then spawnWhile more fuel (s.spawnOne o) else s

def spawnFuel : Nat := CRASH_BUDGET + MAX_POOL_SIZE

/-- The condition of the loop of `warm`. -/
def belowFloor (s : QueryPool) : Bool :=
  s.workers.length < o.floor && s.pendingWorkers.length < s.spawnCap && s.healthy

def warm (s : QueryPool) : QueryPool := spawnWhile o (belowFloor o) spawnFuel s

/-- The condition of the loop of `drain` that grows the pool. -/
def grows (s : QueryPool) : Bool :=
  s.idle.length + s.pendingWorkers.length < s.queue.length && s.workers.length < o.maxSize &&
    s.pendingWorkers.length < s.spawnCap && s.healthy

def dispatch (s : QueryPool) (w : WorkerId) (j : CallId) : QueryPool :=
  { s with
    inflight := assign s.inflight w j
    posted := s.posted ++ [(w, j)]
    dispatched := fun k => if k = j then s.dispatched j + 1 else s.dispatched k }

/-- The first queued job that was not answered by its soft timer, and the queue behind it. -/
def shiftUnsettled (s : QueryPool) : List CallId → Option CallId × List CallId
  | [] => (none, [])
  | j :: rest => if (s.jobs j).settled then shiftUnsettled s rest else (some j, rest)

def dispatchQueued : Nat → QueryPool → QueryPool
  | 0, s => s
  | fuel + 1, s =>
    match s.idle.getLast? with
    | none => s
    | some w =>
      match s.shiftUnsettled s.queue with
      | (none, rest) => { s with queue := rest }
      | (some j, rest) =>
        dispatchQueued fuel (dispatch { s with queue := rest, idle := s.idle.dropLast } w j)

def drain (s : QueryPool) : QueryPool :=
  let grown := spawnWhile o (grows o) spawnFuel (s.warm o)
  grown.dispatchQueued (grown.queue.length + 1)

/-! ### Handlers -/

def run (s : QueryPool) : QueryPool :=
  drain o { s with nextId := s.nextId + 1, queue := s.queue ++ [s.nextId] }

def onSoftTimeout (s : QueryPool) (j : CallId) : QueryPool :=
  if (s.jobs j).settled then s else s.settle j .busyGuidance

def dropWorker (s : QueryPool) (w : WorkerId) : QueryPool :=
  { s with
    workers := s.workers.filter (· ≠ w)
    pendingWorkers := s.pendingWorkers.filter (· ≠ w)
    idle := s.idle.filter (· ≠ w)
    idleSince := fun v => if v = w then none else s.idleSince v
    totalCrashes := s.totalCrashes + 1 }

def retryOrFail (s : QueryPool) (j : CallId) : QueryPool :=
  if (s.jobs j).retries < o.maxRetries ∧ s.healthy then
    { s with
      jobs := fun k => if k = j then { s.jobs j with retries := (s.jobs j).retries + 1 } else s.jobs k
      queue := j :: s.queue }
  else s.settle j .workerCrashed

def onWorkerGone (s : QueryPool) (w : WorkerId) : QueryPool :=
  if w ∉ s.workers then s
  else
    let s := s.dropWorker w
    let job := lookup s.inflight w
    let s := { s with inflight := unassign s.inflight w }
    let s := if s.healthy then s.spawnOne o else s
    let s := match job with
      | some j => s.retryOrFail o j
      | none => s
    drain o s

def onReady (s : QueryPool) (w : WorkerId) (ok : Bool) (now : Nat) : QueryPool :=
  if w ∉ s.workers then s
  else if w ∉ s.pendingWorkers then s
  else
    let s := { s with pendingWorkers := s.pendingWorkers.filter (· ≠ w) }
    if ok then drain o ({ s with everReady := true }.park w now) else s.onWorkerGone o w

/-- The message carries a result or none; its call's number is not looked at. -/
def onResult (s : QueryPool) (w : WorkerId) (result : Option CallId) (now : Nat) : QueryPool :=
  if w ∉ s.workers then s
  else
    let job := lookup s.inflight w
    let s := { s with inflight := unassign s.inflight w }.park w now
    let s := match job with
      | some j => s.settle j ((result.map Answer.result).getD .busyGuidance)
      | none => s
    drain o s

def stale (s : QueryPool) (now : Nat) : List WorkerId :=
  (s.idle.filter fun w => o.idleRetireMs ≤ now - (s.idleSince w).getD now).mergeSort
    fun a b => (s.idleSince a).getD 0 ≤ (s.idleSince b).getD 0

/-- The loop of `retireIdle`; a retired worker is no longer the pool's. -/
def retireAll (keep : Nat) : List WorkerId → QueryPool → QueryPool
  | [], s => s
  | w :: ws, s =>
    if s.workers.length ≤ keep then s
    else
      retireAll keep ws { s with
        workers := s.workers.filter (· ≠ w)
        idle := s.idle.filter (· ≠ w)
        idleSince := fun v => if v = w then none else s.idleSince v }

def retireIdle (s : QueryPool) (now : Nat) : QueryPool :=
  if s.destroyed then s
  else
    let keep := if o.root then 1 else 0
    let s := retireAll keep (s.stale o now) s
    if s.workers.length = 0 then { s with everReady := false } else s

def destroy (s : QueryPool) : QueryPool :=
  if s.destroyed then s
  else
    let s := { s with destroyed := true, workers := [], pendingWorkers := [], idle := [] }
    let s := (s.inflight.map Prod.snd ++ s.queue).foldl (fun s j => s.settle j .shuttingDown) s
    { s with inflight := [], queue := [] }

def construct : QueryPool :=
  let s : QueryPool :=
    { idle := [], queue := [], inflight := [], workers := [], pendingWorkers := []
      nextId := 1, totalCrashes := 0, destroyed := false
      idleSince := fun _ => none
      everReady := false
      jobs := fun _ => ⟨0, false⟩
      created := 0, answers := [], posted := []
      dispatched := fun _ => 0 }
  if o.root then s.spawnOne o else s

inductive Event where
  | run
  | warm
  | ready (w : WorkerId) (ok : Bool) (now : Nat)
  /-- The answer of a worker to the call `call`. -/
  | result (w : WorkerId) (call : CallId) (hasResult : Bool) (now : Nat)
  | error (w : WorkerId)
  | exit (w : WorkerId) (code : Nat)
  | softTimeout (j : CallId)
  | retireIdle (now : Nat)
  | destroy

def step (s : QueryPool) : Event → Option QueryPool
  | .run => some (s.run o)
  | .warm => some (s.warm o)
  | .ready w ok now => if w < s.created then some (s.onReady o w ok now) else none
  | .result w call hasResult now =>
    if (w, call) ∈ s.posted then
      some (onResult o { s with posted := s.posted.filter (· ≠ (w, call)) } w
        (if hasResult then some call else none) now)
    else none
  | .error w => if w < s.created then some (s.onWorkerGone o w) else none
  | .exit w code =>
    if w < s.created then some (if code ≠ 0 then s.onWorkerGone o w else s) else none
  | .softTimeout j => if 1 ≤ j ∧ j < s.nextId then some (s.onSoftTimeout j) else none
  | .retireIdle now => if o.idleRetireMs = 0 then none else some (s.retireIdle o now)
  | .destroy => some s.destroy

abbrev Reachable : QueryPool → Prop := Transitions.Reachable (construct o) (step o)

end QueryPool

end CodeGraph.Mcp
