import CodeGraph.Foundation.Transitions
import CodeGraph.Foundation.WorkerPool

/-! The parse worker pool: one step for each event that the main thread handles. -/
namespace CodeGraph.Extraction.ParsePool

open InsertionMap WorkerPool

def MAX_PARSE_POOL_SIZE : Nat := 16
def MAX_CONCURRENT_SPAWN : Nat := 2
def CRASH_BUDGET : Nat := 100
def PARSES_TO_MEASURE : Nat := 8
def DEFAULT_RECYCLE_INTERVAL : Nat := 250

/-- A worker is the number of the call of `createWorker` that made it. -/
abbrev WorkerId := Nat

abbrev ParseId := Nat

inductive Rejection where
  | workerDied
  | timedOut
  | destroyed
  | crashBudget
  deriving DecidableEq, Repr

/-- How a promise is settled: with the result of a parse, or rejected. -/
inductive Outcome where
  | resolved (result : ParseId)
  | rejected (reason : Rejection)
  deriving DecidableEq, Repr

/-- The timers are those that are armed, each with the worker that its callback is bound to. -/
structure ParseJob where
  settled : Bool
  timer : Option WorkerId
  timerExpired : Bool
  hardKillTimer : Option WorkerId
  deriving DecidableEq, Repr

structure ParseWorkerPoolOptions where
  size : Nat
  recycleInterval : Option Nat
  expectedParses : Option Nat
  /-- Whether a call of `createWorker` gives a worker. -/
  createWorker : Nat → Bool
  /-- `Math.ceil(Math.sqrt(left * each / WORKER_WORTH_MS))`, from the parses that are left, those
  measured and the time they took. -/
  worth : Nat → Nat → Nat → Nat

structure ParseWorkerPool where
  idle : List WorkerId
  queue : List ParseId
  inflight : List (WorkerId × ParseId)
  workers : List WorkerId
  pending : List WorkerId
  parseCounts : WorkerId → Nat
  nextId : Nat
  totalCrashes : Nat
  destroyed : Bool
  parsesDone : Nat
  parsesMeasured : Nat
  parseMsMeasured : Nat
  jobs : ParseId → ParseJob
  /-- The calls of `createWorker` so far. -/
  created : Nat
  /-- The calls of `resolve` and `reject` so far. -/
  answers : List (ParseId × Outcome)
  /-- The parses that are posted to a worker and not answered by it. -/
  posted : List (WorkerId × ParseId)
  /-- The workers that have not reported ready. -/
  loading : List WorkerId

def ParseWorkerPoolOptions.maxSize (o : ParseWorkerPoolOptions) : Nat :=
  max 1 (min o.size MAX_PARSE_POOL_SIZE)

namespace ParseWorkerPool

variable (o : ParseWorkerPoolOptions)

def healthy (s : ParseWorkerPool) : Bool := !s.destroyed && s.totalCrashes < CRASH_BUDGET

def wantedSize (s : ParseWorkerPool) : Nat :=
  match o.expectedParses with
  | none => o.maxSize
  | some expected =>
    max 1 (min o.maxSize (o.worth (expected - s.parsesDone) s.parsesMeasured s.parseMsMeasured))

def spawnOne (s : ParseWorkerPool) : ParseWorkerPool :=
  if s.destroyed ∨ o.maxSize ≤ s.workers.length ∨ ¬ s.healthy then s
  else
    let w := s.created
    if o.createWorker w then
      { s with
        created := s.created + 1
        workers := s.workers ++ [w]
        pending := s.pending ++ [w]
        parseCounts := fun v => if v = w then 0 else s.parseCounts v
        loading := s.loading ++ [w] }
    else { s with created := s.created + 1, totalCrashes := s.totalCrashes + 1 }

def settle (s : ParseWorkerPool) (j : ParseId) (outcome : Outcome) : ParseWorkerPool :=
  if (s.jobs j).settled then s
  else
    { s with
      jobs := fun k =>
        if k = j then { s.jobs j with settled := true, timer := none, hardKillTimer := none }
        else s.jobs k
      answers := s.answers ++ [(j, outcome)] }

def removeWorker (s : ParseWorkerPool) (w : WorkerId) : ParseWorkerPool :=
  { s with
    workers := s.workers.filter (· ≠ w)
    pending := s.pending.filter (· ≠ w)
    parseCounts := fun v => if v = w then 0 else s.parseCounts v
    idle := s.idle.filter (· ≠ w) }

def dispatch (s : ParseWorkerPool) (w : WorkerId) (j : ParseId) : ParseWorkerPool :=
  { s with
    inflight := assign s.inflight w j
    parseCounts := fun v => if v = w then s.parseCounts w + 1 else s.parseCounts v
    jobs := fun k => if k = j then { s.jobs j with timer := some w } else s.jobs k
    posted := s.posted ++ [(w, j)] }

def grows (s : ParseWorkerPool) : Bool :=
  s.idle.length + s.pending.length < s.queue.length && s.workers.length < s.wantedSize o &&
    s.pending.length < MAX_CONCURRENT_SPAWN && !s.destroyed && s.healthy

def grow : Nat → ParseWorkerPool → ParseWorkerPool
  | 0, s => s
  | fuel + 1, s => if s.grows o then grow fuel (s.spawnOne o) else s

def growFuel : Nat := CRASH_BUDGET + MAX_PARSE_POOL_SIZE

/-- The first queued job that is not settled, and the queue behind it. -/
def shiftUnsettled (s : ParseWorkerPool) : List ParseId → Option ParseId × List ParseId
  | [] => (none, [])
  | j :: rest => if (s.jobs j).settled then shiftUnsettled s rest else (some j, rest)

def dispatchQueued : Nat → ParseWorkerPool → ParseWorkerPool
  | 0, s => s
  | fuel + 1, s =>
    match s.idle.getLast? with
    | none => s
    | some w =>
      match s.shiftUnsettled s.queue with
      | (none, rest) => { s with queue := rest }
      | (some j, rest) =>
        dispatchQueued fuel (dispatch { s with queue := rest, idle := s.idle.dropLast } w j)

def failStranded (s : ParseWorkerPool) : ParseWorkerPool :=
  if s.queue ≠ [] ∧ s.idle = [] ∧ s.pending = [] ∧ s.workers = [] then
    let reason := if s.destroyed then Rejection.destroyed else .crashBudget
    s.queue.foldl (fun s j => s.settle j (.rejected reason)) { s with queue := [] }
  else s

def drain (s : ParseWorkerPool) : ParseWorkerPool :=
  let grown := s.grow o growFuel
  (grown.dispatchQueued (grown.queue.length + 1)).failStranded

/-! ### Handlers -/

def requestParse (s : ParseWorkerPool) : ParseWorkerPool :=
  if s.destroyed then s
  else drain o { s with nextId := s.nextId + 1, queue := s.queue ++ [s.nextId] }

def recycle (s : ParseWorkerPool) (w : WorkerId) : ParseWorkerPool :=
  let s := s.removeWorker w
  if s.healthy && !s.destroyed then s.spawnOne o else s

def onGrammarsLoaded (s : ParseWorkerPool) (w : WorkerId) : ParseWorkerPool :=
  if w ∉ s.workers then s
  else drain o { s with pending := s.pending.filter (· ≠ w), idle := s.idle ++ [w] }

/-- The message carries its parse's id or none, and the worker's own time or none. -/
def onParseResult (s : ParseWorkerPool) (w : WorkerId) (id : Option ParseId) (result : ParseId)
    (parseMs : Option Nat) : ParseWorkerPool :=
  match lookup s.inflight w with
  | none => s
  | some j =>
    if id ≠ none ∧ id ≠ some j then s
    else
      let s := { s with inflight := unassign s.inflight w, parsesDone := s.parsesDone + 1 }
      let s :=
        match parseMs with
        | some ms =>
          if s.parseCounts w ≠ 1 then
            { s with
              parsesMeasured := s.parsesMeasured + 1
              parseMsMeasured := s.parseMsMeasured + ms }
          else s
        | none => s
      let s :=
        if o.recycleInterval.getD DEFAULT_RECYCLE_INTERVAL ≤ s.parseCounts w then s.recycle o w
        else { s with idle := s.idle ++ [w] }
      drain o (s.settle j (.resolved result))

def onWorkerGone (s : ParseWorkerPool) (w : WorkerId) : ParseWorkerPool :=
  if w ∉ s.workers then s
  else
    let s := s.removeWorker w
    let s := { s with totalCrashes := s.totalCrashes + 1 }
    let job := lookup s.inflight w
    let s := { s with inflight := unassign s.inflight w }
    let s := match job with
      | some j => s.settle j (.rejected .workerDied)
      | none => s
    let s := if s.healthy then s.spawnOne o else s
    drain o s

def onTimeout (s : ParseWorkerPool) (w : WorkerId) (j : ParseId) : ParseWorkerPool :=
  if (s.jobs j).settled ∨ w ∉ s.workers then s
  else
    { s with
      jobs := fun k =>
        if k = j then { s.jobs j with timerExpired := true, hardKillTimer := some w } else s.jobs k }

def onHardTimeout (s : ParseWorkerPool) (w : WorkerId) (j : ParseId) : ParseWorkerPool :=
  if (s.jobs j).settled ∨ w ∉ s.workers then s
  else
    let s := s.removeWorker w
    let s := { s with inflight := unassign s.inflight w }
    let s := s.settle j (.rejected .timedOut)
    let s := if s.healthy then s.spawnOne o else s
    drain o s

def recycleAll (s : ParseWorkerPool) : ParseWorkerPool := s.idle.foldl (fun s w => s.recycle o w) s

/-- The loop of `prewarm`, which ends at the first call that starts nothing. -/
def prewarm : Nat → ParseWorkerPool → ParseWorkerPool
  | 0, s => s
  | fuel + 1, s =>
    if s.workers.length < s.wantedSize o then
      let next := s.spawnOne o
      if next.workers.length = s.workers.length then next else prewarm fuel next
    else s

def destroy (s : ParseWorkerPool) : ParseWorkerPool :=
  if s.destroyed then s
  else
    let s := { s with
      destroyed := true, workers := [], pending := [], parseCounts := fun _ => 0, idle := [] }
    let s := (s.inflight.map Prod.snd ++ s.queue).foldl
      (fun s j => s.settle j (.rejected .destroyed)) s
    { s with inflight := [], queue := [] }

def construct : ParseWorkerPool :=
  spawnOne o
    { idle := [], queue := [], inflight := [], workers := [], pending := []
      parseCounts := fun _ => 0
      nextId := 1, totalCrashes := 0, destroyed := false
      parsesDone := 0, parsesMeasured := 0, parseMsMeasured := 0
      jobs := fun _ => ⟨false, none, false, none⟩
      created := 0, answers := [], posted := [], loading := [] }

inductive Event where
  | requestParse
  | prewarm
  | grammarsLoaded (w : WorkerId)
  /-- The answer of a worker to the parse `result`. -/
  | parseResult (w : WorkerId) (result : ParseId) (hasId : Bool) (parseMs : Option Nat)
  | error (w : WorkerId)
  | exit (w : WorkerId) (code : Nat)
  | timeout (j : ParseId)
  | hardTimeout (j : ParseId)
  | recycleAll
  | destroy

/-- A worker reports ready once and answers each parse that it was sent at most once; a timer fires
once, and only while it is armed. -/
def step (s : ParseWorkerPool) : Event → Option ParseWorkerPool
  | .requestParse => some (s.requestParse o)
  | .prewarm => some (prewarm o (o.maxSize + 1) s)
  | .grammarsLoaded w =>
    if w ∈ s.loading then
      some (onGrammarsLoaded o { s with loading := s.loading.filter (· ≠ w) } w)
    else none
  | .parseResult w result hasId parseMs =>
    if (w, result) ∈ s.posted then
      some (onParseResult o { s with posted := s.posted.filter (· ≠ (w, result)) } w
        (if hasId then some result else none) result parseMs)
    else none
  | .error w => if w < s.created then some (s.onWorkerGone o w) else none
  | .exit w code =>
    if w < s.created then some (if code ≠ 0 then s.onWorkerGone o w else s) else none
  | .timeout j =>
    (s.jobs j).timer.map fun w =>
      onTimeout { s with
        jobs := fun k => if k = j then { s.jobs j with timer := none } else s.jobs k } w j
  | .hardTimeout j =>
    (s.jobs j).hardKillTimer.map fun w =>
      onHardTimeout o { s with
        jobs := fun k => if k = j then { s.jobs j with hardKillTimer := none } else s.jobs k } w j
  | .recycleAll => some (s.recycleAll o)
  | .destroy => some s.destroy

abbrev Reachable : ParseWorkerPool → Prop := Transitions.Reachable (construct o) (step o)

end ParseWorkerPool

end CodeGraph.Extraction.ParsePool
