import CodeGraph.Foundation.Transitions

/-!
# The WAL checkpoint valve

One step is one task of the event loop: a tick of the timer, a call of the writer, or a checkpoint
that settles, each with the continuations that run before the next task.
-/
namespace CodeGraph.Db.WalValve

def HARD_CAP_MULTIPLIER : ℚ := 2
def FILE_CAP_MULTIPLIER : ℚ := 4
def MAX_PAUSED_BACKFILL_PASSES : Nat := 20

structure CheckpointResult where
  busy : Int
  log : Int
  checkpointed : Int
  deriving DecidableEq, Repr

def CheckpointResult.Complete (res : CheckpointResult) : Prop :=
  res.busy = 0 ∧ res.log = res.checkpointed

instance (res : CheckpointResult) : Decidable res.Complete :=
  inferInstanceAs (Decidable (_ ∧ _))

/-- How the promise of a checkpoint settles; `ε` is what a checkpoint can throw. -/
inductive Outcome (ε : Type) where
  | fulfilled (res : Option CheckpointResult)
  | rejected (error : ε)
  deriving DecidableEq

structure WalValveAbortError where
  message : String
  walBytes : Nat
  fileCapBytes : ℚ
  hardBytes : ℚ
  deriving DecidableEq

inductive Failure (ε : Type) where
  | abort (error : WalValveAbortError)
  | checkpoint (error : ε)
  deriving DecidableEq

/-- What `getWalSizeBytes` answers in one task. The file can change between two of its reads. -/
structure Sizes where
  /-- To the valve itself. -/
  wal : Nat
  /-- To `growthBytes`. -/
  grown : Nat

structure Caps where
  softBytes : ℚ
  hardBytes : ℚ
  fileCapBytes : ℚ

def Caps.ofMb (softMb : ℚ) : Caps where
  softBytes := softMb * 1024 * 1024
  hardBytes := softMb * 1024 * 1024 * HARD_CAP_MULTIPLIER
  fileCapBytes := softMb * 1024 * 1024 * FILE_CAP_MULTIPLIER

inductive Continuation (ε : Type) where
  /-- The handlers that `fire` attaches. -/
  | fire
  /-- `backfillFully`, after the passive checkpoint of iteration `i`; the passes before it. -/
  | passive (i : Nat) (passes : List (Outcome ε))
  /-- `backfillFully`, after the truncation. -/
  | truncate (passes : List (Outcome ε))

structure Checkpoint (ε : Type) where
  id : Nat
  continuation : Continuation ε

inductive Writer where
  | idle
  /-- Awaits the promise of `backpressure`. -/
  | parked
  /-- In `foldNow`, where `drain` awaits `this.pause`. -/
  | drainingPause
  /-- In `foldNow`, where `drain` awaits `this.inflight`. -/
  | drainingInflight (id : Nat)
  /-- In `foldNow`, awaiting its own pause. -/
  | folding
  deriving DecidableEq

structure State (ε : Type) where
  inflight : Option Nat
  /-- `this.pause` is set. -/
  pause : Bool
  sizeAtLastFullBackfill : Nat
  consecutiveGiveUps : Nat
  /-- `backfillFully` waits, in an iteration, for a pass that the timer fired. -/
  foldsIn : Option (Nat × Nat × List (Outcome ε))
  checkpoints : List (Checkpoint ε)
  nextId : Nat
  writer : Writer

def start {ε : Type} : State ε where
  inflight := none
  pause := false
  sizeAtLastFullBackfill := 0
  consecutiveGiveUps := 0
  foldsIn := none
  checkpoints := []
  nextId := 0
  writer := .idle

inductive Call where
  | backpressure
  | foldNow
  deriving DecidableEq

inductive Answer (ε : Type) where
  | null
  | settled (verdict : Except (Failure ε) Unit)

/-- What the writer hears of a call, with the outcomes of the passes that its pause ran. -/
structure Report (ε : Type) where
  call : Call
  answer : Answer ε
  passes : List (Outcome ε)

/-! ### Messages -/

/-- `Math.round` of the size in megabytes. -/
def mb (n : ℚ) : String := toString ⌊n / 1024 / 1024 + 1 / 2⌋ ++ "MB"

def unavailableMessage (caps : Caps) (walBytes : Nat) : String :=
  "WAL checkpoint machinery unavailable while over the documented cap " ++
  "(wal=" ++ mb walBytes ++ ", fileCap=" ++ mb caps.fileCapBytes ++ "). " ++
  "Aborting to avoid unbounded disk growth."

def pinnedMessage (caps : Caps) (walBytes : Nat) (growth : Int) (giveUps : Nat) : String :=
  "WAL checkpoint cannot progress while a reader pins frames " ++
  "(wal=" ++ mb walBytes ++ ", growth=" ++ mb growth ++ ", " ++
  "fileCap=" ++ mb caps.fileCapBytes ++ ", hard=" ++ mb caps.hardBytes ++ ", " ++
  "give-ups=" ++ toString giveUps ++ "). Aborting to avoid unbounded disk growth. " ++
  "Close concurrent readers (for example the MCP query pool) and retry, " ++
  "or raise CODEGRAPH_WAL_VALVE_MB if the threshold is too tight for this project."

namespace State

variable {ε : Type} (caps : Caps)

def growthBytes (s : State ε) (sizes : Sizes) : Int := sizes.grown - s.sizeAtLastFullBackfill

def OverCap (s : State ε) (sizes : Sizes) : Prop :=
  caps.fileCapBytes < sizes.wal ∨ caps.hardBytes < s.growthBytes sizes

instance (s : State ε) (sizes : Sizes) : Decidable (s.OverCap caps sizes) :=
  inferInstanceAs (Decidable (_ ∨ _))

def ask (s : State ε) (continuation : Continuation ε) : State ε :=
  { s with
    checkpoints := s.checkpoints ++ [⟨s.nextId, continuation⟩]
    nextId := s.nextId + 1 }

def fire (s : State ε) : State ε := { s.ask .fire with inflight := some s.nextId }

def check (s : State ε) (sizes : Sizes) : State ε :=
  if s.pause = false ∧ s.inflight = none ∧ caps.softBytes < s.growthBytes sizes then s.fire
  else s

/-! ### `backfillFully` -/

/-- The head of iteration `i`, up to what it awaits. -/
def iteration (s : State ε) (i : Nat) (passes : List (Outcome ε)) : State ε :=
  match s.inflight with
  | some id => { s with foldsIn := some (id, i, passes) }
  | none => s.ask (.passive i passes)

/-- The call of `backfillFully`, which sets `this.pause`. -/
def backfillFully (s : State ε) : State ε := { s.iteration 0 [] with pause := true }

/-- The loop of `drain`, then what `foldNow` does after it. -/
def drain (s : State ε) (sizes : Sizes) : State ε × Option (Report ε) :=
  if s.pause then ({ s with writer := .drainingPause }, none)
  else match s.inflight with
  | some id => ({ s with writer := .drainingInflight id }, none)
  | none =>
    if s.growthBytes sizes ≤ 0 then
      ({ s with writer := .idle }, some ⟨.foldNow, .settled (.ok ()), []⟩)
    else ({ s.backfillFully with writer := .folding }, none)

/-- `backfillFully` settles: its `finally`, then whoever awaits it. -/
def release (s : State ε) (passes : List (Outcome ε)) (verdict : Except (Failure ε) Unit)
    (sizes : Sizes) : State ε × Option (Report ε) :=
  let s := { s with pause := false }
  match s.writer with
  | .parked => ({ s with writer := .idle }, some ⟨.backpressure, .settled verdict, passes⟩)
  | .folding => ({ s with writer := .idle }, some ⟨.foldNow, .settled verdict, passes⟩)
  | .drainingPause =>
    match verdict with
    | .ok () => s.drain sizes
    | .error _ => ({ s with writer := .idle }, some ⟨.foldNow, .settled verdict, passes⟩)
  | .idle | .drainingInflight _ => (s, none)

def unavailable (s : State ε) (passes : List (Outcome ε)) (sizes : Sizes) :
    State ε × Option (Report ε) :=
  let verdict :=
    if s.OverCap caps sizes then
      .error (.abort
        ⟨unavailableMessage caps sizes.wal, sizes.wal, caps.fileCapBytes, caps.hardBytes⟩)
    else .ok ()
  s.release passes verdict sizes

def giveUp (s : State ε) (passes : List (Outcome ε)) (sizes : Sizes) :
    State ε × Option (Report ε) :=
  let s := { s with consecutiveGiveUps := s.consecutiveGiveUps + 1 }
  let message := pinnedMessage caps sizes.wal (s.growthBytes sizes) s.consecutiveGiveUps
  let verdict :=
    if s.OverCap caps sizes then
      .error (.abort ⟨message, sizes.wal, caps.fileCapBytes, caps.hardBytes⟩)
    else .ok ()
  s.release passes verdict sizes

/-- The passive checkpoint of iteration `i` has settled. -/
def afterPassive (s : State ε) (i : Nat) (passes : List (Outcome ε)) (outcome : Outcome ε)
    (sizes : Sizes) : State ε × Option (Report ε) :=
  let passes := passes ++ [outcome]
  match outcome with
  | .rejected error => s.release passes (.error (.checkpoint error)) sizes
  | .fulfilled none => s.unavailable caps passes sizes
  | .fulfilled (some res) =>
    if res.Complete then (s.ask (.truncate passes), none)
    else if i + 1 < MAX_PAUSED_BACKFILL_PASSES then (s.iteration (i + 1) passes, none)
    else s.giveUp caps passes sizes

def afterTruncate (s : State ε) (passes : List (Outcome ε)) (outcome : Outcome ε)
    (sizes : Sizes) : State ε × Option (Report ε) :=
  match outcome with
  | .rejected error => s.release passes (.error (.checkpoint error)) sizes
  | .fulfilled _ =>
    { s with sizeAtLastFullBackfill := sizes.wal, consecutiveGiveUps := 0 }.release passes (.ok ())
      sizes

/-- The pass `id` that the timer fired has settled: its handlers, then whoever awaits it. -/
def afterFire (s : State ε) (id : Nat) (outcome : Outcome ε) (sizes : Sizes) :
    State ε × Option (Report ε) :=
  let s :=
    match outcome with
    | .fulfilled (some res) =>
      if res.Complete then { s with sizeAtLastFullBackfill := sizes.wal } else s
    | .fulfilled none | .rejected _ => s
  let s := if s.inflight = some id then { s with inflight := none } else s
  let s :=
    match s.foldsIn with
    | some (awaited, i, passes) =>
      if awaited = id then { s with foldsIn := none }.ask (.passive i passes) else s
    | none => s
  if s.writer = .drainingInflight id then s.drain sizes else (s, none)

def backpressure (s : State ε) (sizes : Sizes) : State ε × Option (Report ε) :=
  if s.pause then ({ s with writer := .parked }, none)
  else if s.growthBytes sizes ≤ caps.hardBytes ∧ sizes.wal ≤ caps.fileCapBytes then
    (s, some ⟨.backpressure, .null, []⟩)
  else ({ s.backfillFully with writer := .parked }, none)

def resume (s : State ε) (id : Nat) (continuation : Continuation ε) (outcome : Outcome ε)
    (sizes : Sizes) : State ε × Option (Report ε) :=
  match continuation with
  | .fire => s.afterFire id outcome sizes
  | .passive i passes => s.afterPassive caps i passes outcome sizes
  | .truncate passes => s.afterTruncate passes outcome sizes

def settle (s : State ε) (id : Nat) (outcome : Outcome ε) (sizes : Sizes) :
    Option (State ε × Option (Report ε)) :=
  (s.checkpoints.find? fun checkpoint => checkpoint.id = id).map fun checkpoint =>
    { s with checkpoints := s.checkpoints.filter fun other => other.id ≠ id }.resume caps id
      checkpoint.continuation outcome sizes

end State

inductive Event (ε : Type) where
  | check (sizes : Sizes)
  | backpressure (sizes : Sizes)
  | foldNow (sizes : Sizes)
  | settle (id : Nat) (outcome : Outcome ε) (sizes : Sizes)

variable {ε : Type}

def Event.sizes : Event ε → Sizes
  | .check sizes | .backpressure sizes | .foldNow sizes | .settle _ _ sizes => sizes

def step (caps : Caps) (s : State ε) : Event ε → Option (State ε × Option (Report ε))
  | .check sizes => some (s.check caps sizes, none)
  | .backpressure sizes => if s.writer = .idle then some (s.backpressure caps sizes) else none
  | .foldNow sizes => if s.writer = .idle then some (s.drain sizes) else none
  | .settle id outcome sizes => s.settle caps id outcome sizes

def next (caps : Caps) (s : State ε) (e : Event ε) : Option (State ε) :=
  (step caps s e).map Prod.fst

end CodeGraph.Db.WalValve
