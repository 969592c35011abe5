import CodeGraph.Foundation.Promises
import CodeGraph.Foundation.Transitions

/-!
# The store writer

`StoreWriter` of `extraction/store-writer.ts` on the main thread and the message handler of
`extraction/store-worker.ts`, with the messages between them. Bundles are numbered in the order they
are sent; a promise of `drain` keeps how many were sent before it.
-/
namespace CodeGraph.Extraction.StoreWriter

open Promises Transitions

inductive InMessage where
  | open
  | bundle (index : Nat)
  | drain (id : Nat)
  | close
  deriving DecidableEq

inductive Reply where
  | ready
  | ack
  | drained (id : Nat)
  | error (message : String)
  deriving DecidableEq

/-- The store worker: whether `queries` is set, the messages to come, the replies on their way,
and the code it has exited with, if it has. `uncaught` is an error the main thread is yet to hear
of. The bundles it has handled and applied are recorded. -/
structure Worker where
  opened : Bool
  inbox : List InMessage
  replies : List Reply
  died : Option Int
  uncaught : Bool
  handled : Nat
  applied : List Nat

/-- Handling a message; `thrown` is what its step throws. An error reply doubles as the ack. -/
def Worker.handle (w : Worker) (thrown : Option String) : InMessage → Worker
  | .open =>
    match thrown with
    | none => { w with opened := true, replies := w.replies ++ [.ready] }
    | some message => { w with replies := w.replies ++ [.error message] }
  | .bundle index =>
    let w := { w with handled := w.handled + 1 }
    if w.opened then
      match thrown with
      | none => { w with applied := w.applied ++ [index], replies := w.replies ++ [.ack] }
      | some message => { w with replies := w.replies ++ [.error message] }
    else { w with replies := w.replies ++ [.error "store-worker: bundle before open"] }
  | .drain id =>
    match thrown with
    | none => { w with replies := w.replies ++ [.drained id] }
    | some message => { w with replies := w.replies ++ [.error message] }
  | .close =>
    match thrown with
    | none => { w with died := some 0 }
    | some message => { w with replies := w.replies ++ [.error message] }

/-! ### The writer -/

inductive Kind where
  | ready
  | drain (sentBefore : Nat)
  | below (limit : Nat)
  deriving DecidableEq

inductive Failure where
  | reply (message : String)
  | uncaught
  | exited (code : Int)
  | exitedBeforeDrain
  deriving DecidableEq

/-- The writer and its worker. A waiter is kept with the number of its promise. -/
structure State where
  firstError : Option Failure
  drainWaiters : List (Nat × Nat)
  nextDrainId : Nat
  exited : Bool
  outstanding : Nat
  belowWaiters : List (Nat × Nat)
  promises : List (Promise Kind)
  sent : Nat
  worker : Worker

/-- The promise of `ready`, the first one made. -/
def readyPromise : Nat := 0

def State.constructed : State where
  firstError := none
  drainWaiters := []
  nextDrainId := 0
  exited := false
  outstanding := 0
  belowWaiters := []
  promises := [⟨.ready, .pending⟩]
  sent := 0
  worker := ⟨false, [.open], [], none, false, 0, []⟩

def State.post (s : State) (message : InMessage) : State :=
  { s with worker := { s.worker with inbox := s.worker.inbox ++ [message] } }

def State.failAll (s : State) (failure : Failure) : State :=
  { s with
    firstError := s.firstError.or (some failure)
    promises := settle (s.belowWaiters.map Prod.snd) .resolved
      (settle (s.drainWaiters.map Prod.snd) .rejected s.promises)
    drainWaiters := []
    outstanding := 0
    belowWaiters := [] }

def State.settleOne (s : State) : State :=
  let outstanding := s.outstanding - 1
  { s with
    outstanding
    promises := settle ((s.belowWaiters.filter (outstanding < ·.1)).map Prod.snd) .resolved s.promises
    belowWaiters := s.belowWaiters.filter (¬outstanding < ·.1) }

/-- `readyReject`. -/
def State.readyReject (s : State) : State :=
  { s with promises := settle [readyPromise] .rejected s.promises }

/-- The worker's `message` event. -/
def State.onMessage (s : State) : Reply → State
  | .ready => { s with promises := settle [readyPromise] .resolved s.promises }
  | .ack => s.settleOne
  | .drained id =>
    match s.drainWaiters.find? (·.1 == id) with
    | none => s
    | some waiter =>
      { s with
        drainWaiters := s.drainWaiters.filter (·.1 != id)
        promises := settle [waiter.2] (if s.firstError.isSome then .rejected else .resolved) s.promises }
  | .error message =>
    { s with firstError := s.firstError.or (some (.reply message)) }.settleOne

/-- The worker's `error` event. -/
def State.onError (s : State) : State := (s.failAll .uncaught).readyReject

/-- The worker's `exit` event. -/
def State.onExit (s : State) (code : Int) : State :=
  let s := { s with exited := true }
  if code ≠ 0 then (s.failAll (.exited code)).readyReject
  else if s.drainWaiters ≠ [] ∨ s.belowWaiters ≠ [] then s.failAll .exitedBeforeDrain
  else s

/-- `send`; a writer that has failed or exited throws instead. -/
def State.send (s : State) : State :=
  if s.firstError.isSome ∨ s.exited then s
  else { s with outstanding := s.outstanding + 1, sent := s.sent + 1 }.post (.bundle s.sent)

def State.waitBelow (s : State) (limit : Nat) : State :=
  if s.firstError.isSome ∨ s.exited ∨ s.outstanding < limit then
    { s with promises := s.promises ++ [⟨.below limit, .resolved⟩] }
  else
    { s with
      promises := s.promises ++ [⟨.below limit, .pending⟩]
      belowWaiters := s.belowWaiters ++ [(limit, s.promises.length)] }

def State.drain (s : State) : State :=
  if s.firstError.isSome ∨ s.exited then
    { s with promises := s.promises ++ [⟨.drain s.sent, .rejected⟩] }
  else
    let waiting : State := { s with
      nextDrainId := s.nextDrainId + 1
      promises := s.promises ++ [⟨.drain s.sent, .pending⟩]
      drainWaiters := s.drainWaiters ++ [(s.nextDrainId, s.promises.length)] }
    waiting.post (.drain s.nextDrainId)

/-- The message `close` posts. -/
def State.close (s : State) : State := if s.exited then s else s.post .close

inductive Event where
  | send
  | waitBelow (limit : Nat)
  | drain
  | close
  /-- The worker handles its next message. -/
  | handle (thrown : Option String)
  /-- The main thread takes the next reply. -/
  | message
  /-- The worker ends by an error outside its handler. -/
  | crash
  | exit (code : Int)
  | onError
  | onExit
  deriving DecidableEq

/-- One event, if it can happen. The main thread hears of the exit after every reply. -/
def step (s : State) : Event → Option State
  | .send => some s.send
  | .waitBelow limit => some (s.waitBelow limit)
  | .drain => some s.drain
  | .close => some s.close
  | .handle thrown =>
    match s.worker.died, s.worker.inbox with
    | none, message :: inbox =>
      some { s with worker := { s.worker with inbox }.handle thrown message }
    | _, _ => none
  | .message =>
    match s.worker.replies with
    | reply :: replies => some ({ s with worker := { s.worker with replies } }.onMessage reply)
    | [] => none
  | .crash =>
    if s.worker.died = none then
      some { s with worker := { s.worker with died := some 1, uncaught := true } }
    else none
  | .exit code =>
    if s.worker.died = none then some { s with worker := { s.worker with died := some code } }
    else none
  | .onError =>
    if s.worker.uncaught then some { s with worker := { s.worker with uncaught := false } }.onError
    else none
  | .onExit =>
    match s.worker.died with
    | some code =>
      if s.worker.replies = [] ∧ s.worker.uncaught = false ∧ s.exited = false then some (s.onExit code)
      else none
    | none => none

end CodeGraph.Extraction.StoreWriter
