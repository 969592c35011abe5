import CodeGraph.Foundation.InsertionMap
import CodeGraph.Foundation.Transitions

/-! The pool of resolver workers (`resolution/resolver-pool.ts`): one step for each event that the
main thread handles. -/
namespace CodeGraph.Resolution

open InsertionMap

/-- What the pool passes on and does not look into. -/
structure PoolTypes where
  Ref : Type
  Resolved : Type
  Unresolved : Type
  SynthPassResult : Type
  NearDupBody : Type
  NearDupSignature : Type

structure KernelResolveStats where
  handled : Nat
  frameworkMerge : Option Nat
  frameworkMergeWithCands : Option Nat
  deriving DecidableEq

structure ChunkResult (T : PoolTypes) where
  resolved : List T.Resolved
  unresolved : List T.Unresolved
  deferredChain : List T.Unresolved
  deferredThisMember : List T.Unresolved
  byMethod : List (String × Nat)
  kernel : Option KernelResolveStats

namespace ResolverPool

def CHUNK_SIZE : Nat := 500

def MIN_CHUNK_SIZE : Nat := 250

inductive Failure where
  | worker (message : String)
  | uncaught (message : String)
  | exitCode (code : Nat)
  | exitedUnready
  | recycleTimedOut
  | destroyed
  deriving DecidableEq, Repr

inductive Outcome (T : PoolTypes) where
  | chunk (result : ChunkResult T)
  | pass (result : T.SynthPassResult)
  | signed (results : List T.NearDupSignature)
  | recycled
  | rejected (err : Failure)

inductive Kind where
  | chunk
  | pass
  | signing
  | recycle
  deriving DecidableEq, Repr

inductive Message (T : PoolTypes) where
  | resolve (id : Nat) (refs : List T.Ref)
  | synth (id : Nat) (pass : String)
  | nearDupSign (id : Nat) (bodies : List T.NearDupBody)
  | recycle (id : Nat)

variable {T : PoolTypes}

def Message.tag : Message T → Kind × Nat
  | .resolve id _ => (.chunk, id)
  | .synth id _ => (.pass, id)
  | .nearDupSign id _ => (.signing, id)
  | .recycle id => (.recycle, id)

def Message.counts (m : Message T) : Bool := m.tag.1 ≠ .recycle

structure PoolWorker (T : PoolTypes) where
  busy : Int
  /-- How the promise that the worker is ready has settled. -/
  ready : Option (Option Failure)
  exited : Bool
  /-- Whether the worker has still to answer the message that opens it. -/
  opening : Bool
  /-- The messages that the worker was sent and has not answered. -/
  owed : List (Message T)

def PoolWorker.inFlight (w : PoolWorker T) : Nat := w.owed.countP Message.counts

/-- A call of `resolveBatch`: its references, and the chunks with their promises. -/
structure Batch (T : PoolTypes) where
  refs : List T.Ref
  chunks : List (Nat × List T.Ref)

end ResolverPool

open ResolverPool

structure ResolverPool (T : PoolTypes) where
  workers : List (PoolWorker T)
  nextId : Nat
  waiters : List Nat
  synthWaiters : List Nat
  signWaiters : List Nat
  /-- Whether the timer of a recycle is armed. -/
  recycleWaiters : List (Nat × Bool)
  paused : Bool
  failed : Option Failure
  opened : Bool
  pendingChunks : List (Nat × List T.Ref)
  /-- The promises that were resolved or rejected, in this order. -/
  settled : List (Nat × Outcome T)
  batches : List (Batch T)
  /-- The messages that were posted, and the workers they were posted to. -/
  posted : List (Nat × Message T)
  /-- The chunks that a worker has answered. -/
  answered : List ((Nat × List T.Ref) × ChunkResult T)
  /-- The workers that the calls of `destroy` still wait for. -/
  closing : List (List Nat)

namespace ResolverPool

variable {T : PoolTypes}

/-! ### Chunks and their results -/

def resolveChunkSize (refs workers : Nat) : Nat :=
  let targetChunks := max 1 (min workers (max 4 ((refs + MIN_CHUNK_SIZE - 1) / MIN_CHUNK_SIZE)))
  min CHUNK_SIZE (max 1 ((refs + targetChunks - 1) / targetChunks))

/-- The slices of a list; there is fuel for one slice an item. -/
def slices {α : Type} (size : Nat) : Nat → List α → List (List α)
  | 0, _ => []
  | fuel + 1, xs => if xs = [] then [] else xs.take size :: slices size fuel (xs.drop size)

def numbered {α : Type} (first : Nat) (xs : List α) : List (Nat × α) :=
  xs.zipIdx.map fun (x, i) => (first + i, x)

def addKernel (out : Option KernelResolveStats) : Option KernelResolveStats → Option KernelResolveStats
  | none => out
  | some c =>
    let out := out.getD ⟨0, none, none⟩
    some
      { handled := out.handled + c.handled
        frameworkMerge := some (out.frameworkMerge.getD 0 + c.frameworkMerge.getD 0)
        frameworkMergeWithCands :=
          some (out.frameworkMergeWithCands.getD 0 + c.frameworkMergeWithCands.getD 0) }

def addChunk (out c : ChunkResult T) : ChunkResult T where
  resolved := out.resolved ++ c.resolved
  unresolved := out.unresolved ++ c.unresolved
  deferredChain := out.deferredChain ++ c.deferredChain
  deferredThisMember := out.deferredThisMember ++ c.deferredThisMember
  byMethod := c.byMethod.foldl
    (fun by_ (k, v) => assign by_ k ((lookup by_ k).getD 0 + v)) out.byMethod
  kernel := addKernel out.kernel c.kernel

def merged (chunks : List (ChunkResult T)) : ChunkResult T :=
  chunks.foldl addChunk ⟨[], [], [], [], [], none⟩

def outcome (s : ResolverPool T) (id : Nat) : Option (Outcome T) := lookup s.settled id

def chunkResults (s : ResolverPool T) (chunks : List (Nat × List T.Ref)) :
    Option (List (ChunkResult T)) :=
  chunks.mapM fun chunk =>
    match s.outcome chunk.1 with
    | some (.chunk result) => some result
    | _ => none

/-- What the call of `resolveBatch` has resolved with. -/
def batchResult (s : ResolverPool T) (batch : Batch T) : Option (ChunkResult T) :=
  (s.chunkResults batch.chunks).map merged

/-! ### Posting -/

def leastBusy (workers : List (PoolWorker T)) : Option (PoolWorker T × Nat) :=
  workers.zipIdx.foldl (fun best w =>
    if best.any (fun b => b.1.busy ≤ w.1.busy) then best else some w) none

def updateWorker (s : ResolverPool T) (w : Nat) (f : PoolWorker T → PoolWorker T) : ResolverPool T :=
  { s with workers := s.workers.modify w f }

def postMessage (s : ResolverPool T) (w : Nat) (m : Message T) : ResolverPool T :=
  { s.updateWorker w fun v => { v with owed := v.owed ++ [m] } with posted := s.posted ++ [(w, m)] }

def postCounted (s : ResolverPool T) (w : Nat) (m : Message T) : ResolverPool T :=
  (s.updateWorker w fun v => { v with busy := v.busy + 1 }).postMessage w m

/-- The loop of `pumpDispatch`, along the queue. -/
def pumpQueue (s : ResolverPool T) : List (Nat × List T.Ref) → ResolverPool T
  | [] => { s with pendingChunks := [] }
  | item :: rest =>
    match leastBusy s.workers with
    | none => { s with pendingChunks := item :: rest }
    | some (pw, w) =>
      if 4 ≤ pw.busy then { s with pendingChunks := item :: rest }
      else
        pumpQueue ({ s with waiters := s.waiters ++ [item.1] }.postCounted w
          (.resolve item.1 item.2)) rest

def pumpDispatch (s : ResolverPool T) : ResolverPool T :=
  if s.paused then s else s.pumpQueue s.pendingChunks

def settle (s : ResolverPool T) (ids : List Nat) (outcome : Outcome T) : ResolverPool T :=
  { s with settled := s.settled ++ ids.map fun id => (id, outcome) }

def PoolWorker.settleReady (w : PoolWorker T) (outcome : Option Failure) : PoolWorker T :=
  { w with ready := some (w.ready.getD outcome) }

def fail (s : ResolverPool T) (err : Failure) : ResolverPool T :=
  let err := s.failed.getD err
  let s : ResolverPool T := { s with
    failed := some err
    workers := s.workers.map (·.settleReady (some err)) }
  let s := { s.settle s.waiters (.rejected err) with waiters := [] }
  let s := { s.settle (s.pendingChunks.map Prod.fst) (.rejected err) with pendingChunks := [] }
  let s := { s.settle s.synthWaiters (.rejected err) with synthWaiters := [] }
  let s := { s.settle s.signWaiters (.rejected err) with signWaiters := [] }
  { s.settle (s.recycleWaiters.map Prod.fst) .recycled with recycleWaiters := [] }

/-! ### Calls -/

def openPool (s : ResolverPool T) : ResolverPool T :=
  if s.opened then s
  else { s with opened := true, workers := s.workers.map fun w => { w with opening := true } }

def pauseDispatch (s : ResolverPool T) : ResolverPool T := { s with paused := true }

def resumeDispatch (s : ResolverPool T) : ResolverPool T := { s with paused := false }.pumpDispatch

def resolveBatch (s : ResolverPool T) (refs : List T.Ref) : ResolverPool T :=
  if s.failed.isSome then s
  else
    let size := resolveChunkSize refs.length s.workers.length
    let chunks := numbered s.nextId (slices size refs.length refs)
    { s with
      nextId := s.nextId + chunks.length
      pendingChunks := s.pendingChunks ++ chunks
      batches := s.batches ++ [Batch.mk refs chunks] }.pumpDispatch

def runSynthPass (s : ResolverPool T) (pass : String) : ResolverPool T :=
  if s.failed.isSome then s
  else
    match leastBusy s.workers with
    | none => s
    | some (_, w) =>
      { s with nextId := s.nextId + 1, synthWaiters := s.synthWaiters ++ [s.nextId] }.postCounted w
        (.synth s.nextId pass)

/-- The lanes of `signNearDuplicates` that are not empty. -/
def signLanes (s : ResolverPool T) (bodies : List T.NearDupBody) : List (List T.NearDupBody) :=
  let lanes := min s.workers.length (min 8 (max 1 ((bodies.length + 255) / 256)))
  let per := (bodies.length + lanes - 1) / lanes
  ((List.range lanes).map fun k =>
    (bodies.zipIdx.filter fun (_, i) => min (lanes - 1) (i / per) = k).map Prod.fst).filter (!·.isEmpty)

def signLane (s : ResolverPool T) (bodies : List T.NearDupBody) : ResolverPool T :=
  match leastBusy s.workers with
  | none => s
  | some (_, w) =>
    { s with nextId := s.nextId + 1, signWaiters := s.signWaiters ++ [s.nextId] }.postCounted w
      (.nearDupSign s.nextId bodies)

def signNearDuplicates (s : ResolverPool T) (bodies : List T.NearDupBody) : ResolverPool T :=
  if s.failed.isSome then s else (s.signLanes bodies).foldl signLane s

def recycleWorker (s : ResolverPool T) (w : Nat) : ResolverPool T :=
  { s with
    nextId := s.nextId + 1
    recycleWaiters := s.recycleWaiters ++ [(s.nextId, false)] }.postMessage w (.recycle s.nextId)

def recycleWorkers (s : ResolverPool T) : ResolverPool T :=
  if s.failed.isSome then s else (List.range s.workers.length).foldl recycleWorker s

def destroy (s : ResolverPool T) : ResolverPool T :=
  let s := { s.settle (s.recycleWaiters.map Prod.fst) .recycled with recycleWaiters := [] }
  let s := { s.settle (s.pendingChunks.map Prod.fst) (.rejected .destroyed) with pendingChunks := [] }
  { s with closing := s.closing ++ [List.range s.workers.length] }

/-! ### Messages and events of the workers -/

def PoolWorker.answer (w : PoolWorker T) (tag : Kind × Nat) : PoolWorker T :=
  { w with owed := w.owed.eraseP (·.tag = tag) }

def countDown (s : ResolverPool T) (w : Nat) : ResolverPool T :=
  s.updateWorker w fun v => { v with busy := v.busy - 1 }

def onReady (s : ResolverPool T) (w : Nat) : ResolverPool T :=
  s.updateWorker w (·.settleReady none)

def onResult (s : ResolverPool T) (w id : Nat) (result : ChunkResult T) : ResolverPool T :=
  let s := s.countDown w
  let waits := id ∈ s.waiters
  let s := { s with waiters := s.waiters.erase id }.pumpDispatch
  if waits then s.settle [id] (.chunk result) else s

def onSynthResult (s : ResolverPool T) (w id : Nat) (result : T.SynthPassResult) : ResolverPool T :=
  let s := s.countDown w
  if id ∈ s.synthWaiters then
    { s with synthWaiters := s.synthWaiters.erase id }.settle [id] (.pass result)
  else s

def onNearDupSigned (s : ResolverPool T) (w id : Nat) (results : List T.NearDupSignature) :
    ResolverPool T :=
  let s := s.countDown w
  if id ∈ s.signWaiters then
    { s with signWaiters := s.signWaiters.erase id }.settle [id] (.signed results)
  else s

def onRecycling (s : ResolverPool T) (id : Nat) : ResolverPool T :=
  { s with recycleWaiters := s.recycleWaiters.map fun e => if e.1 = id then (id, true) else e }

def onRecycled (s : ResolverPool T) (id : Nat) : ResolverPool T :=
  if id ∈ s.recycleWaiters.map Prod.fst then
    { s with recycleWaiters := unassign s.recycleWaiters id }.settle [id] .recycled
  else s

def onError (s : ResolverPool T) (w : Nat) (id : Option Nat) (message : String) : ResolverPool T :=
  let s := (s.countDown w).pumpDispatch
  let err := Failure.worker message
  match id with
  | none => s.fail err
  | some id =>
    if id ∈ s.waiters then
      { s with waiters := s.waiters.erase id }.settle [id] (.rejected err)
    else if id ∈ s.synthWaiters then
      { s with synthWaiters := s.synthWaiters.erase id }.settle [id] (.rejected err)
    else if id ∈ s.signWaiters then
      { s with signWaiters := s.signWaiters.erase id }.settle [id] (.rejected err)
    else s.fail err

/-- The `error` event of a worker. -/
def onUncaught (s : ResolverPool T) (w : Nat) (message : String) : ResolverPool T :=
  let s := s.fail (.uncaught message)
  s.updateWorker w (·.settleReady s.failed)

def PoolWorker.exit (w : PoolWorker T) (failed : Option Failure) : PoolWorker T :=
  { w.settleReady (some (failed.getD .exitedUnready)) with exited := true }

def onExit (s : ResolverPool T) (w code : Nat) : ResolverPool T :=
  let s := if code ≠ 0 then s.fail (.exitCode code) else s
  let s := s.updateWorker w (·.exit s.failed)
  { s with closing := s.closing.map (·.erase w) }

/-- The timer of a recycle; the promise is rejected after those that `fail` settles. -/
def onRecycleTimeout (s : ResolverPool T) (id : Nat) : ResolverPool T :=
  let s := { s with recycleWaiters := unassign s.recycleWaiters id }.fail .recycleTimedOut
  s.settle [id] (.rejected .recycleTimedOut)

inductive Event (T : PoolTypes) where
  | openPool
  | pauseDispatch
  | resumeDispatch
  | resolveBatch (refs : List T.Ref)
  | runSynthPass (pass : String)
  | signNearDuplicates (bodies : List T.NearDupBody)
  | recycleWorkers
  | destroy
  | ready (w : Nat)
  | openFailed (w : Nat) (message : String)
  | result (w id : Nat) (result : ChunkResult T)
  | synthResult (w id : Nat) (result : T.SynthPassResult)
  | nearDupSigned (w id : Nat) (results : List T.NearDupSignature)
  | recycling (w id : Nat)
  | recycled (w id : Nat)
  /-- A worker answers a message with an error. -/
  | error (w : Nat) (kind : Kind) (id : Nat) (message : String)
  | uncaught (w : Nat) (message : String)
  | exit (w code : Nat)
  | recycleTimeout (id : Nat)
  /-- A call of `destroy` has terminated a worker that did not exit in time. -/
  | terminated (call w : Nat)

def live (s : ResolverPool T) (w : Nat) : Bool := s.workers[w]?.any (!·.exited)

def owedTo (s : ResolverPool T) (w : Nat) (tag : Kind × Nat) : Option (Message T) :=
  (s.workers[w]?.filter (!·.exited)).bind fun v => v.owed.find? (·.tag = tag)

def answer (s : ResolverPool T) (w : Nat) (tag : Kind × Nat) : ResolverPool T :=
  s.updateWorker w (·.answer tag)

def step (s : ResolverPool T) : Event T → Option (ResolverPool T)
  | .openPool => some s.openPool
  | .pauseDispatch => some s.pauseDispatch
  | .resumeDispatch => some s.resumeDispatch
  | .resolveBatch refs => some (s.resolveBatch refs)
  | .runSynthPass pass => some (s.runSynthPass pass)
  | .signNearDuplicates bodies => some (s.signNearDuplicates bodies)
  | .recycleWorkers => some s.recycleWorkers
  | .destroy => some s.destroy
  | .ready w =>
    if s.live w ∧ s.workers[w]?.any (·.opening) then
      some ((s.updateWorker w fun v => { v with opening := false }).onReady w)
    else none
  | .openFailed w message =>
    if s.live w ∧ s.workers[w]?.any (·.opening) then
      some ((s.updateWorker w fun v => { v with opening := false }).onError w none message)
    else none
  | .result w id result =>
    match s.owedTo w (.chunk, id) with
    | some (.resolve _ refs) =>
      some ({ s.answer w (.chunk, id) with answered := s.answered ++ [((id, refs), result)] }.onResult
        w id result)
    | _ => none
  | .synthResult w id result =>
    (s.owedTo w (.pass, id)).map fun _ => (s.answer w (.pass, id)).onSynthResult w id result
  | .nearDupSigned w id results =>
    (s.owedTo w (.signing, id)).map fun _ => (s.answer w (.signing, id)).onNearDupSigned w id results
  | .recycling w id => (s.owedTo w (.recycle, id)).map fun _ => s.onRecycling id
  | .recycled w id =>
    (s.owedTo w (.recycle, id)).map fun _ => (s.answer w (.recycle, id)).onRecycled id
  | .error w kind id message =>
    (s.owedTo w (kind, id)).map fun _ => (s.answer w (kind, id)).onError w (some id) message
  | .uncaught w message => if s.live w then some (s.onUncaught w message) else none
  | .exit w code => if s.live w then some (s.onExit w code) else none
  | .recycleTimeout id =>
    if (id, true) ∈ s.recycleWaiters then some (s.onRecycleTimeout id) else none
  | .terminated call w =>
    if w < s.workers.length ∧ s.live w = false then
      some { s with closing := s.closing.modify call (·.erase w) }
    else none

def construct (T : PoolTypes) (size : Nat) : ResolverPool T where
  workers := List.replicate size ⟨0, none, false, false, []⟩
  nextId := 0
  waiters := []
  synthWaiters := []
  signWaiters := []
  recycleWaiters := []
  paused := false
  failed := none
  opened := false
  pendingChunks := []
  settled := []
  batches := []
  posted := []
  answered := []
  closing := []

end ResolverPool

end CodeGraph.Resolution
