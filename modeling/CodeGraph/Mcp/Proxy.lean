import CodeGraph.Foundation.InsertionMap
import CodeGraph.Foundation.Transitions

/-!
The local-handshake proxy before its shutdown: one step for each client line, line of the daemon,
settled promise and timer.

A request that is answered within one step of the proxy is never among the calls that are served
in-process. When a timer fires, when a call finishes and whether a daemon is found are left open.
-/
namespace CodeGraph.Mcp

open InsertionMap

namespace Proxy

/-- A JSON-RPC id. An object or an array is a new value each time it is parsed. -/
structure Id where
  text : String
  scalar : Bool
  deriving DecidableEq, Repr

structure Message where
  id : Option Id
  /-- The method, if it is a string. -/
  method : Option String
  /-- Whether the arguments of a tool call are an object. -/
  objectArguments : Bool
  /-- Whether the name of a tool call can be sliced. -/
  sliceableName : Bool
  deriving DecidableEq, Repr

inductive Line where
  | unparsable (text : String)
  /-- The JSON value `null`. -/
  | null
  | message (m : Message)
  deriving DecidableEq, Repr

inductive DaemonStatus where
  | connecting
  | ready
  | failed
  deriving DecidableEq, Repr

structure Engine where
  number : Nat
  isReadOnly : Bool
  deriving DecidableEq, Repr

/-- A tool call that is served in-process; no engine if none could be made. -/
structure LocalCall where
  number : Nat
  id : Id
  sliceableName : Bool
  engine : Option Engine
  deriving DecidableEq, Repr

/-- An engine that stops once the calls that were being served have answered. -/
structure Retirement where
  engine : Option Engine
  calls : List Nat
  deriving DecidableEq, Repr

inductive Attempt where
  | none
  /-- The `connectDaemon` of the start. -/
  | initial
  /-- `retryDaemon` hands the writer lock back. -/
  | retiring (r : Retirement)
  /-- The `connectDaemon` of `retryDaemon`. -/
  | connecting (handover : Bool)
  deriving DecidableEq, Repr

structure Deps where
  /-- What each call of `makeEngine` gives, if it does not throw: whether the engine only reads. -/
  makeEngine : Nat → Option Bool
  /-- Whether usage is recorded. -/
  telemetry : Bool
  /-- Whether the delay between retries is positive. -/
  retries : Bool

end Proxy

open Proxy

structure Proxy where
  daemonStatus : DaemonStatus
  /-- Whether a daemon is attached. -/
  daemonSocket : Bool
  clientInitId : Option Id
  clientInitLine : Option Message
  pending : List Line
  engine : Option Engine
  localCalls : List LocalCall
  retiring : List Retirement
  inflight : List (Id × Message)
  retryTimer : Bool
  attempt : Attempt
  /-- The calls of `makeEngine` so far. -/
  made : Nat
  /-- The tool calls that were served in-process so far. -/
  served : Nat
  /-- The requests that were written to the attached daemon and not answered by it. -/
  forwarded : List Message
  /-- The ids of the requests that were read. -/
  received : List Id
  /-- The ids of the replies that were written. -/
  replies : List (Option Id)
  /-- Whether an exception has ended the process. -/
  exited : Bool

namespace Proxy

variable (deps : Deps)

def Message.request (m : Message) : Option Id := if m.method.isSome then m.id else none

def Message.isInitialize (m : Message) : Bool := m.method = some "initialize"

/-- A request that `trackInflight` keeps. -/
def Message.tracked (m : Message) : Option Id := if m.isInitialize then none else m.request

def Line.tracked : Line → Option Id
  | .message m => m.tracked
  | _ => none

/-- `===` on ids. -/
def Id.same (i j : Id) : Bool := i.scalar && i = j

def writeClient (s : Proxy) (id : Option Id) : Proxy := { s with replies := s.replies ++ [id] }

def scheduleDaemonRetry (s : Proxy) : Proxy := if deps.retries then { s with retryTimer := true } else s

def ensureEngine (s : Proxy) : Proxy :=
  if s.engine.isSome then s
  else
    { s with
      engine := (deps.makeEngine s.made).map fun readOnly => ⟨s.made, readOnly⟩
      made := s.made + 1 }

def callLocally (s : Proxy) (id : Id) (m : Message) : Proxy :=
  { s with
    localCalls := s.localCalls ++ [⟨s.served, id, m.sliceableName, s.engine⟩]
    served := s.served + 1 }

def serveLocally (s : Proxy) (m : Message) : Proxy :=
  match m.id with
  | none => s
  | some id =>
    if m.method = some "tools/call" then
      if m.objectArguments then (s.ensureEngine deps).callLocally id m else s.writeClient (some id)
    else if m.method = some "ping" then s.writeClient (some id)
    else if m.method ≠ some "initialize" then s.writeClient (some id)
    else s

def handleLocally (s : Proxy) : Line → Proxy
  | .message m => s.serveLocally deps m
  | _ => s

/-- The engine stops later, and is not the session's any more. -/
def retirement (s : Proxy) : Retirement := ⟨s.engine, s.localCalls.map LocalCall.number⟩

def retireEngine (s : Proxy) : Proxy :=
  { s with engine := none, retiring := s.retiring ++ [s.retirement] }

def settled (s : Proxy) (r : Retirement) : Bool :=
  s.localCalls.all fun c => !r.calls.contains c.number

/-! ### The daemon -/

def trackInflight (s : Proxy) : Line → Proxy
  | .message m =>
    match m.tracked with
    | some id =>
      { s with
        inflight := if id.scalar then assign s.inflight id m else s.inflight ++ [(id, m)] }
    | none => s
  | _ => s

def writeDaemon (s : Proxy) : Line → Proxy
  | .message m => if m.request.isSome then { s with forwarded := s.forwarded ++ [m] } else s
  | _ => s

def routeToDaemon (s : Proxy) (line : Line) : Proxy :=
  match s.daemonStatus, s.daemonSocket with
  | .ready, true => (s.trackInflight line).writeDaemon line
  | .failed, _ => s.handleLocally deps line
  | _, _ => { s with pending := s.pending ++ [line] }

def serveBufferedLocally (s : Proxy) : Proxy :=
  s.pending.foldl (handleLocally deps) { s with pending := [] }

def replay (s : Proxy) (replayInitialize : Bool) : Proxy :=
  match replayInitialize, s.clientInitLine with
  | true, some m => s.writeDaemon (.message m)
  | _, _ => s

def attachDaemon (s : Proxy) (replayInitialize : Bool) : Proxy :=
  let s := { s with daemonSocket := true, daemonStatus := .ready }.replay replayInitialize
  let s := s.pending.foldl (fun s line => (s.trackInflight line).writeDaemon line) s
  { s with pending := [] }

def onDaemonLost (s : Proxy) : Proxy :=
  let orphaned := s.inflight.map fun e => Line.message e.2
  let s := { s with daemonStatus := .failed, daemonSocket := false, inflight := [], forwarded := [] }
  (orphaned.foldl (handleLocally deps) s).scheduleDaemonRetry deps

def onReply (s : Proxy) (m : Message) (id : Id) : Proxy :=
  let s := { s with
    forwarded := s.forwarded.erase m
    inflight := if id.scalar then unassign s.inflight id else s.inflight }
  if s.clientInitId.any id.same then s else s.writeClient (some id)

def retryDaemon (s : Proxy) : Proxy :=
  if s.daemonStatus ≠ .failed then s
  else if s.engine.any (fun e => !e.isReadOnly) then
    { s with daemonStatus := .connecting, engine := none, attempt := .retiring s.retirement }
  else { s with attempt := .connecting false }

/-- What `connectDaemon` gives, for the start and for a retry. -/
def connected (s : Proxy) (found : Bool) : Attempt → Option Proxy
  | .initial =>
    if found then some ({ s with attempt := .none }.attachDaemon false)
    else
      some (({ s with attempt := .none, daemonStatus := .failed }.serveBufferedLocally
        deps).scheduleDaemonRetry deps)
  | .connecting handover =>
    if found then
      let s := { s with attempt := .none }.attachDaemon true
      some (if handover then s else s.retireEngine)
    else
      some (({ s with attempt := .none, daemonStatus := .failed }.serveBufferedLocally
        deps).scheduleDaemonRetry deps)
  | _ => none

def answeredLists : List String :=
  ["tools/list", "resources/list", "resources/templates/list", "prompts/list"]

def onMessage (s : Proxy) (m : Message) : Proxy :=
  if m.isInitialize then
    ({ s with clientInitId := m.id, clientInitLine := some m }.writeClient m.id).routeToDaemon deps
      (.message m)
  else if m.method.any answeredLists.contains then s.writeClient m.id
  else if m.method = some "server/discover" ∧ m.id.isSome then s.writeClient m.id
  else s.routeToDaemon deps (.message m)

/-- A line of the client; `null` has no method to look at. -/
def onLine (s : Proxy) : Line → Proxy
  | .unparsable text => s.routeToDaemon deps (.unparsable text)
  | .null => { s with exited := true }
  | .message m => { s with received := s.received ++ m.request.toList }.onMessage deps m

inductive Outcome where
  | result
  | error
  deriving DecidableEq, Repr

def finishCall (s : Proxy) (c : LocalCall) (outcome : Outcome) : Proxy :=
  let s := { s with localCalls := s.localCalls.erase c }.writeClient (some c.id)
  if outcome = .result ∧ deps.telemetry ∧ !c.sliceableName then s.writeClient (some c.id) else s

inductive Event where
  | line (l : Line)
  | daemonReply (m : Message)
  | daemonLost
  /-- `connectDaemon` settles. -/
  | connected (found : Bool)
  | retryTimer
  /-- The retired engine that `retryDaemon` waits for has stopped. -/
  | handedOver
  /-- Another retired engine has stopped. -/
  | stopped (r : Retirement)
  | finished (c : LocalCall) (outcome : Outcome)
  deriving DecidableEq, Repr

/-- The client does not use the id of a request again, and a daemon answers what it was asked. -/
def step (s : Proxy) (e : Event) : Option Proxy :=
  if s.exited then none
  else
    match e with
    | .line l =>
      match l with
      | .message m => if m.request.all (!s.received.contains ·) then some (s.onLine deps l) else none
      | _ => some (s.onLine deps l)
    | .daemonReply m =>
      match m.request with
      | some id => if s.daemonSocket ∧ m ∈ s.forwarded then some (s.onReply m id) else none
      | none => none
    | .daemonLost => if s.daemonSocket then some (s.onDaemonLost deps) else none
    | .connected found => s.connected deps found s.attempt
    | .retryTimer => if s.retryTimer then some { s with retryTimer := false }.retryDaemon else none
    | .handedOver =>
      match s.attempt with
      | .retiring r => if s.settled r then some { s with attempt := .connecting true } else none
      | _ => none
    | .stopped r =>
      if r ∈ s.retiring ∧ s.settled r then some { s with retiring := s.retiring.erase r } else none
    | .finished c outcome =>
      if c ∈ s.localCalls ∧ (c.engine = none → outcome = .error) then
        some (s.finishCall deps c outcome)
      else none

def start : Proxy :=
  { daemonStatus := .connecting, daemonSocket := false, clientInitId := none, clientInitLine := none
    pending := [], engine := none, localCalls := [], retiring := [], inflight := []
    retryTimer := false, attempt := .initial, made := 0, served := 0, forwarded := []
    received := [], replies := [], exited := false }

end Proxy

end CodeGraph.Mcp
