import CodeGraph.Foundation.InsertionMap
import CodeGraph.Foundation.Transitions

/-! The file watcher between `start()` and its end: one step for each event that it handles. -/
namespace CodeGraph.Sync

open InsertionMap

def MAX_LOCK_RETRIES : Nat := 5
def MAX_SYNC_FAILURE_RETRIES : Nat := 5
def MAX_RETRY_BACKOFF_MS : Nat := 30000
def QUICK_SYNC_MAX_PENDING : Nat := 2
def QUICK_SYNC_QUIET_MS : Nat := 300
def SCOPED_SYNC_MAX_PENDING : Nat := 500

abbrev RelPath := List Char

def PROJECT_CONFIG_FILENAME : RelPath := "codegraph.json".toList

structure PendingInfo where
  firstSeenMs : Nat
  lastSeenMs : Nat
  deriving DecidableEq, Repr

/-- What the file system, the scope matcher and the index say about a path when its event is
handled. -/
structure PathFacts where
  escapesRoot : Bool
  isAlwaysIgnored : Bool
  isShopifyThemeMarker : Bool
  /-- Of the theme's directory for a marker, else of the path; a theme at the root has none. -/
  ignores : Bool
  isSourceFile : Bool
  exists_ : Bool
  /-- `none` when the check throws. -/
  isFileStateCurrent : Option Bool
  deriving DecidableEq, Repr

inductive DegradedReason where
  | exhaustion
  | rootGone
  | lockContention
  | syncFailures
  deriving DecidableEq, Repr

structure FileWatcher where
  degradedReason : Option DegradedReason
  degradedByLock : Bool
  lockRetryCount : Nat
  syncFailureRetryCount : Nat
  treeRefreshTimer : Bool
  /-- The delay of the timer that is armed. -/
  debounceTimer : Option Nat
  needsFullScan : Bool
  pendingFiles : List (RelPath × PendingInfo)
  syncStartedMs : Nat
  syncing : Bool
  stopped : Bool
  ready : Bool
  /-- The list that the sync in flight was given; `none` is a full scan. -/
  scopedPaths : Option (List RelPath)
  /-- The time of the last event. -/
  clock : Nat
  /-- The number of events so far. -/
  events : Nat
  /-- The files with an admitted event, each with the number of the event. -/
  admitted : List (RelPath × Nat)
  /-- The events that asked for a full scan. -/
  requests : List Nat
  /-- The event that started the sync in flight. -/
  startedAt : Nat
  /-- The syncs that succeeded: the event that started each, and its list. -/
  succeeded : List (Nat × Option (List RelPath))

namespace FileWatcher

variable (debounceMs : Nat)

def scheduleSync (s : FileWatcher) : FileWatcher :=
  let quickMs := max 100 (min QUICK_SYNC_QUIET_MS debounceMs)
  { s with
    debounceTimer :=
      some (if s.pendingFiles.length ≤ QUICK_SYNC_MAX_PENDING then quickMs else debounceMs) }

def scheduleRetrySync (s : FileWatcher) (delayMs : Nat) : FileWatcher :=
  { s with debounceTimer := some delayMs }

def scheduleTreeRefresh (s : FileWatcher) : FileWatcher :=
  if s.treeRefreshTimer ∨ s.stopped then s else { s with treeRefreshTimer := true }

def requestFullScan (s : FileWatcher) : FileWatcher :=
  { s with needsFullScan := true, requests := s.requests ++ [s.events] }

def stop (s : FileWatcher) : FileWatcher :=
  { s with
    stopped := true
    treeRefreshTimer := false
    debounceTimer := none
    lockRetryCount := 0
    syncFailureRetryCount := 0
    pendingFiles := []
    ready := false }

def degrade (s : FileWatcher) (reason : DegradedReason) (byLock : Bool) : FileWatcher :=
  if s.degradedReason.isSome then s
  else stop { s with degradedReason := some reason, degradedByLock := byLock }

def refreshScope (s : FileWatcher) : FileWatcher :=
  scheduleSync debounceMs s.scheduleTreeRefresh.requestFullScan

def maybeScheduleForRemovedDir (s : FileWatcher) (facts : PathFacts) : FileWatcher :=
  if facts.exists_ then s else scheduleSync debounceMs s.requestFullScan

/-- What `handleChange` does with a path. -/
inductive Verdict where
  | dropped
  | scope
  | notSource
  | admitted
  deriving DecidableEq, Repr

/-- The filters of `handleChange`, in their order. -/
def verdict (rel : RelPath) (facts : PathFacts) : Verdict :=
  if rel = [] ∨ rel = ".".toList ∨ facts.escapesRoot then .dropped
  else if rel = ".git/info/exclude".toList then .scope
  else if facts.isAlwaysIgnored then .dropped
  else if rel = PROJECT_CONFIG_FILENAME ∨ rel = ".gitignore".toList then .scope
  else if facts.ignores then .dropped
  else if "/.gitignore".toList.isSuffixOf rel then .scope
  else if !facts.isShopifyThemeMarker && !facts.isSourceFile then .notSource
  else if facts.isFileStateCurrent = some true then .dropped
  else .admitted

def addPending (s : FileWatcher) (rel : RelPath) (facts : PathFacts) (now : Nat) : FileWatcher :=
  let s := if facts.isShopifyThemeMarker then s.requestFullScan else s
  let s :=
    if s.ready then
      { s with
        pendingFiles := assign s.pendingFiles rel
          ⟨((lookup s.pendingFiles rel).map PendingInfo.firstSeenMs).getD now, now⟩
        admitted := s.admitted ++ [(rel, s.events)] }
    else s
  scheduleSync debounceMs s

def handleChange (s : FileWatcher) (rel : RelPath) (facts : PathFacts) (now : Nat) : FileWatcher :=
  match verdict rel facts with
  | .dropped => s
  | .scope => s.refreshScope debounceMs
  | .notSource => s.maybeScheduleForRemovedDir debounceMs facts
  | .admitted => s.addPending debounceMs rel facts now

/-- The timer's callback; `exhausted` if the walk runs out of watches. -/
def onTreeRefresh (s : FileWatcher) (exhausted : Bool) : FileWatcher :=
  let s := { s with treeRefreshTimer := false }
  let s := if exhausted then s.degrade .exhaustion false else s
  if s.stopped then s else scheduleSync debounceMs s.requestFullScan

/-! ### `flush` -/

/-- `flush` up to the call of `syncFn`. -/
def flush (s : FileWatcher) (now : Nat) : FileWatcher :=
  if s.syncing ∨ s.stopped then s
  else
    let scopedPaths :=
      if s.needsFullScan = false ∧ 0 < s.pendingFiles.length ∧
          s.pendingFiles.length ≤ SCOPED_SYNC_MAX_PENDING then
        some (s.pendingFiles.map Prod.fst)
      else none
    { s with
      syncStartedMs := now
      syncing := true
      scopedPaths := scopedPaths
      needsFullScan := if scopedPaths.isNone then false else s.needsFullScan
      startedAt := s.events }

def onDebounce (s : FileWatcher) (now : Nat) : FileWatcher := flush { s with debounceTimer := none } now

/-- The `finally` block of `flush`. -/
def finishSync (s : FileWatcher) : FileWatcher :=
  let s := { s with syncing := false }
  if (s.pendingFiles ≠ [] ∨ s.needsFullScan) ∧ s.stopped = false then
    let retryCount := max s.lockRetryCount s.syncFailureRetryCount
    if 0 < retryCount then
      s.scheduleRetrySync (min (debounceMs * 2 ^ (retryCount - 1)) MAX_RETRY_BACKOFF_MS)
    else scheduleSync debounceMs s
  else s

def onSyncSucceeded (s : FileWatcher) : FileWatcher :=
  finishSync debounceMs { s with
    lockRetryCount := 0
    syncFailureRetryCount := 0
    pendingFiles := s.pendingFiles.filter fun e => ¬ e.2.lastSeenMs ≤ s.syncStartedMs
    succeeded := s.succeeded ++ [(s.startedAt, s.scopedPaths)] }

def restoreFullScan (s : FileWatcher) : FileWatcher :=
  { s with needsFullScan := if s.scopedPaths.isNone then true else s.needsFullScan }

def onLockUnavailable (s : FileWatcher) : FileWatcher :=
  let s := { s.restoreFullScan with lockRetryCount := s.lockRetryCount + 1 }
  let s := if MAX_LOCK_RETRIES < s.lockRetryCount then s.degrade .lockContention true else s
  finishSync debounceMs s

def onSyncFailed (s : FileWatcher) : FileWatcher :=
  let s := { s.restoreFullScan with
    lockRetryCount := 0, syncFailureRetryCount := s.syncFailureRetryCount + 1 }
  let s :=
    if MAX_SYNC_FAILURE_RETRIES < s.syncFailureRetryCount then s.degrade .syncFailures false else s
  finishSync debounceMs s

/-- A watcher that `start()` has set up. -/
def start : FileWatcher :=
  { degradedReason := none, degradedByLock := false, lockRetryCount := 0, syncFailureRetryCount := 0
    treeRefreshTimer := false, debounceTimer := none, needsFullScan := false, pendingFiles := []
    syncStartedMs := 0, syncing := false, stopped := false, ready := true, scopedPaths := none
    clock := 0, events := 0, admitted := [], requests := [], startedAt := 0, succeeded := [] }

inductive Happening where
  | change (rel : RelPath) (facts : PathFacts)
  /-- A directory appeared, went away or points elsewhere. -/
  | topology
  | treeRefreshTimer (exhausted : Bool)
  | debounceTimer
  | syncSucceeded
  | lockUnavailable
  | syncFailed
  | watchError (reason : DegradedReason)
  | stop
  deriving DecidableEq, Repr

structure Event where
  now : Nat
  happening : Happening
  deriving DecidableEq, Repr

def handle (s : FileWatcher) (now : Nat) : Happening → Option FileWatcher
  | .change rel facts => some (s.handleChange debounceMs rel facts now)
  | .topology => some s.scheduleTreeRefresh
  | .treeRefreshTimer exhausted =>
    if s.treeRefreshTimer then some (s.onTreeRefresh debounceMs exhausted) else none
  | .debounceTimer => if s.debounceTimer.isSome then some (s.onDebounce now) else none
  | .syncSucceeded => if s.syncing then some (s.onSyncSucceeded debounceMs) else none
  | .lockUnavailable => if s.syncing then some (s.onLockUnavailable debounceMs) else none
  | .syncFailed => if s.syncing then some (s.onSyncFailed debounceMs) else none
  | .watchError reason => some (s.degrade reason false)
  | .stop => some s.stop

/-- The clock does not run backwards, and a stopped watcher handles nothing. -/
def step (s : FileWatcher) (e : Event) : Option FileWatcher :=
  if s.stopped ∨ e.now < s.clock then none
  else handle debounceMs { s with clock := e.now, events := s.events + 1 } e.now e.happening

end FileWatcher

end CodeGraph.Sync
