import CodeGraph.Sync.Watcher

/-!
The watcher loses no edit, as long as no file event is handled while a sync is in flight in the very
millisecond in which that sync started.

A sync that succeeds removes the entries that were last seen no later than its start. The invariant
says of each such entry that the sync was given its file, and that all events of the file came
before the sync. An event during the sync keeps this true only if its stamp is later.
-/
namespace CodeGraph.Sync.FileWatcher

open InsertionMap

variable {debounceMs : Nat} {s t : FileWatcher}

/-- Some successful sync began after event `i` and was a full scan or had the file in its list. -/
def Covered (s : FileWatcher) (f : RelPath) (i : Nat) : Prop :=
  ∃ start paths, (start, paths) ∈ s.succeeded ∧ i < start ∧ ∀ listed, paths = some listed → f ∈ listed

/-- Some successful full scan began after event `i`. -/
def Scanned (s : FileWatcher) (i : Nat) : Prop := ∃ start, (start, none) ∈ s.succeeded ∧ i < start

/-- What holds while the watcher is not stopped. -/
structure Holds (s : FileWatcher) : Prop where
  ready : s.ready = true
  kept : ∀ f i, (f, i) ∈ s.admitted → f ∈ s.pendingFiles.map Prod.fst ∨ s.Covered f i
  seen : ∀ e ∈ s.pendingFiles, e.2.lastSeenMs ≤ s.clock
  started : s.syncing = true → s.syncStartedMs ≤ s.clock
  given : s.syncing = true → ∀ e ∈ s.pendingFiles, e.2.lastSeenMs ≤ s.syncStartedMs →
    (∀ listed, s.scopedPaths = some listed → e.1 ∈ listed) ∧
      ∀ i, (e.1, i) ∈ s.admitted → i < s.startedAt
  asked : ∀ i ∈ s.requests, s.needsFullScan = true ∨
    (s.syncing = true ∧ s.scopedPaths = none ∧ i < s.startedAt) ∨ s.Scanned i
  armed : s.pendingFiles ≠ [] ∨ s.needsFullScan = true →
    s.debounceTimer.isSome = true ∨ s.syncing = true
  past : ∀ f i, (f, i) ∈ s.admitted → i ≤ s.events
  pastRequests : ∀ i ∈ s.requests, i ≤ s.events

def Inv (s : FileWatcher) : Prop := s.stopped = false → s.Holds

theorem start_inv : Inv start := fun _ =>
  { ready := rfl
    kept := fun _ _ member => nomatch member
    seen := fun _ member => nomatch member
    started := fun h => nomatch h
    given := fun h => nomatch h
    asked := fun _ member => nomatch member
    armed := fun h => by rcases h with some_ | scan <;> contradiction
    past := fun _ _ member => nomatch member
    pastRequests := fun _ member => nomatch member }

theorem stop_inv (s : FileWatcher) : Inv s.stop := fun h => nomatch h

theorem degrade_inv (inv : Inv s) (reason : DegradedReason) (byLock : Bool) :
    Inv (s.degrade reason byLock) := by
  unfold degrade
  split
  · exact inv
  · exact stop_inv _

private theorem requested (holds : Holds s) (delay : Nat) :
    Holds { s.requestFullScan with debounceTimer := some delay } :=
  { holds with
    asked := fun _ _ => .inl rfl
    armed := fun _ => .inl rfl
    pastRequests := by
      exact forall_snoc holds.pastRequests (Nat.le_refl _) }

theorem refreshScope_holds (holds : Holds s) : Holds (s.refreshScope debounceMs) := by
  have refreshed : Holds s.scheduleTreeRefresh := by
    unfold scheduleTreeRefresh
    split
    · exact holds
    · exact { holds with }
  exact requested refreshed _

theorem maybeScheduleForRemovedDir_holds (holds : Holds s) (facts : PathFacts) :
    Holds (s.maybeScheduleForRemovedDir debounceMs facts) := by
  unfold maybeScheduleForRemovedDir
  split
  · exact holds
  · exact requested holds _

private theorem walked_inv (inv : Inv s) :
    Inv (if s.stopped then s else scheduleSync debounceMs s.requestFullScan) := by
  split
  · exact inv
  · next live => exact fun _ => requested (inv ((Bool.not_eq_true _).mp live)) _

theorem onTreeRefresh_inv (holds : Holds s) (exhausted : Bool) :
    Inv (s.onTreeRefresh debounceMs exhausted) := by
  have disarmed : Inv { s with treeRefreshTimer := false } := fun _ => { holds with }
  refine walked_inv ?_
  split
  · exact degrade_inv disarmed _ _
  · exact disarmed

private theorem assign_holds (holds : Holds s) {rel : RelPath} {info : PendingInfo}
    (now : info.lastSeenMs = s.clock)
    (later : s.syncing = true → s.clock ≠ s.syncStartedMs) (delay : Nat) :
    Holds { s with
      pendingFiles := assign s.pendingFiles rel info
      admitted := s.admitted ++ [(rel, s.events)]
      debounceTimer := some delay } :=
  { holds with
    kept := by
      intro f i member
      rcases mem_snoc.mp member with old | new
      · rcases holds.kept f i old with waits | covered
        · exact .inl (mem_keys_assign.mpr (.inl waits))
        · exact .inr covered
      · obtain ⟨rfl, rfl⟩ := Prod.mk.inj new
        exact .inl (mem_keys_assign.mpr (.inr rfl))
    seen := by
      intro e member
      rcases mem_assign member with rfl | ⟨old, -⟩
      · exact Nat.le_of_eq now
      · exact holds.seen e old
    given := by
      intro syncing e member before
      rcases mem_assign member with rfl | ⟨old, other⟩
      · -- The new entry is stamped after the start, so the sync does not remove it.
        have after : s.syncStartedMs < s.clock :=
          Nat.lt_of_le_of_ne (holds.started syncing) (Ne.symm (later syncing))
        have stamp : info.lastSeenMs ≤ s.syncStartedMs := before
        omega
      · obtain ⟨listed, events⟩ := holds.given syncing e old before
        refine ⟨listed, fun i member => ?_⟩
        rcases mem_snoc.mp member with earlier | new
        · exact events i earlier
        · exact absurd (Prod.mk.inj new).1 other
    armed := fun _ => .inl rfl
    past := by
      intro f i member
      rcases mem_snoc.mp member with old | new
      · exact holds.past f i old
      · exact Nat.le_of_eq (Prod.mk.inj new).2 }

theorem addPending_holds (holds : Holds s) (rel : RelPath) (facts : PathFacts)
    (later : s.syncing = true → s.clock ≠ s.syncStartedMs) :
    Holds (s.addPending debounceMs rel facts s.clock) := by
  unfold addPending
  simp only
  split
  · rw [requestFullScan, if_pos holds.ready]
    have scan : Holds { s with
        needsFullScan := true, requests := s.requests ++ [s.events], debounceTimer := some 0 } :=
      requested holds 0
    exact assign_holds scan rfl later _
  · rw [if_pos holds.ready]
    exact assign_holds holds rfl later _

theorem onDebounce_holds (holds : Holds s) (live : s.stopped = false)
    (old : ∀ f i, (f, i) ∈ s.admitted → i < s.events)
    (oldRequests : ∀ i ∈ s.requests, i < s.events) : Holds (s.onDebounce s.clock) := by
  by_cases busy : s.syncing = true
  · -- The sync in flight schedules the next one when it ends.
    rw [onDebounce, flush, if_pos (.inl busy)]
    exact { holds with armed := fun _ => .inr busy }
  · have begins : ¬ (s.syncing = true ∨ s.stopped = true) := by simp [busy, live]
    simp only [onDebounce, flush, if_neg begins]
    split
    · next listed =>
      exact { holds with
        started := fun _ => Nat.le_refl _
        given := fun _ e member _ => ⟨fun paths same => Option.some.inj same ▸ List.mem_map_of_mem member,
          fun i => old e.1 i⟩
        asked := by
          intro i member
          rcases holds.asked i member with scan | ⟨syncing, -⟩ | done
          · rw [listed.1] at scan
            cases scan
          · exact absurd syncing busy
          · exact .inr (.inr done)
        armed := fun _ => .inr rfl }
    · exact { holds with
        started := fun _ => Nat.le_refl _
        given := fun _ e _ _ => ⟨(fun paths same => nomatch same), fun i => old e.1 i⟩
        asked := by
          intro i member
          rcases holds.asked i member with scan | ⟨syncing, -⟩ | done
          · exact .inr (.inl ⟨rfl, rfl, oldRequests i member⟩)
          · exact absurd syncing busy
          · exact .inr (.inr done)
        armed := fun _ => .inr rfl }

private theorem finishSync_inv (ready : s.stopped = false → s.ready = true)
    (kept : s.stopped = false → ∀ f i, (f, i) ∈ s.admitted →
      f ∈ s.pendingFiles.map Prod.fst ∨ s.Covered f i)
    (seen : ∀ e ∈ s.pendingFiles, e.2.lastSeenMs ≤ s.clock)
    (asked : ∀ i ∈ s.requests, s.needsFullScan = true ∨ s.Scanned i)
    (past : ∀ f i, (f, i) ∈ s.admitted → i ≤ s.events)
    (pastRequests : ∀ i ∈ s.requests, i ≤ s.events) : Inv (s.finishSync debounceMs) := by
  unfold finishSync
  simp only
  split
  · have rescheduled (delay : Nat) : Inv { s with syncing := false, debounceTimer := some delay } :=
      fun live =>
        { ready := ready live
          kept := kept live
          seen := seen
          started := fun h => nomatch h
          given := fun h => nomatch h
          asked := fun i member => (asked i member).imp_right .inr
          armed := fun _ => .inl rfl
          past := past
          pastRequests := pastRequests }
    split
    · exact rescheduled _
    · exact rescheduled _
  · next done =>
    intro live
    have live' : s.stopped = false := live
    have nothing : ¬ (s.pendingFiles ≠ [] ∨ s.needsFullScan = true) := fun owed => done ⟨owed, live'⟩
    exact
      { ready := ready live
        kept := kept live
        seen := seen
        started := fun h => nomatch h
        given := fun h => nomatch h
        asked := fun i member => (asked i member).imp_right .inr
        armed := fun owed => absurd owed nothing
        past := past
        pastRequests := pastRequests }

theorem onSyncSucceeded_inv (holds : Holds s) (syncing : s.syncing = true) :
    Inv (s.onSyncSucceeded debounceMs) := by
  refine finishSync_inv (fun _ => holds.ready) (fun _ f i member => ?_) ?_ ?_ holds.past
    holds.pastRequests
  · rcases holds.kept f i member with waits | ⟨start, paths, done, before, covers⟩
    · obtain ⟨e, listed, rfl⟩ := List.mem_map.mp waits
      by_cases removed : e.2.lastSeenMs ≤ s.syncStartedMs
      · obtain ⟨given, events⟩ := holds.given syncing e listed removed
        exact .inr ⟨s.startedAt, s.scopedPaths, List.mem_append_right _ List.mem_cons_self,
          events i member, given⟩
      · refine .inl (List.mem_map.mpr ⟨e, List.mem_filter.mpr ⟨listed, ?_⟩, rfl⟩)
        simpa using removed
    · exact .inr ⟨start, paths, List.mem_append_left _ done, before, covers⟩
  · exact fun e member => holds.seen e (List.mem_of_mem_filter member)
  · intro i member
    rcases holds.asked i member with scan | ⟨-, full, before⟩ | ⟨start, done, before⟩
    · exact .inl scan
    · exact .inr ⟨s.startedAt, full ▸ List.mem_append_right _ List.mem_cons_self, before⟩
    · exact .inr ⟨start, List.mem_append_left _ done, before⟩

private theorem restored_asked (holds : Holds s) (i : Nat) (member : i ∈ s.requests) :
    s.restoreFullScan.needsFullScan = true ∨ s.Scanned i := by
  unfold restoreFullScan
  rcases holds.asked i member with scan | ⟨-, full, -⟩ | done
  · left
    simp [scan]
  · left
    simp [full]
  · exact .inr done

private theorem failed_inv (holds : Holds s) (lock failures : Nat) (tooMany : Prop)
    [Decidable tooMany] (reason : DegradedReason) (byLock : Bool) :
    Inv (finishSync debounceMs
      (if tooMany then
        degrade { s.restoreFullScan with lockRetryCount := lock, syncFailureRetryCount := failures }
          reason byLock
      else { s.restoreFullScan with lockRetryCount := lock, syncFailureRetryCount := failures })) := by
  have going : Inv (finishSync debounceMs { s.restoreFullScan with
      lockRetryCount := lock, syncFailureRetryCount := failures }) :=
    finishSync_inv (fun _ => holds.ready) (fun _ => holds.kept) holds.seen (restored_asked holds)
      holds.past holds.pastRequests
  split
  · unfold degrade
    split
    · exact going
    · intro live
      unfold finishSync at live
      simp [stop] at live
  · exact going

theorem onLockUnavailable_inv (holds : Holds s) : Inv (s.onLockUnavailable debounceMs) :=
  failed_inv holds _ s.syncFailureRetryCount _ _ _

theorem onSyncFailed_inv (holds : Holds s) : Inv (s.onSyncFailed debounceMs) :=
  failed_inv holds 0 _ _ _ _

/-! ### Runs -/

def collides (s : FileWatcher) (e : Event) : Bool :=
  s.syncing && e.now == s.syncStartedMs &&
    match e.happening with
    | .change rel facts => verdict rel facts == .admitted
    | _ => false

abbrev Reachable (debounceMs : Nat) : FileWatcher → Prop :=
  Transitions.ReachableWhen (fun s e => collides s e = false) start (step debounceMs)

theorem step_inv (inv : Inv s) {e : Event} (apart : collides s e = false)
    (taken : step debounceMs s e = some t) : Inv t := by
  obtain ⟨allowed, handled⟩ := Option.ite_none_left_eq_some.mp taken
  rw [not_or, Bool.not_eq_true, Nat.not_lt] at allowed
  obtain ⟨live, clock⟩ := allowed
  have holds := inv live
  -- The event has a number of its own, after all that came before.
  have old (f : RelPath) (i : Nat) (member : (f, i) ∈ s.admitted) : i < s.events + 1 :=
    Nat.lt_succ_of_le (holds.past f i member)
  have oldRequests (i : Nat) (member : i ∈ s.requests) : i < s.events + 1 :=
    Nat.lt_succ_of_le (holds.pastRequests i member)
  have ticked : Holds { s with clock := e.now, events := s.events + 1 } := { holds with
    seen := fun entry member => Nat.le_trans (holds.seen entry member) clock
    started := fun syncing => Nat.le_trans (holds.started syncing) clock
    past := fun f i member => Nat.le_of_lt (old f i member)
    pastRequests := fun i member => Nat.le_of_lt (oldRequests i member) }
  obtain ⟨now, happening⟩ := e
  cases happening with
  | change rel facts =>
    cases handled
    unfold handleChange
    cases decided : verdict rel facts with
    | dropped => exact fun _ => ticked
    | scope => exact fun _ => refreshScope_holds ticked
    | notSource => exact fun _ => maybeScheduleForRemovedDir_holds ticked facts
    | admitted =>
      refine fun _ => addPending_holds ticked rel facts fun syncing same => ?_
      have syncing' : s.syncing = true := syncing
      have same' : now = s.syncStartedMs := same
      simp [collides, syncing', same', decided] at apart
  | topology =>
    cases handled
    unfold scheduleTreeRefresh
    split
    · exact fun _ => ticked
    · exact fun _ => { ticked with }
  | treeRefreshTimer exhausted =>
    obtain ⟨-, same⟩ := Option.ite_none_right_eq_some.mp handled
    cases same
    exact onTreeRefresh_inv ticked exhausted
  | debounceTimer =>
    obtain ⟨-, same⟩ := Option.ite_none_right_eq_some.mp handled
    cases same
    exact fun _ => onDebounce_holds ticked live old oldRequests
  | syncSucceeded =>
    obtain ⟨syncing, same⟩ := Option.ite_none_right_eq_some.mp handled
    cases same
    exact onSyncSucceeded_inv ticked syncing
  | lockUnavailable =>
    obtain ⟨-, same⟩ := Option.ite_none_right_eq_some.mp handled
    cases same
    exact onLockUnavailable_inv ticked
  | syncFailed =>
    obtain ⟨-, same⟩ := Option.ite_none_right_eq_some.mp handled
    cases same
    exact onSyncFailed_inv ticked
  | watchError reason =>
    cases handled
    exact degrade_inv (fun _ => ticked) reason false
  | stop =>
    cases handled
    exact stop_inv _

/-- What the watcher owes: the edits, the full scans, and a next sync. -/
structure NoEditLost (s : FileWatcher) : Prop where
  edits : ∀ f i, (f, i) ∈ s.admitted →
    f ∈ s.pendingFiles.map Prod.fst ∨ s.needsFullScan = true ∨ s.Covered f i
  scans : ∀ i ∈ s.requests, s.needsFullScan = true ∨
    (s.syncing = true ∧ s.scopedPaths = none ∧ i < s.startedAt) ∨ s.Scanned i
  armed : s.pendingFiles ≠ [] ∨ s.needsFullScan = true →
    s.debounceTimer.isSome = true ∨ s.syncing = true

/-- A watcher that is not stopped has lost no edit. -/
theorem no_edit_lost (reached : Reachable debounceMs s) (live : s.stopped = false) :
    NoEditLost s := by
  have holds : Holds s :=
    reached.invariant start_inv (fun _ _ _ inv apart taken => step_inv inv apart taken) live
  exact ⟨fun f i member => (holds.kept f i member).imp_right .inr, holds.asked, holds.armed⟩

def sourceFile : PathFacts := ⟨false, false, false, false, true, true, some false⟩

def apartRun : List Event :=
  [⟨5, .change ['a'] sourceFile⟩, ⟨305, .debounceTimer⟩, ⟨306, .change ['b'] sourceFile⟩,
    ⟨390, .syncSucceeded⟩]

theorem no_edit_lost_apart : ∃ s,
    Transitions.run (Transitions.guarded (fun s e => collides s e = false) (step 2000)) start
        apartRun = some s ∧
      s.pendingFiles = [(['b'], ⟨306, 306⟩)] ∧ NoEditLost s := by
  have seen : (Transitions.run (Transitions.guarded (fun s e => collides s e = false) (step 2000))
      start apartRun).map (fun s => (s.pendingFiles, s.stopped)) =
        some ([(['b'], ⟨306, 306⟩)], false) := by decide +kernel
  obtain ⟨s, done, view⟩ := Option.map_eq_some_iff.mp seen
  obtain ⟨pending, live⟩ := Prod.mk.inj view
  exact ⟨s, done, pending, no_edit_lost (Transitions.run_reachableWhen apartRun .start done) live⟩

def collidingRun : List Event :=
  [⟨5, .change ['a'] sourceFile⟩, ⟨305, .debounceTimer⟩, ⟨305, .change ['b'] sourceFile⟩,
    ⟨390, .syncSucceeded⟩]

/-- The second edit is dropped by a sync that was not given its file and that began before it. -/
theorem edit_lost_colliding : ∃ s,
    Transitions.run (step 2000) start collidingRun = some s ∧ s.stopped = false ∧
      ¬ NoEditLost s := by
  have seen : (Transitions.run (step 2000) start collidingRun).map
      (fun s => (s.pendingFiles, s.needsFullScan, s.stopped, s.succeeded.map Prod.fst)) =
        some ([], false, false, [2]) := by decide +kernel
  obtain ⟨s, done, view⟩ := Option.map_eq_some_iff.mp seen
  obtain ⟨pending, scan, live, succeeded⟩ : _ ∧ _ ∧ _ ∧ _ := by
    simpa only [Prod.mk.injEq] using view
  have events : (Transitions.run (step 2000) start collidingRun).map FileWatcher.admitted =
      some [(['a'], 1), (['b'], 3)] := by decide +kernel
  rw [done] at events
  have admitted : s.admitted = [(['a'], 1), (['b'], 3)] := Option.some.inj events
  refine ⟨s, done, live, fun kept => ?_⟩
  have member : (['b'], 3) ∈ s.admitted := by
    rw [admitted]
    decide
  rcases kept.edits ['b'] 3 member with waits | full | ⟨first, paths, ended, before, -⟩
  · rw [pending] at waits
    cases waits
  · rw [scan] at full
    cases full
  · -- The only sync that succeeded began before the edit.
    have early : first ∈ s.succeeded.map Prod.fst := List.mem_map.mpr ⟨_, ended, rfl⟩
    rw [succeeded, List.mem_singleton] at early
    omega

end CodeGraph.Sync.FileWatcher
