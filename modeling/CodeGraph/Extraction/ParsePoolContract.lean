import CodeGraph.Extraction.ParsePoolDrain

/-!
What the pool promises about its parses and its workers, over any order of events.

Each handler keeps the invariant: it takes a parse in hand where it parts it from its worker, settles
it, and drains. The promise is then read off the invariant of a state between two events.
-/
namespace CodeGraph.Extraction.ParsePool.ParseWorkerPool

open InsertionMap WorkerPool

variable {o : ParseWorkerPoolOptions} {s t : ParseWorkerPool} {held : List ParseId}

/-! ### Handlers -/

def Calm (o : ParseWorkerPoolOptions) (s : ParseWorkerPool) : Prop := Inv o s [] ∧ Drained s

private theorem counters_keep (inv : Inv o s held) (crashes done measured ms : Nat) :
    Inv o { s with
      totalCrashes := crashes, parsesDone := done, parsesMeasured := measured
      parseMsMeasured := ms } held :=
  { inv with }

private theorem timers_keep (inv : Inv o s held) {jobs : ParseId → ParseJob}
    (settled : ∀ k, (jobs k).settled = (s.jobs k).settled)
    (armed : ∀ k w, Armed { s with jobs := jobs } k w → s.Armed k w) :
    Inv o { s with jobs := jobs } held :=
  { inv with
    sound := inv.sound.weaken fun k h => ⟨h.1, (settled k).symm.trans h.2⟩
    queued := fun k member => (settled k).trans (inv.queued k member)
    running := fun k member => (settled k).trans (inv.running k member)
    fresh := fun k le => (settled k).trans (inv.fresh k le)
    armedCreated := fun w k h => inv.armedCreated w k (armed k w h)
    armed := fun w k out pending h live =>
      inv.armed w k out ((settled k).symm.trans pending) (armed k w h) live
    answered := fun k => (inv.answered k).trans (by
      change _ ↔ (jobs k).settled = true
      rw [settled]) }

theorem requestParse_keeps (calm : Calm o s) : Calm o (s.requestParse o) := by
  unfold requestParse
  split
  · exact calm
  · refine drain_keeps ?_
    have inv := calm.1
    have old (j : ParseId) (h : s.Requested j) : j ≠ s.nextId := Nat.ne_of_lt h.2
    have queue : s.nextId ∉ s.queue := fun member => old _ (inv.requested _ (.inl member)) rfl
    have running : s.nextId ∉ s.place.running := fun member =>
      old _ (inv.requested _ (.inr member)) rfl
    have later (j : ParseId) (h : s.Requested j) :
        Requested { s with nextId := s.nextId + 1, queue := s.queue ++ [s.nextId] } j :=
      ⟨h.1, Nat.lt_succ_of_lt h.2⟩
    have member (j : ParseId) : j ∈ s.queue ++ [s.nextId] ↔ j ∈ s.queue ∨ j = s.nextId := by simp
    have opened : Sound s.place
        (Unsettled { s with nextId := s.nextId + 1, queue := s.queue ++ [s.nextId] })
        [s.nextId] := inv.sound.open queue running fun k h => by
      rcases Nat.lt_succ_iff_lt_or_eq.mp h.1.2 with below | last
      · exact .inl ⟨⟨h.1.1, below⟩, h.2⟩
      · exact .inr last
    exact { inv with
      sound := opened.enqueueLast List.not_mem_nil
      requested := by
        rintro j (queued | runs)
        · rcases (member j).mp queued with listed | rfl
          · exact later j (inv.requested j (.inl listed))
          · exact ⟨inv.first, Nat.lt_succ_self _⟩
        · exact later j (inv.requested j (.inr runs))
      heldRequested := fun _ inHand => nomatch inHand
      queued := by
        intro j queued
        rcases (member j).mp queued with listed | rfl
        · exact inv.queued j listed
        · exact inv.fresh _ (Nat.le_refl _)
      fresh := fun j le => inv.fresh j (Nat.le_of_succ_le le)
      first := Nat.le_succ_of_le inv.first }

/-- A pool without queued parses has none to drain. -/
private theorem drained_of_queue (empty : s.queue = []) : Drained s := ⟨fun _ => empty, fun _ => empty⟩

private theorem spawnOne_queue (s : ParseWorkerPool) : (s.spawnOne o).queue = s.queue := by
  unfold spawnOne
  split
  · rfl
  · simp only
    split <;> rfl

private theorem spawnOne_drained (drained : Drained s) : Drained (s.spawnOne o) := by
  unfold spawnOne
  split
  · exact drained
  · simp only
    split
    · exact ⟨drained.idle, fun none_ => absurd none_ (by simp)⟩
    · exact ⟨drained.idle, drained.dead⟩

theorem prewarm_keeps (calm : Calm o s) (n : Nat) : Calm o (prewarm o n s) := by
  induction n generalizing s with
  | zero => exact calm
  | succ n ih =>
    have next : Calm o (s.spawnOne o) := ⟨spawnOne_keeps calm.1, spawnOne_drained calm.2⟩
    unfold prewarm
    simp only
    split
    · split
      · exact next
      · exact ih next
    · exact calm

theorem onGrammarsLoaded_keeps (calm : Calm o s) {w : WorkerId} (reports : w ∈ s.loading) :
    Calm o (onGrammarsLoaded o { s with loading := s.loading.filter (· ≠ w) } w) := by
  have inv : Inv o { s with loading := s.loading.filter (· ≠ w) } [] := { calm.1 with
    loadingCreated := fun v member => calm.1.loadingCreated v (List.mem_of_mem_filter member)
    loading := fun v member => calm.1.loading v (List.mem_of_mem_filter member) }
  unfold onGrammarsLoaded
  split
  · exact ⟨inv, calm.2.idle, calm.2.dead⟩
  · next live =>
    have live : w ∈ s.workers := not_not.mp live
    have starts : w ∈ s.pending := calm.1.loading w reports live
    have started : Inv o { s with
        loading := s.loading.filter (· ≠ w), pending := s.pending.filter (· ≠ w) } [] :=
      { inv with
        sound := inv.sound.started w
        loading := by
          intro v member there
          obtain ⟨loads, other⟩ := List.mem_filter.mp member
          exact List.mem_filter.mpr ⟨calm.1.loading v loads there, other⟩ }
    have idle : w ∉ s.idle := fun member => calm.1.sound.idleStarting w member starts
    have busy : w ∉ s.place.busy := calm.1.sound.startingBusy w starts
    exact drain_keeps (park_keeps started live idle (by simp) busy)

theorem onParseResult_keeps (calm : Calm o s) {w : WorkerId} {result : ParseId}
    (answers : (w, result) ∈ s.posted) (id : Option ParseId) (parseMs : Option Nat) :
    Calm o (onParseResult o { s with posted := s.posted.filter (· ≠ (w, result)) } w id result
      parseMs) := by
  have inv : Inv o { s with posted := s.posted.filter (· ≠ (w, result)) } [] := { calm.1 with
    postedCreated := fun v j h => calm.1.postedCreated v j (List.mem_of_mem_filter h)
    posted := fun v j h => calm.1.posted v j (List.mem_of_mem_filter h) }
  unfold onParseResult
  simp only
  split
  · exact ⟨inv, calm.2.idle, calm.2.dead⟩
  · next j found =>
    have busy : w ∈ s.place.busy := List.mem_map.mpr ⟨_, mem_of_lookup found, rfl⟩
    have live : w ∈ s.workers := calm.1.sound.busyLive w busy
    -- A live worker answers the parse that it has.
    have own : j = result := Option.some.inj (found.symm.trans
      (lookup_of_mem calm.1.sound.busyNodup (calm.1.posted w result answers live)))
    subst own
    split
    · exact ⟨inv, calm.2.idle, calm.2.dead⟩
    · have taken := take_keeps inv found (by simp)
      have free := not_mem_unassign s.inflight w
      refine drain_keeps (settle_keeps ?_ fun k h => (Outcome.resolved.inj h).symm)
      have counted (measured ms : Nat) := counters_keep taken s.totalCrashes (s.parsesDone + 1)
        measured ms
      have idle : w ∉ s.idle := fun member => calm.1.sound.idleBusy w member busy
      have pending : w ∉ s.pending := fun member => calm.1.sound.startingBusy w member busy
      -- Whatever was measured, the worker is recycled or parked.
      have released {u : ParseWorkerPool} (inv : Inv o u [j]) (workers : w ∈ u.workers)
          (idle : w ∉ u.idle) (pending : w ∉ u.pending) (busy : w ∉ u.place.busy) :
          Inv o (if o.recycleInterval.getD DEFAULT_RECYCLE_INTERVAL ≤ u.parseCounts w
            then u.recycle o w else { u with idle := u.idle ++ [w] }) [j] := by
        split
        · exact recycle_keeps inv busy
        · exact park_keeps inv workers idle pending busy
      cases parseMs with
      | none => exact released (counted _ _) live idle pending free
      | some ms =>
        simp only
        by_cases first : s.parseCounts w ≠ 1
        · simp only [if_pos first]
          exact released (counted _ _) live idle pending free
        · simp only [if_neg first]
          exact released (counted _ _) live idle pending free

private theorem replaced (inv : Inv o s []) :
    Calm o (drain o (if s.healthy then s.spawnOne o else s)) := by
  refine drain_keeps ?_
  split
  · exact spawnOne_keeps inv
  · exact inv

theorem onWorkerGone_keeps (calm : Calm o s) (w : WorkerId) : Calm o (s.onWorkerGone o w) := by
  unfold onWorkerGone
  split
  · exact calm
  · refine replaced ?_
    cases found : lookup s.inflight w with
    | none =>
      have free : w ∉ s.place.busy := lookup_none.mp found
      have same : unassign s.inflight w = s.inflight := unassign_absent free
      have removed := counters_keep (removeWorker_keeps calm.1 free) (s.totalCrashes + 1)
        s.parsesDone s.parsesMeasured s.parseMsMeasured
      simp only [removeWorker, found, same]
      exact removed
    | some j =>
      have lost := counters_keep (lose_keeps calm.1 found) (s.totalCrashes + 1)
        s.parsesDone s.parsesMeasured s.parseMsMeasured
      simp only [removeWorker, found]
      exact settle_keeps lost fun k h => by cases h

theorem onTimeout_keeps (calm : Calm o s) {w : WorkerId} {j : ParseId}
    (timer : (s.jobs j).timer = some w) :
    Calm o (onTimeout { s with
      jobs := fun k => if k = j then { s.jobs j with timer := none } else s.jobs k } w j) := by
  unfold onTimeout
  simp only [if_true]
  split
  · refine ⟨timers_keep calm.1 (fun k => ?_) (fun k v h => ?_), calm.2.idle, calm.2.dead⟩
    · by_cases same : k = j <;> simp [same]
    · by_cases same : k = j
      · simp only [Armed, same, if_true] at h
        exact same ▸ .inr (h.resolve_left (by simp))
      · simpa [Armed, same] using h
  · refine ⟨timers_keep calm.1 (fun k => ?_) (fun k v h => ?_), calm.2.idle, calm.2.dead⟩
    · by_cases same : k = j <;> simp [same]
    · by_cases same : k = j
      · -- The second timer is bound to the worker of the first.
        simp only [Armed, same, if_true] at h
        rcases h with cleared | hard
        · cases cleared
        · exact same ▸ .inl (hard ▸ timer)
      · simpa [Armed, same] using h

theorem onHardTimeout_keeps (calm : Calm o s) {w : WorkerId} {j : ParseId}
    (timer : (s.jobs j).hardKillTimer = some w) :
    Calm o (onHardTimeout o { s with
      jobs := fun k => if k = j then { s.jobs j with hardKillTimer := none } else s.jobs k } w j) := by
  have inv : Inv o { s with
      jobs := fun k => if k = j then { s.jobs j with hardKillTimer := none } else s.jobs k } [] := by
    refine timers_keep calm.1 (fun k => ?_) (fun k v h => ?_)
    · by_cases same : k = j <;> simp [same]
    · by_cases same : k = j
      · simp only [Armed, same, if_true] at h
        exact same ▸ .inl (h.resolve_right (by simp))
      · simpa [Armed, same] using h
  unfold onHardTimeout
  split
  · exact ⟨inv, calm.2.idle, calm.2.dead⟩
  · next acts =>
    rw [not_or, not_not] at acts
    obtain ⟨unsettled, live⟩ := acts
    have unsettled : (s.jobs j).settled = false := by simpa using unsettled
    have runs := calm.1.armed w j List.not_mem_nil unsettled (.inr timer) live
    have found := lookup_of_mem calm.1.sound.busyNodup runs
    exact replaced (settle_keeps (lose_keeps inv found) fun k h => by cases h)

private theorem recycle_queue (s : ParseWorkerPool) (w : WorkerId) :
    (s.recycle o w).queue = s.queue := by
  unfold recycle
  simp only
  split
  · exact spawnOne_queue _
  · rfl

private theorem spawnOne_inflight (s : ParseWorkerPool) : (s.spawnOne o).inflight = s.inflight := by
  unfold spawnOne
  split
  · rfl
  · simp only
    split <;> rfl

private theorem recycle_inflight (s : ParseWorkerPool) (w : WorkerId) :
    (s.recycle o w).inflight = s.inflight := by
  unfold recycle
  simp only
  split
  · exact spawnOne_inflight _
  · rfl

private theorem recycled {ws : List WorkerId} (inv : Inv o s held)
    (free : ∀ w ∈ ws, w ∉ s.place.busy) :
    Inv o (ws.foldl (fun s w => recycle o s w) s) held ∧
      (ws.foldl (fun s w => recycle o s w) s).queue = s.queue := by
  induction ws generalizing s with
  | nil => exact ⟨inv, rfl⟩
  | cons w ws ih =>
    have next := recycle_keeps inv (free w List.mem_cons_self)
    obtain ⟨kept, queue⟩ := ih next fun v member => by
      have busy : (s.recycle o w).place.busy = s.place.busy :=
        congrArg (List.map Prod.fst) (recycle_inflight s w)
      rw [busy]
      exact free v (List.mem_cons_of_mem _ member)
    exact ⟨kept, queue.trans (recycle_queue s w)⟩

theorem recycleAll_keeps (calm : Calm o s) : Calm o (s.recycleAll o) := by
  obtain ⟨kept, queue⟩ := recycled calm.1 calm.1.sound.idleBusy
  by_cases none_ : s.idle = []
  · have same : s.recycleAll o = s := by
      unfold recycleAll
      rw [none_]
      rfl
    rw [same]
    exact calm
  · exact ⟨kept, drained_of_queue (queue.trans (calm.2.idle none_))⟩

private theorem settleAll_cleared (jobs : List ParseId) (reason : Rejection) (s : ParseWorkerPool) :
    { jobs.foldl (fun (s : ParseWorkerPool) j => s.settle j (.rejected reason)) s with
      inflight := [], queue := [] } =
    jobs.foldl (fun (s : ParseWorkerPool) j => s.settle j (.rejected reason))
      { s with inflight := [], queue := [] } := by
  induction jobs generalizing s with
  | nil => rfl
  | cons j jobs ih =>
    have one : { s.settle j (.rejected reason) with inflight := [], queue := [] } =
        ParseWorkerPool.settle { s with inflight := [], queue := [] } j (.rejected reason) := by
      unfold settle
      split <;> rfl
    rw [List.foldl_cons, List.foldl_cons, ih, one]

theorem destroy_keeps (calm : Calm o s) : Calm o s.destroy := by
  unfold destroy
  split
  · exact calm
  · have inv := calm.1
    have cleared : Inv o { s with
        destroyed := true, workers := [], pending := [], parseCounts := fun _ => 0, idle := []
        inflight := [], queue := [] } (s.place.running ++ s.queue ++ []) := { inv with
      sound := inv.sound.clear
      bounded := Nat.zero_le _
      requested := fun j h => by rcases h with queued | runs <;> contradiction
      heldRequested := by
        intro j member
        rcases List.mem_append.mp (List.append_nil _ ▸ member) with runs | queued
        · exact inv.requested j (.inr runs)
        · exact inv.requested j (.inl queued)
      queued := fun _ member => nomatch member
      running := fun _ member => nomatch member
      created := fun _ member => nomatch member
      posted := fun _ _ _ live => nomatch live
      loading := fun _ _ live => nomatch live
      armed := fun _ _ _ _ _ live => nomatch live
      destroyed := fun _ => rfl }
    simp only
    rw [settleAll_cleared]
    exact ⟨settleAll_keeps cleared, drained_of_queue (settleAll_queue _ _ _)⟩

theorem construct_calm : Calm o (construct o) := by
  refine ⟨spawnOne_keeps ?_, spawnOne_drained (drained_of_queue rfl)⟩
  exact {
    sound := .empty fun j h => absurd h.1.2 (Nat.not_lt.mpr h.1.1)
    bounded := Nat.zero_le _
    requested := fun j h => by rcases h with queued | runs <;> contradiction
    heldRequested := fun _ member => nomatch member
    queued := fun _ member => nomatch member
    running := fun _ member => nomatch member
    fresh := fun _ _ => rfl
    first := Nat.le_refl 1
    created := fun _ member => nomatch member
    postedCreated := fun _ _ member => nomatch member
    armedCreated := fun w j h => by rcases h with timer | hard <;> contradiction
    loadingCreated := fun _ member => nomatch member
    posted := fun _ _ member => nomatch member
    loading := fun _ member => nomatch member
    armed := fun w j _ _ h => by rcases h with timer | hard <;> contradiction
    answersNodup := List.nodup_nil
    answered := fun j => by simp
    own := fun _ _ member => nomatch member
    destroyed := fun h => nomatch h }

theorem step_keeps (calm : Calm o s) {e : Event} (taken : step o s e = some t) : Calm o t := by
  cases e with
  | requestParse =>
    cases taken
    exact requestParse_keeps calm
  | prewarm =>
    cases taken
    exact prewarm_keeps calm _
  | grammarsLoaded w =>
    obtain ⟨reports, same⟩ := Option.ite_none_right_eq_some.mp taken
    cases same
    exact onGrammarsLoaded_keeps calm reports
  | parseResult w result hasId parseMs =>
    obtain ⟨answers, same⟩ := Option.ite_none_right_eq_some.mp taken
    cases same
    exact onParseResult_keeps calm answers _ parseMs
  | error w =>
    obtain ⟨-, same⟩ := Option.ite_none_right_eq_some.mp taken
    cases same
    exact onWorkerGone_keeps calm w
  | exit w code =>
    obtain ⟨-, same⟩ := Option.ite_none_right_eq_some.mp taken
    cases same
    split
    · exact onWorkerGone_keeps calm w
    · exact calm
  | timeout j =>
    obtain ⟨w, timer, rfl⟩ := Option.map_eq_some_iff.mp taken
    exact onTimeout_keeps calm timer
  | hardTimeout j =>
    obtain ⟨w, timer, rfl⟩ := Option.map_eq_some_iff.mp taken
    exact onHardTimeout_keeps calm timer
  | recycleAll =>
    cases taken
    exact recycleAll_keeps calm
  | destroy =>
    cases taken
    exact destroy_keeps calm

theorem reachable_calm (reached : Reachable o s) : Calm o s :=
  reached.invariant construct_calm fun _ _ _ calm taken => step_keeps calm taken

def Waiting (s : ParseWorkerPool) (j : ParseId) : Prop :=
  s.Requested j ∧ j ∉ s.answers.map Prod.fst

structure Contract (o : ParseWorkerPoolOptions) (s : ParseWorkerPool) : Prop where
  answeredOnce : (s.answers.map Prod.fst).Nodup
  ownResult : ∀ j k, (j, .resolved k) ∈ s.answers → k = j
  placed : ∀ j, s.Waiting j →
    (s.queue.count j = 1 ∧ ∀ w, (w, j) ∉ s.inflight) ∨ (j ∉ s.queue ∧ ∃! w, (w, j) ∈ s.inflight)
  live : s.workers.Nodup ∧ s.workers.length ≤ o.maxSize ∧
    (∀ w, w ∈ s.idle ∨ w ∈ s.pending ∨ w ∈ s.inflight.map Prod.fst → w ∈ s.workers)
  apart : (s.idle ++ s.pending ++ s.inflight.map Prod.fst).Nodup
  served : ∀ j, s.Waiting j → j ∈ s.queue → s.idle = []
  dead : s.workers = [] → ∀ j, ¬ s.Waiting j
  destroyed : s.destroyed = true → s.workers = []

/-- No parse is lost, answered twice or mixed up, whatever the order of the events. -/
theorem pool_contract (reached : Reachable o s) : Contract o s := by
  obtain ⟨inv, drained⟩ := reachable_calm reached
  have sound := inv.sound
  have unsettled (j : ParseId) (h : s.Waiting j) : s.Unsettled j := by
    refine ⟨h.1, ?_⟩
    by_contra settled
    exact h.2 ((inv.answered j).mpr ((Bool.not_eq_false _).mp settled))
  have placed (j : ParseId) (h : s.Waiting j) : j ∈ s.queue ∨ j ∈ s.place.running := by
    rcases sound.placed j (unsettled j h) with queued | running | inHand
    · exact .inl queued
    · exact .inr running
    · cases inHand
  refine ⟨inv.answersNodup, inv.own, fun j h => sound.placedOnce (unsettled j h),
    ⟨sound.workersNodup, inv.bounded, sound.live⟩, sound.roles, ?_, ?_, inv.destroyed⟩
  · intro j _ queued
    by_contra some_
    rw [drained.idle some_] at queued
    cases queued
  · intro dead j h
    rcases placed j h with queued | running
    · rw [drained.dead dead] at queued
      cases queued
    · obtain ⟨⟨w, i⟩, listed, -⟩ := List.mem_map.mp running
      have live : w ∈ s.workers := sound.busyLive w (List.mem_map.mpr ⟨_, listed, rfl⟩)
      rw [dead] at live
      cases live

def crashRun : List Event :=
  [.grammarsLoaded 0, .requestParse, .requestParse, .exit 0 1, .grammarsLoaded 1, .timeout 2,
    .requestParse, .parseResult 1 2 true (some 9)]

theorem pool_contract_crash :
    let o : ParseWorkerPoolOptions := ⟨1, none, none, fun _ => true, fun _ _ _ => 1⟩
    ∃ s, Transitions.run (step o) (construct o) crashRun = some s ∧
      s.answers = [(1, .rejected .workerDied), (2, .resolved 2)] ∧ s.inflight = [(1, 3)] ∧
      Contract o s := by
  intro o
  have seen : (Transitions.run (step o) (construct o) crashRun).map (fun s => (s.answers, s.inflight)) =
      some ([(1, .rejected .workerDied), (2, .resolved 2)], [(1, 3)]) := by decide +kernel
  obtain ⟨s, done, view⟩ := Option.map_eq_some_iff.mp seen
  obtain ⟨answers, inflight⟩ := Prod.mk.inj view
  exact ⟨s, done, answers, inflight,
    pool_contract (Transitions.run_reachable crashRun .start done)⟩

end CodeGraph.Extraction.ParsePool.ParseWorkerPool
