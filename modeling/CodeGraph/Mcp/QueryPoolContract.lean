import CodeGraph.Mcp.QueryPoolInv

/-!
What the pool promises about its calls and its workers, over any order of events.

The invariant is kept by each handler; the promise is read off it, with what a retirement and the
end of the pool do to a state that the events lead to.
-/
namespace CodeGraph.Mcp.QueryPool

open InsertionMap WorkerPool

variable {o : QueryPoolOptions} {s t : QueryPool} {held : List CallId}

/-! ### `drain` -/

def spawnsLeft (o : QueryPoolOptions) (s : QueryPool) : Nat :=
  (CRASH_BUDGET - s.totalCrashes) + (o.maxSize - s.workers.length)

theorem spawnsLeft_le (s : QueryPool) : spawnsLeft o s ≤ spawnFuel := by
  have size : o.maxSize ≤ MAX_POOL_SIZE := Nat.max_le.mpr ⟨by decide, Nat.min_le_right _ _⟩
  unfold spawnsLeft spawnFuel
  omega

private theorem spawnsLeft_spawnOne (healthy : s.healthy = true)
    (room : s.workers.length < o.maxSize) : spawnsLeft o (s.spawnOne o) < spawnsLeft o s := by
  simp only [QueryPool.healthy, Bool.and_eq_true, Bool.not_eq_true', decide_eq_true_eq] at healthy
  have free : ¬ (s.destroyed = true ∨ o.maxSize ≤ s.workers.length) := by
    rintro (gone | full)
    · rw [healthy.1] at gone
      cases gone
    · omega
  unfold spawnOne
  rw [if_neg free]
  simp only
  split
  · simp only [spawnsLeft, List.length_append, List.length_singleton]
    omega
  · simp only [spawnsLeft]
    omega

theorem spawnWhile_stops {more : QueryPool → Bool}
    (limits : ∀ s, more s = true → s.healthy = true ∧ s.workers.length < o.maxSize) {n : Nat}
    (enough : spawnsLeft o s ≤ n) : more (spawnWhile o more n s) = false := by
  induction n generalizing s with
  | zero =>
    by_contra again
    have goes : more s = true := (Bool.not_eq_false _).mp again
    exact absurd (spawnsLeft_spawnOne (limits s goes).1 (limits s goes).2) (by omega)
  | succ n ih =>
    unfold spawnWhile
    split
    · next goes =>
      have less := spawnsLeft_spawnOne (limits s goes).1 (limits s goes).2
      exact ih (by omega)
    · next done => exact (Bool.not_eq_true _).mp done

theorem belowFloor_limits (s : QueryPool) (more : belowFloor o s = true) :
    s.healthy = true ∧ s.workers.length < o.maxSize := by
  have floor : o.floor ≤ o.maxSize := Nat.min_le_right _ _
  simp only [belowFloor, Bool.and_eq_true, decide_eq_true_eq] at more
  exact ⟨more.2, Nat.lt_of_lt_of_le more.1.1 floor⟩

theorem grows_limits (s : QueryPool) (more : grows o s = true) :
    s.healthy = true ∧ s.workers.length < o.maxSize := by
  simp only [grows, Bool.and_eq_true, decide_eq_true_eq] at more
  exact ⟨more.2, more.1.1.2⟩

private theorem shiftUnsettled_cases (queue : List CallId)
    (inv : Inv o { s with queue := queue } held) :
    (s.shiftUnsettled queue = (none, []) ∧ Inv o { s with queue := [] } held) ∨
      ∃ j rest, s.shiftUnsettled queue = (some j, rest) ∧ rest.length < queue.length ∧
        Inv o { s with queue := j :: rest } held := by
  induction queue with
  | nil => exact .inl ⟨rfl, inv⟩
  | cons j queue ih =>
    by_cases done : (s.jobs j).settled = true
    · rw [shiftUnsettled, if_pos done]
      have skipped := skip_keeps inv rfl done
      rcases ih skipped with empty | ⟨k, rest, found, shorter, kept⟩
      · exact .inl empty
      · exact .inr ⟨k, rest, found, Nat.lt_succ_of_lt shorter, kept⟩
    · rw [shiftUnsettled, if_neg done]
      exact .inr ⟨j, queue, rfl, Nat.lt_succ_self _, inv⟩

theorem dispatchQueued_keeps {n : Nat} (inv : Inv o s []) (enough : s.queue.length < n) :
    Inv o (s.dispatchQueued n) [] ∧
      ((s.dispatchQueued n).idle = [] ∨ (s.dispatchQueued n).queue = []) := by
  induction n generalizing s with
  | zero => exact absurd enough (Nat.not_lt_zero _)
  | succ n ih =>
    unfold dispatchQueued
    cases last : s.idle.getLast? with
    | none => exact ⟨inv, .inl (List.getLast?_eq_none_iff.mp last)⟩
    | some w =>
      have stack : s.idle = s.idle.dropLast ++ [w] := by
        obtain ⟨front, idle⟩ := List.getLast?_eq_some_iff.mp last
        rw [idle, List.dropLast_concat]
      rcases shiftUnsettled_cases s.queue inv with
        ⟨found, kept⟩ | ⟨j, rest, found, shorter, kept⟩
      · simp only [found]
        exact ⟨kept, .inr trivial⟩
      · simp only [found]
        exact ih (dispatch_keeps kept stack rfl List.not_mem_nil) (by
          change rest.length < n
          omega)

def Calm (o : QueryPoolOptions) (s : QueryPool) : Prop := Inv o s [] ∧ (s.idle = [] ∨ s.queue = [])

theorem drain_keeps (inv : Inv o s []) : Calm o (s.drain o) := by
  have warmed := spawnWhile_keeps inv (belowFloor o) spawnFuel
  have grown := spawnWhile_keeps warmed (grows o) spawnFuel
  exact dispatchQueued_keeps grown (Nat.lt_succ_self _)

private theorem spawnOne_served (served : s.idle = [] ∨ s.queue = []) :
    (s.spawnOne o).idle = [] ∨ (s.spawnOne o).queue = [] := by
  unfold spawnOne
  split
  · exact served
  · simp only
    split <;> exact served

theorem warm_keeps (calm : Calm o s) : Calm o (s.warm o) := by
  refine ⟨spawnWhile_keeps calm.1 _ _, ?_⟩
  have loop (n : Nat) : ∀ s : QueryPool, s.idle = [] ∨ s.queue = [] →
      (spawnWhile o (belowFloor o) n s).idle = [] ∨ (spawnWhile o (belowFloor o) n s).queue = [] := by
    induction n with
    | zero => exact fun _ served => served
    | succ n ih =>
      intro s served
      unfold spawnWhile
      split
      · exact ih _ (spawnOne_served served)
      · exact served
  exact loop _ s calm.2

theorem run_keeps (calm : Calm o s) : Calm o (s.run o) := by
  refine drain_keeps ?_
  have inv := calm.1
  have old (j : CallId) (h : s.Requested j) : j ≠ s.nextId := Nat.ne_of_lt h.2
  have queue : s.nextId ∉ s.queue := fun member => old _ (inv.requested _ (.inl member)) rfl
  have running : s.nextId ∉ s.place.running := fun member => old _ (inv.requested _ (.inr member)) rfl
  have later (j : CallId) (h : s.Requested j) :
      Requested { s with nextId := s.nextId + 1, queue := s.queue ++ [s.nextId] } j :=
    ⟨h.1, Nat.lt_succ_of_lt h.2⟩
  have member (j : CallId) : j ∈ s.queue ++ [s.nextId] ↔ j ∈ s.queue ∨ j = s.nextId := by simp
  have opened : Sound s.place
      (Unsettled { s with nextId := s.nextId + 1, queue := s.queue ++ [s.nextId] })
      [s.nextId] := inv.sound.open queue running fun k h => by
    rcases Nat.lt_succ_iff_lt_or_eq.mp h.1.2 with below | last
    · exact .inl ⟨⟨h.1.1, below⟩, h.2⟩
    · exact .inr last
  obtain ⟨job, unsent⟩ := inv.fresh s.nextId (Nat.le_refl _)
  exact { inv with
    sound := opened.enqueueLast List.not_mem_nil
    requested := by
      rintro j (queued | runs)
      · rcases (member j).mp queued with listed | rfl
        · exact later j (inv.requested j (.inl listed))
        · exact ⟨inv.first, Nat.lt_succ_self _⟩
      · exact later j (inv.requested j (.inr runs))
    heldRequested := fun _ inHand => nomatch inHand
    fresh := fun j le => inv.fresh j (Nat.le_of_succ_le le)
    first := Nat.le_succ_of_le inv.first
    waiting := by
      intro j queued
      rcases (member j).mp queued with listed | rfl
      · exact inv.waiting j listed
      · change s.dispatched s.nextId ≤ _
        rw [unsent]
        exact Nat.zero_le _ }

theorem onWorkerGone_keeps (inv : Inv o s []) (served : s.idle = [] ∨ s.queue = [])
    (w : WorkerId) : Calm o (s.onWorkerGone o w) := by
  have spawned {u : QueryPool} {calls : List CallId} (kept : Inv o u calls) :
      Inv o (if u.healthy then u.spawnOne o else u) calls := by
    split
    · exact spawnOne_keeps kept
    · exact kept
  unfold onWorkerGone
  split
  · exact ⟨inv, served⟩
  · refine drain_keeps ?_
    cases found : lookup s.inflight w with
    | none =>
      have free : w ∉ s.place.busy := lookup_none.mp found
      have same : unassign s.inflight w = s.inflight := unassign_absent free
      have removed := remove_keeps inv free (fun v => if v = w then none else s.idleSince v)
        (s.totalCrashes + 1)
      simp only [dropWorker, found, same]
      exact spawned removed
    | some j =>
      simp only [dropWorker, found]
      exact retryOrFail_keeps (spawned (lose_keeps inv found)) List.not_mem_nil

theorem onReady_keeps (calm : Calm o s) (w : WorkerId) (ok : Bool) (now : Nat) :
    Calm o (s.onReady o w ok now) := by
  unfold onReady
  split
  · exact calm
  · next live =>
    split
    · exact calm
    · next starts =>
      have live : w ∈ s.workers := not_not.mp live
      have starts : w ∈ s.pendingWorkers := not_not.mp starts
      have started : Inv o { s with pendingWorkers := s.pendingWorkers.filter (· ≠ w) } [] :=
        { calm.1 with sound := calm.1.sound.started w }
      simp only
      split
      · have warmed : Inv o { s with
            pendingWorkers := s.pendingWorkers.filter (· ≠ w), everReady := true } [] :=
          { started with }
        have idle : w ∉ s.idle := fun member => calm.1.sound.idleStarting w member starts
        have busy : w ∉ s.place.busy := calm.1.sound.startingBusy w starts
        exact drain_keeps (park_keeps warmed live idle (by simp) busy now)
      · exact onWorkerGone_keeps started calm.2 w

theorem onResult_keeps (calm : Calm o s) {w : WorkerId} {call : CallId}
    (answers : (w, call) ∈ s.posted) (hasResult : Bool) (now : Nat) :
    Calm o (onResult o { s with posted := s.posted.filter (· ≠ (w, call)) } w
      (if hasResult then some call else none) now) := by
  have inv : Inv o { s with posted := s.posted.filter (· ≠ (w, call)) } [] := { calm.1 with
    postedCreated := fun v j h => calm.1.postedCreated v j (List.mem_of_mem_filter h)
    posted := fun v j h => calm.1.posted v j (List.mem_of_mem_filter h) }
  unfold onResult
  split
  · exact ⟨inv, calm.2⟩
  · next live =>
    have live : w ∈ s.workers := not_not.mp live
    -- A live worker answers the call that it has.
    have found := lookup_of_mem calm.1.sound.busyNodup (calm.1.posted w call answers live)
    have busy : w ∈ s.place.busy := List.mem_map.mpr ⟨_, mem_of_lookup found, rfl⟩
    have idle : w ∉ s.idle := fun member => calm.1.sound.idleBusy w member busy
    have pending : w ∉ s.pendingWorkers := fun member => calm.1.sound.startingBusy w member busy
    have parked := park_keeps (take_keeps inv found (by simp)) live idle pending
      (not_mem_unassign _ w) now
    have found' : lookup s.inflight w = some call := found
    simp only [found']
    refine drain_keeps (answer_keeps parked fun k same => ?_)
    cases hasResult with
    | false => cases same
    | true => exact (Answer.result.inj same).symm

/-! ### Retirement -/

private theorem length_retired {w : WorkerId} (nodup : s.workers.Nodup) :
    s.workers.length - 1 ≤ (s.workers.filter (· ≠ w)).length := by
  have erased : s.workers.filter (· ≠ w) = s.workers.erase w := by
    rw [nodup.erase_eq_filter]
    exact List.filter_congr fun v _ => by by_cases same : v = w <;> simp [same]
  rw [erased]
  exact List.le_length_erase

/-- Workers that only wait are retired one after another, as long as more than `keep` are left. -/
private theorem retireAll_keeps {keep : Nat} {ws : List WorkerId} (inv : Inv o s held)
    (waits : ∀ w ∈ ws, w ∉ s.place.busy ∧ w ∉ s.pendingWorkers) (enough : keep ≤ s.workers.length) :
    Inv o (retireAll keep ws s) held ∧ keep ≤ (retireAll keep ws s).workers.length ∧
      (retireAll keep ws s).inflight = s.inflight ∧ (retireAll keep ws s).queue = s.queue ∧
      (s.idle = [] → (retireAll keep ws s).idle = []) := by
  induction ws generalizing s with
  | nil => exact ⟨inv, enough, rfl, rfl, id⟩
  | cons w ws ih =>
    obtain ⟨free, ready⟩ := waits w List.mem_cons_self
    unfold retireAll
    split
    · exact ⟨inv, enough, rfl, rfl, id⟩
    · next more =>
      have pending : s.pendingWorkers.filter (· ≠ w) = s.pendingWorkers := by
        refine List.filter_eq_self.mpr fun v member => ?_
        simp only [ne_eq, decide_not, Bool.not_eq_true', decide_eq_false_iff_not]
        rintro rfl
        exact ready member
      have removed := remove_keeps inv free (fun v => if v = w then none else s.idleSince v)
        s.totalCrashes
      rw [pending] at removed
      have left := length_retired (w := w) inv.sound.workersNodup
      obtain ⟨kept, some_, inflight, queue, idle⟩ := ih removed
        (fun v member => waits v (List.mem_cons_of_mem _ member)) (by
          change keep ≤ (s.workers.filter (· ≠ w)).length
          omega)
      exact ⟨kept, some_, inflight, queue, fun none_ => idle (by simp [none_])⟩

private def cool (s : QueryPool) : QueryPool :=
  if s.workers.length = 0 then { s with everReady := false } else s

private theorem cool_keeps (calm : Calm o s) :
    Calm o (cool s) ∧ (cool s).inflight = s.inflight ∧ (cool s).workers = s.workers := by
  unfold cool
  split
  · exact ⟨⟨{ calm.1 with }, calm.2⟩, rfl, rfl⟩
  · exact ⟨calm, rfl, rfl⟩

private theorem stale_idle {now : Nat} {w : WorkerId} (member : w ∈ s.stale o now) : w ∈ s.idle :=
  List.mem_of_mem_filter (List.mem_mergeSort.mp member)

/-- A retirement leaves the calls where they are, and the worker of a rooted pool. -/
theorem retireIdle_keeps (calm : Calm o s) (now : Nat) :
    Calm o (s.retireIdle o now) ∧ (s.retireIdle o now).inflight = s.inflight ∧
      (o.root = true → s.workers ≠ [] → (s.retireIdle o now).workers ≠ []) := by
  have sound := calm.1.sound
  have waits (w : WorkerId) (member : w ∈ s.stale o now) :
      w ∉ s.place.busy ∧ w ∉ s.pendingWorkers :=
    ⟨sound.idleBusy w (stale_idle member), sound.idleStarting w (stale_idle member)⟩
  by_cases gone : s.destroyed = true
  · rw [retireIdle, if_pos gone]
    exact ⟨calm, rfl, fun _ some_ => some_⟩
  · have cooled : s.retireIdle o now =
        cool (retireAll (if o.root then 1 else 0) (s.stale o now) s) := by
      rw [retireIdle, if_neg gone]
      rfl
    rw [cooled]
    by_cases few : s.workers.length < if o.root then 1 else 0
    · -- A rooted pool without workers has none to retire.
      have none_ : s.workers = [] := by
        rw [← List.length_eq_zero_iff]
        split at few <;> omega
      have same : s.stale o now = [] := List.eq_nil_iff_forall_not_mem.mpr fun w member => by
        have live : w ∈ s.workers := sound.idleLive w (stale_idle member)
        rw [none_] at live
        cases live
      obtain ⟨kept, inflight, workers⟩ := cool_keeps calm
      rw [same, retireAll]
      exact ⟨kept, inflight, fun _ some_ => workers ▸ some_⟩
    · obtain ⟨kept, left, inflight, queue, idle⟩ :=
        retireAll_keeps calm.1 waits (Nat.not_lt.mp few)
      have served : (retireAll (if o.root then 1 else 0) (s.stale o now) s).idle = [] ∨
          (retireAll (if o.root then 1 else 0) (s.stale o now) s).queue = [] := by
        rcases calm.2 with none_ | empty
        · exact .inl (idle none_)
        · exact .inr (queue.trans empty)
      obtain ⟨calm', inflight', workers⟩ := cool_keeps ⟨kept, served⟩
      refine ⟨calm', inflight'.trans inflight, fun root _ => ?_⟩
      rw [workers]
      rw [root] at left ⊢
      exact List.ne_nil_of_length_pos left

private theorem answerAll_cleared (calls : List CallId) (s : QueryPool) :
    { calls.foldl (fun (s : QueryPool) j => s.settle j .shuttingDown) s with
      inflight := [], queue := [] } =
    calls.foldl (fun (s : QueryPool) j => s.settle j .shuttingDown)
      { s with inflight := [], queue := [] } := by
  induction calls generalizing s with
  | nil => rfl
  | cons j calls ih =>
    have one : { s.settle j .shuttingDown with inflight := [], queue := [] } =
        QueryPool.settle { s with inflight := [], queue := [] } j .shuttingDown := by
      unfold settle
      split <;> rfl
    rw [List.foldl_cons, List.foldl_cons, ih, one]

private theorem answerAll_places (calls : List CallId) (s : QueryPool) :
    (calls.foldl (fun (s : QueryPool) j => s.settle j .shuttingDown) s).place = s.place := by
  induction calls generalizing s with
  | nil => rfl
  | cons j calls ih =>
    refine (ih (s.settle j .shuttingDown)).trans ?_
    unfold settle
    split <;> rfl

theorem destroy_keeps (calm : Calm o s) :
    Calm o s.destroy ∧ (s.destroyed = false → s.destroy.place = ⟨[], [], [], [], []⟩) := by
  unfold destroy
  split
  · next gone =>
    refine ⟨calm, fun alive => ?_⟩
    rw [gone] at alive
    cases alive
  · have inv := calm.1
    have cleared : Inv o { s with
        destroyed := true, workers := [], pendingWorkers := [], idle := []
        inflight := [], queue := [] } (s.place.running ++ s.queue ++ []) := { inv with
      sound := inv.sound.clear
      bounded := Nat.zero_le _
      requested := fun j h => by rcases h with queued | runs <;> contradiction
      heldRequested := by
        intro j member
        rcases List.mem_append.mp (List.append_nil _ ▸ member) with runs | queued
        · exact inv.requested j (.inr runs)
        · exact inv.requested j (.inl queued)
      created := fun _ member => nomatch member
      posted := fun _ _ _ live => nomatch live
      waiting := fun _ member => nomatch member }
    simp only
    rw [answerAll_cleared]
    have places := answerAll_places (s.inflight.map Prod.snd ++ s.queue) { s with
        destroyed := true, workers := [], pendingWorkers := [], idle := []
        inflight := [], queue := [] }
    have queue := congrArg Placement.queue places
    exact ⟨⟨answerAll_keeps cleared, .inr queue⟩, fun _ => places⟩

/-! ### Runs -/

theorem construct_calm : Calm o (construct o) := by
  have empty : Inv o
      { idle := [], queue := [], inflight := [], workers := [], pendingWorkers := []
        nextId := 1, totalCrashes := 0, destroyed := false, idleSince := fun _ => none
        everReady := false, jobs := fun _ => ⟨0, false⟩, created := 0, answers := [], posted := []
        dispatched := fun _ => 0 } [] := {
    sound := .empty fun j h => absurd h.1.2 (Nat.not_lt.mpr h.1.1)
    bounded := Nat.zero_le _
    requested := fun j h => by rcases h with queued | runs <;> contradiction
    heldRequested := fun _ member => nomatch member
    fresh := fun _ _ => ⟨rfl, rfl⟩
    first := Nat.le_refl 1
    created := fun _ member => nomatch member
    postedCreated := fun _ _ member => nomatch member
    posted := fun _ _ member => nomatch member
    retries := fun _ => Nat.zero_le _
    attempts := fun _ => Nat.zero_le _
    waiting := fun _ member => nomatch member
    answersNodup := List.nodup_nil
    answered := fun j => by simp
    own := fun _ _ member => nomatch member }
  unfold construct
  simp only
  split
  · exact ⟨spawnOne_keeps empty, spawnOne_served (.inl rfl)⟩
  · exact ⟨empty, .inl rfl⟩

theorem step_keeps (calm : Calm o s) {e : Event} (taken : step o s e = some t) : Calm o t := by
  cases e with
  | run =>
    cases taken
    exact run_keeps calm
  | warm =>
    cases taken
    exact warm_keeps calm
  | ready w ok now =>
    obtain ⟨-, same⟩ := Option.ite_none_right_eq_some.mp taken
    cases same
    exact onReady_keeps calm w ok now
  | result w call hasResult now =>
    obtain ⟨answers, same⟩ := Option.ite_none_right_eq_some.mp taken
    cases same
    exact onResult_keeps calm answers hasResult now
  | error w =>
    obtain ⟨-, same⟩ := Option.ite_none_right_eq_some.mp taken
    cases same
    exact onWorkerGone_keeps calm.1 calm.2 w
  | exit w code =>
    obtain ⟨-, same⟩ := Option.ite_none_right_eq_some.mp taken
    cases same
    split
    · exact onWorkerGone_keeps calm.1 calm.2 w
    · exact calm
  | softTimeout j =>
    obtain ⟨requested, same⟩ := Option.ite_none_right_eq_some.mp taken
    cases same
    unfold onSoftTimeout
    split
    · exact calm
    · refine ⟨settle_keeps calm.1 requested (fun k h => nomatch h), ?_⟩
      unfold settle
      split <;> exact calm.2
  | retireIdle now =>
    obtain ⟨-, same⟩ := Option.ite_none_left_eq_some.mp taken
    cases same
    exact (retireIdle_keeps calm now).1
  | destroy =>
    cases taken
    exact (destroy_keeps calm).1

theorem reachable_calm (reached : Reachable o s) : Calm o s :=
  reached.invariant construct_calm fun _ _ _ calm taken => step_keeps calm taken

def Waiting (s : QueryPool) (j : CallId) : Prop := s.Requested j ∧ j ∉ s.answers.map Prod.fst

structure Contract (o : QueryPoolOptions) (s : QueryPool) : Prop where
  answeredOnce : (s.answers.map Prod.fst).Nodup
  ownResult : ∀ j k, (j, .result k) ∈ s.answers → k = j
  placed : ∀ j, s.Waiting j →
    (s.queue.count j = 1 ∧ ∀ w, (w, j) ∉ s.inflight) ∨ (j ∉ s.queue ∧ ∃! w, (w, j) ∈ s.inflight)
  destroy : s.destroyed = false → ∀ j, ¬ s.destroy.Waiting j
  attempts : ∀ j, s.dispatched j ≤ 1 + o.maxRetries
  live : s.workers.Nodup ∧ s.workers.length ≤ o.maxSize ∧
    (∀ w, w ∈ s.idle ∨ w ∈ s.pendingWorkers ∨ w ∈ s.inflight.map Prod.fst → w ∈ s.workers)
  apart : (s.idle ++ s.pendingWorkers ++ s.inflight.map Prod.fst).Nodup
  served : ∀ j, s.Waiting j → j ∈ s.queue → s.idle = []
  retired : ∀ now w j, (w, j) ∈ s.inflight →
    w ∈ (s.retireIdle o now).workers ∧ (w, j) ∈ (s.retireIdle o now).inflight
  rooted : ∀ now, o.root = true → s.workers ≠ [] → (s.retireIdle o now).workers ≠ []

private theorem Waiting.unsettled {j : CallId} (inv : Inv o s held) (h : s.Waiting j) :
    s.Unsettled j := by
  refine ⟨h.1, ?_⟩
  by_contra settled
  exact h.2 ((inv.answered j).mpr ((Bool.not_eq_false _).mp settled))

private theorem Waiting.place {j : CallId} (inv : Inv o s []) (h : s.Waiting j) :
    j ∈ s.queue ∨ j ∈ s.place.running := by
  rcases inv.sound.placed j (h.unsettled inv) with queued | running | inHand
  · exact .inl queued
  · exact .inr running
  · cases inHand

/-- Every call is answered at most once and has one place until then, whatever the order of the
events. -/
theorem query_pool_contract (reached : Reachable o s) : Contract o s := by
  have calm := reachable_calm reached
  obtain ⟨inv, drained⟩ := calm
  have sound := inv.sound
  refine ⟨inv.answersNodup, inv.own, fun j h => sound.placedOnce (h.unsettled inv), ?_, ?_,
    ⟨sound.workersNodup, inv.bounded, sound.live⟩, sound.roles, ?_, ?_, fun now => (retireIdle_keeps ⟨inv, drained⟩ now).2.2⟩
  · intro alive j h
    obtain ⟨after, cleared⟩ := destroy_keeps ⟨inv, drained⟩
    have places : s.destroy.place = ⟨[], [], [], [], []⟩ := cleared alive
    rcases h.place after.1 with queued | running
    · have queue : s.destroy.queue = [] := congrArg Placement.queue places
      rw [queue] at queued
      cases queued
    · rw [places] at running
      cases running
  · intro j
    have tried := inv.attempts j
    have retried := inv.retries j
    omega
  · intro j _ queued
    rcases drained with none_ | empty
    · exact none_
    · rw [empty] at queued
      cases queued
  · intro now w j member
    obtain ⟨after, inflight, -⟩ := retireIdle_keeps ⟨inv, drained⟩ now
    rw [inflight]
    refine ⟨?_, member⟩
    have busy : w ∈ (s.retireIdle o now).inflight.map Prod.fst := by
      rw [inflight]
      exact List.mem_map.mpr ⟨_, member, rfl⟩
    exact after.1.sound.busyLive w busy

def crashRun : List Event :=
  [.ready 0 true 5, .run, .run, .error 0, .exit 0 1, .ready 1 true 9, .softTimeout 2]

theorem query_pool_contract_crash :
    let o : QueryPoolOptions := ⟨true, 1, 1, 60000, 0, fun _ => true⟩
    ∃ s, Transitions.run (step o) (construct o) crashRun = some s ∧
      s.inflight = [(1, 1)] ∧ s.queue = [2] ∧ s.answers = [(2, .busyGuidance)] ∧ Contract o s := by
  intro o
  have seen : (Transitions.run (step o) (construct o) crashRun).map
      (fun s => (s.inflight, s.queue, s.answers)) =
        some ([(1, 1)], [2], [(2, .busyGuidance)]) := by decide +kernel
  obtain ⟨s, done, view⟩ := Option.map_eq_some_iff.mp seen
  obtain ⟨inflight, rest⟩ := Prod.mk.inj view
  obtain ⟨queue, answers⟩ := Prod.mk.inj rest
  exact ⟨s, done, inflight, queue, answers,
    query_pool_contract (Transitions.run_reachable crashRun .start done)⟩

end CodeGraph.Mcp.QueryPool
