import CodeGraph.Mcp.QueryPool

/-!
What every step of the query pool keeps.

A call that its soft timer answered may still be queued or in flight, so only the calls that are not
answered must have a place; that no call has two places holds of all of them.
-/
namespace CodeGraph.Mcp.QueryPool

open InsertionMap WorkerPool

def place (s : QueryPool) : Placement WorkerId CallId :=
  ⟨s.workers, s.idle, s.pendingWorkers, s.queue, s.inflight⟩

def Requested (s : QueryPool) (j : CallId) : Prop := 1 ≤ j ∧ j < s.nextId

def Unsettled (s : QueryPool) (j : CallId) : Prop := s.Requested j ∧ (s.jobs j).settled = false

structure Inv (o : QueryPoolOptions) (s : QueryPool) (held : List CallId) : Prop where
  sound : Sound s.place s.Unsettled held
  bounded : s.workers.length ≤ o.maxSize
  requested : ∀ j, j ∈ s.queue ∨ j ∈ s.place.running → s.Requested j
  heldRequested : ∀ j ∈ held, s.Requested j
  fresh : ∀ j, s.nextId ≤ j → s.jobs j = ⟨0, false⟩ ∧ s.dispatched j = 0
  first : 1 ≤ s.nextId
  created : ∀ w ∈ s.workers, w < s.created
  postedCreated : ∀ w j, (w, j) ∈ s.posted → w < s.created
  /-- A live worker owes the answer to its own call only. -/
  posted : ∀ w j, (w, j) ∈ s.posted → w ∈ s.workers → (w, j) ∈ s.inflight
  retries : ∀ j, (s.jobs j).retries ≤ o.maxRetries
  attempts : ∀ j, s.dispatched j ≤ (s.jobs j).retries + 1
  /-- A queued call has been sent once for each retry. -/
  waiting : ∀ j ∈ s.queue, s.dispatched j ≤ (s.jobs j).retries
  answersNodup : (s.answers.map Prod.fst).Nodup
  answered : ∀ j, j ∈ s.answers.map Prod.fst ↔ (s.jobs j).settled = true
  own : ∀ j k, (j, .result k) ∈ s.answers → k = j

variable {o : QueryPoolOptions} {s : QueryPool} {held : List CallId}

theorem spawnOne_keeps (inv : Inv o s held) : Inv o (s.spawnOne o) held := by
  unfold spawnOne
  split
  · exact inv
  · next allowed =>
    rw [not_or] at allowed
    simp only
    split
    · have fresh : s.created ∉ s.workers := fun member => Nat.lt_irrefl _ (inv.created _ member)
      exact { inv with
        sound := inv.sound.spawn fresh
        bounded := by
          rw [List.length_append, List.length_singleton]
          exact Nat.not_le.mp allowed.2
        created := forall_snoc
          (fun w listed => Nat.lt_succ_of_lt (inv.created w listed)) (Nat.lt_succ_self _)
        postedCreated := fun w j h => Nat.lt_succ_of_lt (inv.postedCreated w j h)
        posted := by
          intro w j h member
          have old := inv.postedCreated w j h
          rcases mem_snoc.mp member with listed | last
          · exact inv.posted w j h listed
          · rw [last] at old
            exact absurd old (Nat.lt_irrefl _) }
    · exact { inv with
        created := fun w member => Nat.lt_succ_of_lt (inv.created w member)
        postedCreated := fun w j h => Nat.lt_succ_of_lt (inv.postedCreated w j h) }

theorem spawnWhile_keeps (inv : Inv o s held) (more : QueryPool → Bool) (n : Nat) :
    Inv o (spawnWhile o more n s) held := by
  induction n generalizing s with
  | zero => exact inv
  | succ n ih =>
    unfold spawnWhile
    split
    · exact ih (spawnOne_keeps inv)
    · exact inv

theorem park_keeps (inv : Inv o s held) {w : WorkerId} (live : w ∈ s.workers) (idle : w ∉ s.idle)
    (pending : w ∉ s.pendingWorkers) (busy : w ∉ s.place.busy) (now : Nat) :
    Inv o (s.park w now) held :=
  { inv with sound := inv.sound.park live idle pending busy }

theorem remove_keeps (inv : Inv o s held) {w : WorkerId} (free : w ∉ s.place.busy)
    (since : WorkerId → Option Nat) (crashes : Nat) :
    Inv o { s with
      workers := s.workers.filter (· ≠ w)
      pendingWorkers := s.pendingWorkers.filter (· ≠ w)
      idle := s.idle.filter (· ≠ w)
      idleSince := since
      totalCrashes := crashes } held :=
  { inv with
    sound := inv.sound.remove free
    bounded := Nat.le_trans (List.length_filter_le _ _) inv.bounded
    created := fun v member => inv.created v (List.mem_of_mem_filter member)
    posted := fun v j h member => inv.posted v j h (List.mem_of_mem_filter member) }

private theorem mem_running {w : WorkerId} {j : CallId}
    (runs : j ∈ (unassign s.inflight w).map Prod.snd) : j ∈ s.place.running :=
  List.map_subset _ (unassign_subset _ w) runs

theorem lose_keeps (inv : Inv o s held) {w : WorkerId} {j : CallId}
    (found : lookup s.inflight w = some j) :
    Inv o { s.dropWorker w with inflight := unassign s.inflight w } (j :: held) := by
  have taken := inv.sound.take found
  have live (v : WorkerId) (member : v ∈ s.workers.filter (· ≠ w)) : v ∈ s.workers ∧ v ≠ w := by
    simpa using List.mem_filter.mp member
  have runs : j ∈ s.place.running := List.mem_map.mpr ⟨_, mem_of_lookup found, rfl⟩
  exact { inv with
    sound := taken.remove (not_mem_unassign _ w)
    bounded := Nat.le_trans (List.length_filter_le _ _) inv.bounded
    requested := fun k h => inv.requested k (h.imp_right mem_running)
    heldRequested := List.forall_mem_cons.mpr ⟨inv.requested j (.inr runs), inv.heldRequested⟩
    created := fun v member => inv.created v (live v member).1
    posted := fun v k h member => mem_unassign.mpr
      ⟨inv.posted v k h (live v member).1, (live v member).2⟩ }

/-- The answer of a worker to its call: the call is in hand and the worker has no role. -/
theorem take_keeps (inv : Inv o s held) {w : WorkerId} {j : CallId}
    (found : lookup s.inflight w = some j) (answered : (w, j) ∉ s.posted) :
    Inv o { s with inflight := unassign s.inflight w } (j :: held) := by
  have runs : j ∈ s.place.running := List.mem_map.mpr ⟨_, mem_of_lookup found, rfl⟩
  exact { inv with
    sound := inv.sound.take found
    requested := fun k h => inv.requested k (h.imp_right mem_running)
    heldRequested := List.forall_mem_cons.mpr ⟨inv.requested j (.inr runs), inv.heldRequested⟩
    posted := by
      intro v k h live
      have member := inv.posted v k h live
      refine mem_unassign.mpr ⟨member, ?_⟩
      -- The worker has answered the only call that it had.
      rintro rfl
      have same : k = j := Option.some.inj
        ((lookup_of_mem inv.sound.busyNodup member).symm.trans found)
      exact answered (same ▸ h) }

theorem settle_settled (s : QueryPool) (j : CallId) (answer : Answer) :
    ((s.settle j answer).jobs j).settled = true := by
  unfold settle
  split
  · next done => exact done
  · simp

theorem settle_keeps {j : CallId} {answer : Answer} (inv : Inv o s held) (requested : s.Requested j)
    (own : ∀ k, answer = .result k → k = j) : Inv o (s.settle j answer) held := by
  unfold settle
  split
  · exact inv
  · next open_ =>
    have retries (k : CallId) :
        (if k = j then { s.jobs j with settled := true } else s.jobs k).retries =
          (s.jobs k).retries := by
      split
      · next same => rw [same]
      · rfl
    have absent : j ∉ s.answers.map Prod.fst := fun member => open_ ((inv.answered j).mp member)
    exact { inv with
      sound := inv.sound.weaken fun k h => ⟨h.1, by
        have settled := h.2
        by_cases same : k = j
        · simp [same] at settled
        · simpa [same] using settled⟩
      fresh := by
        intro k beyond
        have later : k ≠ j := Nat.ne_of_gt (Nat.lt_of_lt_of_le requested.2 beyond)
        simp only [if_neg later]
        exact inv.fresh k beyond
      retries := fun k => (retries k).symm ▸ inv.retries k
      attempts := fun k => (retries k).symm ▸ inv.attempts k
      waiting := fun k member => (retries k).symm ▸ inv.waiting k member
      answersNodup := by
        rw [List.map_append]
        exact nodup_snoc inv.answersNodup absent
      answered := by
        intro k
        rw [List.map_append, List.mem_append]
        by_cases same : k = j
        · simp [same]
        · simpa [same] using inv.answered k
      own := by
        intro k i member
        rcases mem_snoc.mp member with old | new
        · exact inv.own k i old
        · obtain ⟨rfl, same⟩ := Prod.mk.inj new
          exact own i same.symm }

/-- A call that is answered is not held. -/
theorem release_keeps {j : CallId} (inv : Inv o s (j :: held)) (done : (s.jobs j).settled = true) :
    Inv o s held :=
  { inv with
    sound := inv.sound.close fun k h => ⟨h, by
      rintro rfl
      rw [h.2] at done
      cases done⟩
    heldRequested := fun k member => inv.heldRequested k (List.mem_cons_of_mem _ member) }

theorem answer_keeps {j : CallId} {answer : Answer} (inv : Inv o s (j :: held))
    (own : ∀ k, answer = .result k → k = j) : Inv o (s.settle j answer) held :=
  release_keeps (settle_keeps inv (inv.heldRequested j List.mem_cons_self) own)
    (settle_settled s j answer)

theorem answerAll_keeps {calls : List CallId} (inv : Inv o s (calls ++ held)) :
    Inv o (calls.foldl (fun s j => s.settle j .shuttingDown) s) held := by
  induction calls generalizing s with
  | nil => exact inv
  | cons j calls ih => exact ih (answer_keeps inv fun k h => nomatch h)

theorem retryOrFail_keeps {j : CallId} (inv : Inv o s (j :: held)) (other : j ∉ held) :
    Inv o (s.retryOrFail o j) held := by
  have apart := inv.sound.heldApart j List.mem_cons_self
  unfold retryOrFail
  split
  · next again =>
    have nodup : (j :: s.queue).Nodup := List.nodup_cons.mpr ⟨apart.1, inv.sound.queueNodup⟩
    have member (k : CallId) : k ∈ j :: s.queue ↔ k ∈ s.queue ∨ k = j := by
      rw [List.mem_cons, or_comm]
    have settled (k : CallId) : (if k = j then
        { s.jobs j with retries := (s.jobs j).retries + 1 } else s.jobs k).settled =
          (s.jobs k).settled := by
      split
      · next same => rw [same]
      · rfl
    have queued := inv.sound.enqueue other nodup member
    exact { inv with
      sound := queued.weaken fun k h => ⟨h.1, (settled k).symm.trans h.2⟩
      requested := by
        rintro k (waits | runs)
        · rcases (member k).mp waits with old | rfl
          · exact inv.requested k (.inl old)
          · exact inv.heldRequested k List.mem_cons_self
        · exact inv.requested k (.inr runs)
      heldRequested := fun k held => inv.heldRequested k (List.mem_cons_of_mem _ held)
      fresh := by
        intro k beyond
        have below := (inv.heldRequested j List.mem_cons_self).2
        have later : k ≠ j := Nat.ne_of_gt (Nat.lt_of_lt_of_le below beyond)
        simp only [if_neg later]
        exact inv.fresh k beyond
      retries := by
        intro k
        by_cases same : k = j
        · simpa [same, Nat.succ_le_iff] using again.1
        · simpa [same] using inv.retries k
      attempts := by
        intro k
        by_cases same : k = j
        · simpa [same] using Nat.le_succ_of_le (inv.attempts j)
        · simpa [same] using inv.attempts k
      waiting := by
        intro k waits
        by_cases same : k = j
        · -- The crash has used up one attempt, and the retry allows for it.
          simpa [same] using inv.attempts j
        · have old := ((member k).mp waits).resolve_right same
          simpa [same] using inv.waiting k old
      answered := fun k => (inv.answered k).trans (by
        change _ ↔ (if k = j then
          { s.jobs j with retries := (s.jobs j).retries + 1 } else s.jobs k).settled = true
        rw [settled]) }
  · exact answer_keeps inv fun k h => nomatch h

theorem skip_keeps {j : CallId} {rest : List CallId} (inv : Inv o s held)
    (queue : s.queue = j :: rest) (done : (s.jobs j).settled = true) :
    Inv o { s with queue := rest } held := by
  have later (k : CallId) (member : k ∈ rest) : k ∈ s.queue := by
    rw [queue]
    exact List.mem_cons_of_mem _ member
  exact { inv with
    sound := (inv.sound.shift (p := s.place) queue).close fun k h => ⟨h, by
      rintro rfl
      have pending : (s.jobs k).settled = false := h.2
      rw [pending] at done
      cases done⟩
    requested := fun k h => inv.requested k (h.imp_left (later k))
    waiting := fun k member => inv.waiting k (later k member) }

theorem dispatch_keeps (inv : Inv o s held) {w : WorkerId} {j : CallId} {rest : List CallId}
    {idle : List WorkerId} (stack : s.idle = idle ++ [w]) (queue : s.queue = j :: rest)
    (other : j ∉ held) : Inv o (dispatch { s with queue := rest, idle := idle } w j) held := by
  have isIdle : w ∈ s.idle := by rw [stack]; exact List.mem_append_right _ List.mem_cons_self
  have waits : j ∈ s.queue := by rw [queue]; exact List.mem_cons_self
  have later (k : CallId) (member : k ∈ rest) : k ∈ s.queue := by
    rw [queue]
    exact List.mem_cons_of_mem _ member
  have gone : j ∉ rest := by
    have nodup : s.queue.Nodup := inv.sound.queueNodup
    rw [queue, List.nodup_cons] at nodup
    exact nodup.1
  have assigned : assign s.inflight w j = s.inflight ++ [(w, j)] :=
    assign_absent (inv.sound.idleBusy w isIdle) j
  have running (k : CallId) (runs : k ∈ (assign s.inflight w j).map Prod.snd) :
      k ∈ s.place.running ∨ k = j := by
    rw [assigned] at runs
    simpa [Placement.running, place] using runs
  exact { inv with
    sound := (inv.sound.shift (p := s.place) queue).dispatch other stack
    requested := by
      rintro k (queued | runs)
      · exact inv.requested k (.inl (later k queued))
      · rcases running k runs with old | rfl
        · exact inv.requested k (.inr old)
        · exact inv.requested k (.inl waits)
    fresh := by
      intro k beyond
      have below := (inv.requested j (.inl waits)).2
      have apart : k ≠ j := Nat.ne_of_gt (Nat.lt_of_lt_of_le below beyond)
      simp only [dispatch, if_neg apart]
      exact inv.fresh k beyond
    postedCreated := by
      intro v k member
      rcases mem_snoc.mp member with old | new
      · exact inv.postedCreated v k old
      · cases new
        exact inv.created w (inv.sound.idleLive w isIdle)
    posted := by
      intro v k member live
      change (v, k) ∈ assign s.inflight w j
      rw [assigned]
      rcases List.mem_append.mp member with old | new
      · exact List.mem_append_left _ (inv.posted v k old live)
      · exact List.mem_append_right _ new
    attempts := by
      intro k
      by_cases same : k = j
      · simpa [dispatch, same] using inv.waiting j waits
      · simpa [dispatch, same] using inv.attempts k
    waiting := by
      intro k queued
      have apart : k ≠ j := fun same => gone (same ▸ queued)
      simpa [dispatch, apart] using inv.waiting k (later k queued) }

end CodeGraph.Mcp.QueryPool
