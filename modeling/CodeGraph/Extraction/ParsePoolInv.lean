import CodeGraph.Extraction.ParsePool

/-! What every step of the parse pool keeps. -/
namespace CodeGraph.Extraction.ParsePool.ParseWorkerPool

open InsertionMap WorkerPool

def place (s : ParseWorkerPool) : Placement WorkerId ParseId :=
  ⟨s.workers, s.idle, s.pending, s.queue, s.inflight⟩

def Requested (s : ParseWorkerPool) (j : ParseId) : Prop := 1 ≤ j ∧ j < s.nextId

def Unsettled (s : ParseWorkerPool) (j : ParseId) : Prop :=
  s.Requested j ∧ (s.jobs j).settled = false

def Armed (s : ParseWorkerPool) (j : ParseId) (w : WorkerId) : Prop :=
  (s.jobs j).timer = some w ∨ (s.jobs j).hardKillTimer = some w

structure Inv (o : ParseWorkerPoolOptions) (s : ParseWorkerPool) (held : List ParseId) : Prop where
  sound : Sound s.place s.Unsettled held
  bounded : s.workers.length ≤ o.maxSize
  requested : ∀ j, j ∈ s.queue ∨ j ∈ s.place.running → s.Requested j
  heldRequested : ∀ j ∈ held, s.Requested j
  queued : ∀ j ∈ s.queue, (s.jobs j).settled = false
  running : ∀ j ∈ s.place.running, (s.jobs j).settled = false
  fresh : ∀ j, s.nextId ≤ j → (s.jobs j).settled = false
  first : 1 ≤ s.nextId
  created : ∀ w ∈ s.workers, w < s.created
  postedCreated : ∀ w j, (w, j) ∈ s.posted → w < s.created
  armedCreated : ∀ w j, s.Armed j w → w < s.created
  loadingCreated : ∀ w ∈ s.loading, w < s.created
  /-- A live worker owes the answer to its own parse only. -/
  posted : ∀ w j, (w, j) ∈ s.posted → w ∈ s.workers → (w, j) ∈ s.inflight
  loading : ∀ w ∈ s.loading, w ∈ s.workers → w ∈ s.pending
  /-- A timer that can act belongs to the worker's own parse. -/
  armed : ∀ w j, j ∉ held → (s.jobs j).settled = false → s.Armed j w → w ∈ s.workers →
    (w, j) ∈ s.inflight
  answersNodup : (s.answers.map Prod.fst).Nodup
  answered : ∀ j, j ∈ s.answers.map Prod.fst ↔ (s.jobs j).settled = true
  own : ∀ j k, (j, .resolved k) ∈ s.answers → k = j
  destroyed : s.destroyed = true → s.workers = []

/-- No parse waits that some worker could take, or that no worker is left for. -/
structure Drained (s : ParseWorkerPool) : Prop where
  idle : s.idle ≠ [] → s.queue = []
  dead : s.workers = [] → s.queue = []

variable {o : ParseWorkerPoolOptions} {s : ParseWorkerPool} {held : List ParseId}

theorem spawnOne_keeps (inv : Inv o s held) : Inv o (s.spawnOne o) held := by
  unfold spawnOne
  split
  · exact inv
  · next allowed =>
    rw [not_or, not_or, not_not] at allowed
    obtain ⟨alive, room, -⟩ := allowed
    simp only
    split
    · have fresh : s.created ∉ s.workers := fun member => Nat.lt_irrefl _ (inv.created _ member)
      have live {w : WorkerId} (member : w ∈ s.workers ++ [s.created]) (old : w < s.created) :
          w ∈ s.workers := by
        rcases mem_snoc.mp member with listed | last
        · exact listed
        · rw [last] at old
          exact absurd old (Nat.lt_irrefl _)
      exact { inv with
        sound := inv.sound.spawn fresh
        bounded := by
          rw [List.length_append, List.length_singleton]
          omega
        created := forall_snoc
          (fun w listed => Nat.lt_succ_of_lt (inv.created w listed)) (Nat.lt_succ_self _)
        postedCreated := fun w j h => Nat.lt_succ_of_lt (inv.postedCreated w j h)
        armedCreated := fun w j h => Nat.lt_succ_of_lt (inv.armedCreated w j h)
        loadingCreated := forall_snoc
          (fun w listed => Nat.lt_succ_of_lt (inv.loadingCreated w listed)) (Nat.lt_succ_self _)
        posted := fun w j h member => inv.posted w j h (live member (inv.postedCreated w j h))
        loading := by
          intro w member there
          rcases List.mem_append.mp member with listed | last
          · exact List.mem_append_left _
              (inv.loading w listed (live there (inv.loadingCreated w listed)))
          · exact List.mem_append_right _ last
        armed := fun w j out pending h member =>
          inv.armed w j out pending h (live member (inv.armedCreated w j h))
        destroyed := fun h => absurd h alive }
    · exact { inv with
        created := fun w member => Nat.lt_succ_of_lt (inv.created w member)
        postedCreated := fun w j h => Nat.lt_succ_of_lt (inv.postedCreated w j h)
        armedCreated := fun w j h => Nat.lt_succ_of_lt (inv.armedCreated w j h)
        loadingCreated := fun w member => Nat.lt_succ_of_lt (inv.loadingCreated w member) }

theorem removeWorker_keeps (inv : Inv o s held) {w : WorkerId} (free : w ∉ s.place.busy) :
    Inv o (s.removeWorker w) held := by
  have live (v : WorkerId) (member : v ∈ s.workers.filter (· ≠ w)) : v ∈ s.workers :=
    List.mem_of_mem_filter member
  exact { inv with
    sound := inv.sound.remove free
    bounded := Nat.le_trans (List.length_filter_le _ _) inv.bounded
    created := fun v member => inv.created v (live v member)
    posted := fun v j h member => inv.posted v j h (live v member)
    loading := fun v member there => by
      obtain ⟨listed, other⟩ := List.mem_filter.mp there
      exact List.mem_filter.mpr ⟨inv.loading v member listed, other⟩
    armed := fun v j out pending h member => inv.armed v j out pending h (live v member)
    destroyed := fun h => by
      change s.workers.filter _ = []
      rw [inv.destroyed h]
      rfl }

theorem recycle_keeps (inv : Inv o s held) {w : WorkerId} (free : w ∉ s.place.busy) :
    Inv o (s.recycle o w) held := by
  unfold recycle
  simp only
  split
  · exact spawnOne_keeps (removeWorker_keeps inv free)
  · exact removeWorker_keeps inv free

theorem park_keeps (inv : Inv o s held) {w : WorkerId} (live : w ∈ s.workers) (idle : w ∉ s.idle)
    (pending : w ∉ s.pending) (busy : w ∉ s.place.busy) :
    Inv o { s with idle := s.idle ++ [w] } held :=
  { inv with sound := inv.sound.park live idle pending busy }

/-- A worker and its parse part: the worker goes, and the parse is in hand. -/
theorem lose_keeps (inv : Inv o s held) {w : WorkerId} {j : ParseId}
    (found : lookup s.inflight w = some j) :
    Inv o { s.removeWorker w with inflight := unassign s.inflight w } (j :: held) := by
  have taken := inv.sound.take found
  have live (v : WorkerId) (member : v ∈ s.workers.filter (· ≠ w)) : v ∈ s.workers ∧ v ≠ w := by
    simpa using List.mem_filter.mp member
  have still : (unassign s.inflight w).map Prod.snd ⊆ s.place.running :=
    List.map_subset _ (unassign_subset _ w)
  have runs : j ∈ s.place.running := List.mem_map.mpr ⟨_, mem_of_lookup found, rfl⟩
  exact { inv with
    sound := taken.remove (not_mem_unassign _ w)
    bounded := Nat.le_trans (List.length_filter_le _ _) inv.bounded
    requested := fun k h => inv.requested k (h.imp_right fun runs => still runs)
    heldRequested := List.forall_mem_cons.mpr ⟨inv.requested j (.inr runs), inv.heldRequested⟩
    running := fun k h => inv.running k (still h)
    created := fun v member => inv.created v (live v member).1
    posted := fun v k h member => mem_unassign.mpr
      ⟨inv.posted v k h (live v member).1, (live v member).2⟩
    loading := fun v member there => by
      obtain ⟨listed, other⟩ := List.mem_filter.mp there
      exact List.mem_filter.mpr ⟨inv.loading v member listed, other⟩
    armed := fun v k out pending h member => mem_unassign.mpr
      ⟨inv.armed v k (fun old => out (List.mem_cons_of_mem _ old)) pending h (live v member).1,
        (live v member).2⟩
    destroyed := fun h => by
      change s.workers.filter _ = []
      rw [inv.destroyed h]
      rfl }

theorem settle_keeps {j : ParseId} {outcome : Outcome} (inv : Inv o s (j :: held))
    (own : ∀ k, outcome = .resolved k → k = j) : Inv o (s.settle j outcome) held := by
  have requested := inv.heldRequested j List.mem_cons_self
  have apart := inv.sound.heldApart j List.mem_cons_self
  unfold settle
  split
  · next done =>
    exact { inv with
      sound := inv.sound.close fun k h => ⟨h, by
        rintro rfl
        rw [h.2] at done
        cases done⟩
      heldRequested := fun k member => inv.heldRequested k (List.mem_cons_of_mem _ member)
      armed := fun w k out pending h live => by
        refine inv.armed w k (fun member => ?_) pending h live
        rcases List.mem_cons.mp member with rfl | old
        · rw [done] at pending
          cases pending
        · exact out old }
  · next open_ =>
    have other (k : ParseId) (h : k ≠ j) : (if k = j then
        { s.jobs j with settled := true, timer := none, hardKillTimer := none } else s.jobs k) =
          s.jobs k := if_neg h
    have absent : j ∉ s.answers.map Prod.fst := fun member => open_ ((inv.answered j).mp member)
    exact { inv with
      sound := inv.sound.close fun k h => by
        by_cases same : k = j
        · have settled := h.2
          simp [same] at settled
        · refine ⟨⟨h.1, ?_⟩, same⟩
          have settled := h.2
          simpa [same] using settled
      heldRequested := fun k member => inv.heldRequested k (List.mem_cons_of_mem _ member)
      queued := by
        intro k member
        simp only
        rw [other k (fun same => apart.1 (same ▸ member))]
        exact inv.queued k member
      running := by
        intro k member
        simp only
        rw [other k (fun same => apart.2 (same ▸ member))]
        exact inv.running k member
      fresh := by
        intro k le
        have beyond : s.nextId ≤ k := le
        have later : k ≠ j := Nat.ne_of_gt (Nat.lt_of_lt_of_le requested.2 beyond)
        simp only
        rw [other k later]
        exact inv.fresh k le
      armedCreated := by
        intro w k h
        by_cases same : k = j
        · simp [Armed, same] at h
        · exact inv.armedCreated w k (by simpa [Armed, same] using h)
      armed := by
        intro w k out pending h live
        by_cases same : k = j
        · simp [Armed, same] at h
        · have old : k ∉ j :: held := by simp [same, out]
          exact inv.armed w k old (by simpa [same] using pending) (by simpa [Armed, same] using h)
            live
      answersNodup := by
        rw [List.map_append]
        exact nodup_snoc inv.answersNodup absent
      answered := by
        intro k
        rw [List.map_append, List.mem_append]
        by_cases same : k = j
        · simp [same]
        · simpa [same] using inv.answered k
      own := by
        intro k i member
        rcases mem_snoc.mp member with old | new
        · exact inv.own k i old
        · obtain ⟨rfl, same⟩ := Prod.mk.inj new
          exact own i same.symm }

theorem settleAll_keeps {jobs : List ParseId} {reason : Rejection} (inv : Inv o s (jobs ++ held)) :
    Inv o (jobs.foldl (fun s j => s.settle j (.rejected reason)) s) held := by
  induction jobs generalizing s with
  | nil => exact inv
  | cons j jobs ih => exact ih (settle_keeps inv fun k h => nomatch h)

/-- The answer of a worker to its parse: the parse is in hand and the worker has no role. -/
theorem take_keeps (inv : Inv o s held) {w : WorkerId} {j : ParseId}
    (found : lookup s.inflight w = some j) (answered : (w, j) ∉ s.posted) :
    Inv o { s with inflight := unassign s.inflight w } (j :: held) := by
  have still : (unassign s.inflight w).map Prod.snd ⊆ s.place.running :=
    List.map_subset _ (unassign_subset _ w)
  have runs : j ∈ s.place.running := List.mem_map.mpr ⟨_, mem_of_lookup found, rfl⟩
  have only (v : WorkerId) (k : ParseId) (member : (v, k) ∈ s.inflight) (other : k ≠ j) :
      (v, k) ∈ unassign s.inflight w := by
    refine mem_unassign.mpr ⟨member, ?_⟩
    rintro rfl
    exact other (Option.some.inj ((lookup_of_mem inv.sound.busyNodup member).symm.trans found))
  exact { inv with
    sound := inv.sound.take found
    requested := fun k h => inv.requested k (h.imp_right fun runs => still runs)
    heldRequested := List.forall_mem_cons.mpr ⟨inv.requested j (.inr runs), inv.heldRequested⟩
    running := fun k h => inv.running k (still h)
    posted := by
      intro v k h live
      have member := inv.posted v k h live
      by_cases same : k = j
      · -- One parse has one worker, and this one has answered.
        have worker : v = w := by
          have equal := List.inj_on_of_nodup_map inv.sound.runningNodup member
            (mem_of_lookup found) same
          exact congrArg Prod.fst equal
        rw [worker, same] at h
        exact absurd h answered
      · exact only v k member same
    armed := by
      intro v k out pending h live
      have other : k ≠ j := fun same => out (same ▸ List.mem_cons_self)
      exact only v k (inv.armed v k (fun old => out (List.mem_cons_of_mem _ old)) pending h live)
        other }

theorem dispatch_keeps (inv : Inv o s held) {w : WorkerId} {j : ParseId} {rest : List ParseId}
    {idle : List WorkerId} (stack : s.idle = idle ++ [w]) (queue : s.queue = j :: rest)
    (other : j ∉ held) : Inv o (dispatch { s with queue := rest, idle := idle } w j) held := by
  have isIdle : w ∈ s.idle := by rw [stack]; exact List.mem_append_right _ List.mem_cons_self
  have waits : j ∈ s.queue := by rw [queue]; exact List.mem_cons_self
  have assigned : assign s.inflight w j = s.inflight ++ [(w, j)] :=
    assign_absent (inv.sound.idleBusy w isIdle) j
  have running (k : ParseId) (runs : k ∈ (assign s.inflight w j).map Prod.snd) :
      k ∈ s.place.running ∨ k = j := by
    rw [assigned] at runs
    simpa [Placement.running, place] using runs
  have grown (e : WorkerId × ParseId) (member : e ∈ s.inflight) : e ∈ assign s.inflight w j := by
    rw [assigned]
    exact List.mem_append_left _ member
  have settled (k : ParseId) : (if k = j then { s.jobs j with timer := some w } else s.jobs k).settled =
      (s.jobs k).settled := by
    split
    · next same => rw [same]
    · rfl
  have sound := ((inv.sound.shift (p := s.place) queue).dispatch other stack)
  exact { inv with
    sound := sound.weaken fun k h => ⟨h.1, (settled k).symm.trans h.2⟩
    requested := by
      rintro k (queued | runs)
      · exact inv.requested k (.inl (by rw [queue]; exact List.mem_cons_of_mem _ queued))
      · rcases running k runs with old | rfl
        · exact inv.requested k (.inr old)
        · exact inv.requested k (.inl waits)
    queued := fun k member => (settled k).trans
      (inv.queued k (by rw [queue]; exact List.mem_cons_of_mem _ member))
    running := by
      intro k runs
      refine (settled k).trans ?_
      rcases running k runs with old | rfl
      · exact inv.running k old
      · exact inv.queued k waits
    fresh := fun k le => (settled k).trans (inv.fresh k le)
    postedCreated := by
      intro v k member
      rcases mem_snoc.mp member with old | new
      · exact inv.postedCreated v k old
      · cases new
        exact inv.created w (inv.sound.idleLive w isIdle)
    armedCreated := by
      intro v k h
      by_cases same : k = j
      · rcases h with timer | hard
        · simp only [dispatch, same, if_true, Option.some.injEq] at timer
          rw [← timer]
          exact inv.created w (inv.sound.idleLive w isIdle)
        · exact inv.armedCreated v j (.inr (by simpa [dispatch, same] using hard))
      · exact inv.armedCreated v k (by simpa [Armed, dispatch, same] using h)
    posted := by
      intro v k member live
      rcases mem_snoc.mp member with old | new
      · exact grown _ (inv.posted v k old live)
      · cases new
        change (w, j) ∈ assign s.inflight w j
        rw [assigned]
        exact List.mem_append_right _ List.mem_cons_self
    armed := by
      intro v k out pending h live
      by_cases same : k = j
      · subst same
        rcases h with timer | hard
        · simp only [dispatch, if_true, Option.some.injEq] at timer
          rw [← timer]
          change (w, k) ∈ assign s.inflight w k
          rw [assigned]
          exact List.mem_append_right _ List.mem_cons_self
        · refine grown _ (inv.armed v k out (inv.queued k waits) (.inr ?_) live)
          simpa [dispatch] using hard
      · refine grown _ (inv.armed v k out ((settled k).symm.trans pending) ?_ live)
        simpa [Armed, dispatch, same] using h
    answered := by
      intro k
      refine (inv.answered k).trans ?_
      change _ ↔ (if k = j then { s.jobs j with timer := some w } else s.jobs k).settled = true
      rw [settled] }

end CodeGraph.Extraction.ParsePool.ParseWorkerPool
