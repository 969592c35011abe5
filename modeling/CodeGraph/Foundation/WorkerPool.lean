import CodeGraph.Foundation.InsertionMap

/-! Pools of workers that take jobs from a queue: where every worker and every job is. -/
namespace CodeGraph.WorkerPool

open InsertionMap

variable {ω ι : Type} [DecidableEq ω]

/-! ### Placements -/

structure Placement (ω ι : Type) where
  workers : List ω
  idle : List ω
  starting : List ω
  queue : List ι
  inflight : List (ω × ι)

def Placement.busy (p : Placement ω ι) : List ω := p.inflight.map Prod.fst

def Placement.running (p : Placement ω ι) : List ι := p.inflight.map Prod.snd

/-- Every worker has at most one role and every job at most one place, and a job that is open has one;
the jobs in `held` are between two places. -/
structure Sound (p : Placement ω ι) (isOpen : ι → Prop) (held : List ι) : Prop where
  workersNodup : p.workers.Nodup
  idleNodup : p.idle.Nodup
  startingNodup : p.starting.Nodup
  busyNodup : p.busy.Nodup
  idleLive : ∀ w ∈ p.idle, w ∈ p.workers
  startingLive : ∀ w ∈ p.starting, w ∈ p.workers
  busyLive : ∀ w ∈ p.busy, w ∈ p.workers
  idleStarting : ∀ w ∈ p.idle, w ∉ p.starting
  idleBusy : ∀ w ∈ p.idle, w ∉ p.busy
  startingBusy : ∀ w ∈ p.starting, w ∉ p.busy
  queueNodup : p.queue.Nodup
  runningNodup : p.running.Nodup
  queueRunning : ∀ j ∈ p.queue, j ∉ p.running
  heldApart : ∀ j ∈ held, j ∉ p.queue ∧ j ∉ p.running
  placed : ∀ j, isOpen j → j ∈ p.queue ∨ j ∈ p.running ∨ j ∈ held

variable {p : Placement ω ι} {isOpen : ι → Prop} {held : List ι}

omit [DecidableEq ω] in
theorem Sound.weaken (sound : Sound p isOpen held) {fewer : ι → Prop}
    (le : ∀ j, fewer j → isOpen j) : Sound p fewer held :=
  { sound with placed := fun j h => sound.placed j (le j h) }

omit [DecidableEq ω] in
/-- A job that is open no more is not held. -/
theorem Sound.close {j : ι} (sound : Sound p isOpen (j :: held)) {fewer : ι → Prop}
    (le : ∀ k, fewer k → isOpen k ∧ k ≠ j) : Sound p fewer held :=
  { sound with
    heldApart := fun k member => sound.heldApart k (List.mem_cons_of_mem _ member)
    placed := fun k h => by
      rcases sound.placed k (le k h).1 with queued | running | inHand
      · exact .inl queued
      · exact .inr (.inl running)
      · exact .inr (.inr ((List.mem_cons.mp inHand).resolve_left (le k h).2)) }

omit [DecidableEq ω] in
theorem Sound.open (sound : Sound p isOpen held) {j : ι} (queue : j ∉ p.queue)
    (running : j ∉ p.running) {more : ι → Prop} (le : ∀ k, more k → isOpen k ∨ k = j) :
    Sound p more (j :: held) :=
  { sound with
    heldApart := by
      intro k member
      rcases List.mem_cons.mp member with rfl | old
      · exact ⟨queue, running⟩
      · exact sound.heldApart k old
    placed := by
      intro k h
      rcases le k h with old | rfl
      · exact (sound.placed k old).imp_right fun h => h.imp_right (List.mem_cons_of_mem _)
      · exact .inr (.inr List.mem_cons_self) }

omit [DecidableEq ω] in
theorem Sound.spawn (sound : Sound p isOpen held) {w : ω} (fresh : w ∉ p.workers) :
    Sound { p with workers := p.workers ++ [w], starting := p.starting ++ [w] } isOpen held where
  workersNodup := nodup_snoc sound.workersNodup fresh
  idleNodup := sound.idleNodup
  startingNodup := nodup_snoc sound.startingNodup fun member => fresh (sound.startingLive w member)
  busyNodup := sound.busyNodup
  idleLive := fun v member => List.mem_append_left _ (sound.idleLive v member)
  startingLive := by
    intro v member
    rcases List.mem_append.mp member with old | new
    · exact List.mem_append_left _ (sound.startingLive v old)
    · exact List.mem_append_right _ new
  busyLive := fun v member => List.mem_append_left _ (sound.busyLive v member)
  idleStarting := by
    intro v member starts
    rcases mem_snoc.mp starts with old | new
    · exact sound.idleStarting v member old
    · rw [new] at member
      exact fresh (sound.idleLive w member)
  idleBusy := sound.idleBusy
  startingBusy := by
    intro v member busy
    rcases mem_snoc.mp member with old | new
    · exact sound.startingBusy v old busy
    · rw [new] at busy
      exact fresh (sound.busyLive w busy)
  queueNodup := sound.queueNodup
  runningNodup := sound.runningNodup
  queueRunning := sound.queueRunning
  heldApart := sound.heldApart
  placed := sound.placed

omit [DecidableEq ω] in
theorem Sound.park (sound : Sound p isOpen held) {w : ω} (live : w ∈ p.workers) (idle : w ∉ p.idle)
    (starting : w ∉ p.starting) (busy : w ∉ p.busy) :
    Sound { p with idle := p.idle ++ [w] } isOpen held :=
  { sound with
    idleNodup := nodup_snoc sound.idleNodup idle
    idleLive := forall_snoc sound.idleLive live
    idleStarting := forall_snoc sound.idleStarting starting
    idleBusy := forall_snoc sound.idleBusy busy }

theorem Sound.started (sound : Sound p isOpen held) (w : ω) :
    Sound { p with starting := p.starting.filter (· ≠ w) } isOpen held :=
  { sound with
    startingNodup := sound.startingNodup.filter _
    startingLive := fun v member => sound.startingLive v (List.mem_of_mem_filter member)
    idleStarting := fun v member starts => sound.idleStarting v member (List.mem_of_mem_filter starts)
    startingBusy := fun v member => sound.startingBusy v (List.mem_of_mem_filter member) }

theorem Sound.remove (sound : Sound p isOpen held) {w : ω} (free : w ∉ p.busy) :
    Sound { p with
      workers := p.workers.filter (· ≠ w)
      starting := p.starting.filter (· ≠ w)
      idle := p.idle.filter (· ≠ w) } isOpen held where
  workersNodup := sound.workersNodup.filter _
  idleNodup := sound.idleNodup.filter _
  startingNodup := sound.startingNodup.filter _
  busyNodup := sound.busyNodup
  idleLive := by
    intro v member
    obtain ⟨listed, other⟩ := List.mem_filter.mp member
    exact List.mem_filter.mpr ⟨sound.idleLive v listed, other⟩
  startingLive := by
    intro v member
    obtain ⟨listed, other⟩ := List.mem_filter.mp member
    exact List.mem_filter.mpr ⟨sound.startingLive v listed, other⟩
  busyLive := by
    intro v member
    refine List.mem_filter.mpr ⟨sound.busyLive v member, ?_⟩
    simp only [ne_eq, decide_not, Bool.not_eq_true', decide_eq_false_iff_not]
    rintro rfl
    exact free member
  idleStarting := fun v member starts =>
    sound.idleStarting v (List.mem_of_mem_filter member) (List.mem_of_mem_filter starts)
  idleBusy := fun v member => sound.idleBusy v (List.mem_of_mem_filter member)
  startingBusy := fun v member => sound.startingBusy v (List.mem_of_mem_filter member)
  queueNodup := sound.queueNodup
  runningNodup := sound.runningNodup
  queueRunning := sound.queueRunning
  heldApart := sound.heldApart
  placed := sound.placed

/-! ### Jobs -/

omit [DecidableEq ω] in
theorem Sound.enqueue {j : ι} (sound : Sound p isOpen (j :: held)) (other : j ∉ held)
    {queue : List ι} (nodup : queue.Nodup) (members : ∀ k, k ∈ queue ↔ k ∈ p.queue ∨ k = j) :
    Sound { p with queue := queue } isOpen held :=
  { sound with
    queueNodup := nodup
    queueRunning := by
      intro k member
      rcases (members k).mp member with old | rfl
      · exact sound.queueRunning k old
      · exact (sound.heldApart k List.mem_cons_self).2
    heldApart := by
      intro k member
      obtain ⟨queued, running⟩ := sound.heldApart k (List.mem_cons_of_mem _ member)
      refine ⟨fun inside => ?_, running⟩
      rcases (members k).mp inside with old | rfl
      · exact queued old
      · exact other member
    placed := by
      intro k h
      rcases sound.placed k h with queued | running | inHand
      · exact .inl ((members k).mpr (.inl queued))
      · exact .inr (.inl running)
      · rcases List.mem_cons.mp inHand with rfl | rest
        · exact .inl ((members k).mpr (.inr rfl))
        · exact .inr (.inr rest) }

omit [DecidableEq ω] in
theorem Sound.enqueueLast {j : ι} (sound : Sound p isOpen (j :: held)) (other : j ∉ held) :
    Sound { p with queue := p.queue ++ [j] } isOpen held :=
  sound.enqueue other (nodup_snoc sound.queueNodup (sound.heldApart j List.mem_cons_self).1)
    fun _ => mem_snoc

omit [DecidableEq ω] in
theorem Sound.shift {j : ι} {rest : List ι} (sound : Sound p isOpen held)
    (queue : p.queue = j :: rest) : Sound { p with queue := rest } isOpen (j :: held) := by
  have nodup := sound.queueNodup
  rw [queue, List.nodup_cons] at nodup
  exact { sound with
    queueNodup := nodup.2
    queueRunning := fun k member =>
      sound.queueRunning k (by rw [queue]; exact List.mem_cons_of_mem _ member)
    heldApart := by
      intro k member
      rcases List.mem_cons.mp member with rfl | old
      · exact ⟨nodup.1, sound.queueRunning k (by rw [queue]; exact List.mem_cons_self)⟩
      · obtain ⟨queued, running⟩ := sound.heldApart k old
        rw [queue] at queued
        exact ⟨fun inside => queued (List.mem_cons_of_mem _ inside), running⟩
    placed := by
      intro k h
      rcases sound.placed k h with queued | running | inHand
      · rw [queue] at queued
        rcases List.mem_cons.mp queued with rfl | later
        · exact .inr (.inr List.mem_cons_self)
        · exact .inl later
      · exact .inr (.inl running)
      · exact .inr (.inr (List.mem_cons_of_mem _ inHand)) }

omit [DecidableEq ω] in
theorem Sound.splice (sound : Sound p isOpen held) :
    Sound { p with queue := [] } isOpen (p.queue ++ held) :=
  { sound with
    queueNodup := List.nodup_nil
    queueRunning := fun k member => nomatch member
    heldApart := by
      intro k member
      refine ⟨List.not_mem_nil, ?_⟩
      rcases List.mem_append.mp member with queued | old
      · exact sound.queueRunning k queued
      · exact (sound.heldApart k old).2
    placed := by
      intro k h
      rcases sound.placed k h with queued | running | inHand
      · exact .inr (.inr (List.mem_append_left _ queued))
      · exact .inr (.inl running)
      · exact .inr (.inr (List.mem_append_right _ inHand)) }

theorem Sound.dispatch {j : ι} {w : ω} {idle : List ω} (sound : Sound p isOpen (j :: held))
    (other : j ∉ held) (stack : p.idle = idle ++ [w]) :
    Sound { p with idle := idle, inflight := assign p.inflight w j } isOpen held := by
  have isIdle : w ∈ p.idle := by rw [stack]; exact List.mem_append_right _ List.mem_cons_self
  have idle_ (v : ω) (member : v ∈ idle) : v ∈ p.idle := by
    rw [stack]
    exact List.mem_append_left _ member
  have nodup := sound.idleNodup
  rw [stack, List.nodup_append] at nodup
  have gone : w ∉ idle := fun member => nodup.2.2 w member w List.mem_cons_self rfl
  rw [assign_absent (sound.idleBusy w isIdle)]
  have busy (v : ω) : v ∈ (p.inflight ++ [(w, j)]).map Prod.fst ↔ v ∈ p.busy ∨ v = w := by
    simp [Placement.busy]
  have running (k : ι) : k ∈ (p.inflight ++ [(w, j)]).map Prod.snd ↔ k ∈ p.running ∨ k = j := by
    simp [Placement.running]
  have inHand := sound.heldApart j List.mem_cons_self
  exact {
    workersNodup := sound.workersNodup
    idleNodup := nodup.1
    startingNodup := sound.startingNodup
    busyNodup := by
      rw [Placement.busy, List.map_append]
      exact nodup_snoc sound.busyNodup (sound.idleBusy w isIdle)
    idleLive := fun v member => sound.idleLive v (idle_ v member)
    startingLive := sound.startingLive
    busyLive := by
      intro v member
      rcases (busy v).mp member with old | rfl
      · exact sound.busyLive v old
      · exact sound.idleLive v isIdle
    idleStarting := fun v member => sound.idleStarting v (idle_ v member)
    idleBusy := by
      intro v member taken
      rcases (busy v).mp taken with old | rfl
      · exact sound.idleBusy v (idle_ v member) old
      · exact gone member
    startingBusy := by
      intro v member taken
      rcases (busy v).mp taken with old | rfl
      · exact sound.startingBusy v member old
      · exact sound.idleStarting v isIdle member
    queueNodup := sound.queueNodup
    runningNodup := by
      rw [Placement.running, List.map_append]
      exact nodup_snoc sound.runningNodup inHand.2
    queueRunning := by
      intro k member runs
      rcases (running k).mp runs with old | rfl
      · exact sound.queueRunning k member old
      · exact inHand.1 member
    heldApart := by
      intro k member
      obtain ⟨queued, apart⟩ := sound.heldApart k (List.mem_cons_of_mem _ member)
      refine ⟨queued, fun runs => ?_⟩
      rcases (running k).mp runs with old | rfl
      · exact apart old
      · exact other member
    placed := by
      intro k h
      rcases sound.placed k h with queued | runs | held_
      · exact .inl queued
      · exact .inr (.inl ((running k).mpr (.inl runs)))
      · rcases List.mem_cons.mp held_ with rfl | rest
        · exact .inr (.inl ((running k).mpr (.inr rfl)))
        · exact .inr (.inr rest) }

theorem Sound.take (sound : Sound p isOpen held) {w : ω} {j : ι}
    (found : lookup p.inflight w = some j) :
    Sound { p with inflight := unassign p.inflight w } isOpen (j :: held) := by
  have member := mem_of_lookup found
  have running : (unassign p.inflight w).map Prod.snd ⊆ p.running :=
    List.map_subset _ (unassign_subset _ w)
  have busy : (unassign p.inflight w).map Prod.fst ⊆ p.busy :=
    List.map_subset _ (unassign_subset _ w)
  have gone : j ∉ (unassign p.inflight w).map Prod.snd := by
    intro runs
    obtain ⟨⟨v, i⟩, listed, rfl⟩ := List.mem_map.mp runs
    obtain ⟨there, other⟩ := mem_unassign.mp listed
    -- One job has one worker.
    have same := List.inj_on_of_nodup_map sound.runningNodup there member rfl
    exact other (congrArg Prod.fst same)
  exact { sound with
    busyNodup := sound.busyNodup.sublist (List.filter_sublist.map _)
    busyLive := fun v runs => sound.busyLive v (busy runs)
    idleBusy := fun v idle runs => sound.idleBusy v idle (busy runs)
    startingBusy := fun v starts runs => sound.startingBusy v starts (busy runs)
    runningNodup := sound.runningNodup.sublist (List.filter_sublist.map _)
    queueRunning := fun k queued runs => sound.queueRunning k queued (running runs)
    heldApart := by
      intro k inHand
      rcases List.mem_cons.mp inHand with rfl | old
      · refine ⟨fun queued => sound.queueRunning k queued ?_, gone⟩
        exact List.mem_map.mpr ⟨(w, k), member, rfl⟩
      · obtain ⟨queued, apart⟩ := sound.heldApart k old
        exact ⟨queued, fun runs => apart (running runs)⟩
    placed := by
      intro k h
      rcases sound.placed k h with queued | runs | inHand
      · exact .inl queued
      · obtain ⟨⟨v, i⟩, listed, rfl⟩ := List.mem_map.mp runs
        by_cases same : v = w
        · subst same
          have job : i = j := Option.some.inj
            ((lookup_of_mem sound.busyNodup listed).symm.trans found)
          exact .inr (.inr (job ▸ List.mem_cons_self))
        · exact .inr (.inl (List.mem_map.mpr ⟨(v, i), mem_unassign.mpr ⟨listed, same⟩, rfl⟩))
      · exact .inr (.inr (List.mem_cons_of_mem _ inHand)) }

omit [DecidableEq ω] in
theorem Sound.empty (placed : ∀ j, isOpen j → j ∈ held) :
    Sound (⟨[], [], [], [], []⟩ : Placement ω ι) isOpen held where
  workersNodup := List.nodup_nil
  idleNodup := List.nodup_nil
  startingNodup := List.nodup_nil
  busyNodup := List.nodup_nil
  idleLive := fun _ member => nomatch member
  startingLive := fun _ member => nomatch member
  busyLive := fun _ member => nomatch member
  idleStarting := fun _ member => nomatch member
  idleBusy := fun _ member => nomatch member
  startingBusy := fun _ member => nomatch member
  queueNodup := List.nodup_nil
  runningNodup := List.nodup_nil
  queueRunning := fun _ member => nomatch member
  heldApart := fun _ _ => ⟨List.not_mem_nil, List.not_mem_nil⟩
  placed := fun j h => .inr (.inr (placed j h))

omit [DecidableEq ω] in
theorem Sound.clear (sound : Sound p isOpen held) :
    Sound (⟨[], [], [], [], []⟩ : Placement ω ι) isOpen (p.running ++ p.queue ++ held) := by
  refine .empty fun k h => ?_
  rcases sound.placed k h with queued | runs | inHand
  · exact List.mem_append_left _ (List.mem_append_right _ queued)
  · exact List.mem_append_left _ (List.mem_append_left _ runs)
  · exact List.mem_append_right _ inHand

omit [DecidableEq ω] in
theorem Sound.placedOnce [DecidableEq ι] (sound : Sound p isOpen []) {j : ι} (h : isOpen j) :
    (p.queue.count j = 1 ∧ ∀ w, (w, j) ∉ p.inflight) ∨ (j ∉ p.queue ∧ ∃! w, (w, j) ∈ p.inflight) := by
  rcases sound.placed j h with queued | running | inHand
  · left
    refine ⟨List.count_eq_one_of_mem sound.queueNodup queued, fun w member => ?_⟩
    exact sound.queueRunning j queued (List.mem_map.mpr ⟨_, member, rfl⟩)
  · right
    obtain ⟨⟨w, i⟩, listed, rfl⟩ := List.mem_map.mp running
    refine ⟨fun queued => sound.queueRunning i queued running, w, listed, fun v member => ?_⟩
    exact congrArg Prod.fst (List.inj_on_of_nodup_map sound.runningNodup member listed rfl)
  · cases inHand

omit [DecidableEq ω] in
theorem Sound.live (sound : Sound p isOpen held) (w : ω)
    (role : w ∈ p.idle ∨ w ∈ p.starting ∨ w ∈ p.busy) : w ∈ p.workers := by
  rcases role with idle | starting | busy
  · exact sound.idleLive w idle
  · exact sound.startingLive w starting
  · exact sound.busyLive w busy

omit [DecidableEq ω] in
theorem Sound.roles (sound : Sound p isOpen held) : (p.idle ++ p.starting ++ p.busy).Nodup := by
  rw [List.nodup_append, List.nodup_append]
  refine ⟨⟨sound.idleNodup, sound.startingNodup, ?_⟩, sound.busyNodup, ?_⟩
  · rintro w idle _ starts rfl
    exact sound.idleStarting w idle starts
  · rintro w member _ busy rfl
    rcases List.mem_append.mp member with idle | starts
    · exact sound.idleBusy w idle busy
    · exact sound.startingBusy w starts busy

end CodeGraph.WorkerPool
