import CodeGraph.Extraction.ParsePoolInv

/-!
The three loops of `drain`.

The first ends because each round starts a worker or costs a crash, and both are bounded. After the
second no worker is idle or no parse is queued, and the third leaves no parse in the queue of a pool
without workers.
-/
namespace CodeGraph.Extraction.ParsePool.ParseWorkerPool

open InsertionMap WorkerPool

variable {o : ParseWorkerPoolOptions} {s : ParseWorkerPool} {held : List ParseId}

/-! ### Growth -/

theorem wantedSize_le (s : ParseWorkerPool) : s.wantedSize o ≤ o.maxSize := by
  unfold wantedSize
  split
  · exact Nat.le_refl _
  · exact Nat.max_le.mpr ⟨Nat.le_max_left 1 _, Nat.min_le_left _ _⟩

def growthLeft (o : ParseWorkerPoolOptions) (s : ParseWorkerPool) : Nat :=
  (CRASH_BUDGET - s.totalCrashes) + (o.maxSize - s.workers.length)

theorem growthLeft_le (s : ParseWorkerPool) : growthLeft o s ≤ growFuel := by
  have size : o.maxSize ≤ MAX_PARSE_POOL_SIZE :=
    Nat.max_le.mpr ⟨by decide, Nat.min_le_right _ _⟩
  unfold growthLeft growFuel
  omega

private theorem growthLeft_spawnOne (more : s.grows o = true) :
    growthLeft o (s.spawnOne o) < growthLeft o s := by
  have bound : s.wantedSize o ≤ o.maxSize := wantedSize_le s
  simp only [grows, Bool.and_eq_true, decide_eq_true_eq, Bool.not_eq_true'] at more
  obtain ⟨⟨⟨⟨-, room⟩, -⟩, alive⟩, healthy⟩ := more
  have budget : s.totalCrashes < CRASH_BUDGET := by
    simp only [ParseWorkerPool.healthy, Bool.and_eq_true, decide_eq_true_eq] at healthy
    exact healthy.2
  have free : ¬ (s.destroyed = true ∨ o.maxSize ≤ s.workers.length ∨ ¬ s.healthy = true) := by
    rintro (gone | full | broken)
    · rw [alive] at gone
      cases gone
    · omega
    · exact broken healthy
  unfold spawnOne
  rw [if_neg free]
  simp only
  split
  · simp only [growthLeft, List.length_append, List.length_singleton]
    omega
  · simp only [growthLeft]
    omega

theorem grow_stops {n : Nat} (enough : growthLeft o s ≤ n) : (s.grow o n).grows o = false := by
  induction n generalizing s with
  | zero =>
    by_contra more
    have grows : s.grows o = true := (Bool.not_eq_false _).mp more
    exact absurd (growthLeft_spawnOne grows) (by omega)
  | succ n ih =>
    unfold grow
    split
    · next more =>
      have less := growthLeft_spawnOne more
      exact ih (by omega)
    · next done => exact (Bool.not_eq_true _).mp done

theorem grow_keeps (inv : Inv o s held) (n : Nat) : Inv o (s.grow o n) held := by
  induction n generalizing s with
  | zero => exact inv
  | succ n ih =>
    unfold grow
    split
    · exact ih (spawnOne_keeps inv)
    · exact inv

private theorem shiftUnsettled_cons {j : ParseId} {rest : List ParseId}
    (unsettled : (s.jobs j).settled = false) :
    s.shiftUnsettled (j :: rest) = (some j, rest) := by
  rw [shiftUnsettled, unsettled]
  rfl

theorem dispatchQueued_keeps {n : Nat} (inv : Inv o s held) (apart : ∀ j ∈ s.queue, j ∉ held)
    (enough : s.queue.length < n) :
    Inv o (s.dispatchQueued n) held ∧
      ((s.dispatchQueued n).idle = [] ∨ (s.dispatchQueued n).queue = []) := by
  induction n generalizing s with
  | zero => exact absurd enough (Nat.not_lt_zero _)
  | succ n ih =>
    unfold dispatchQueued
    cases last : s.idle.getLast? with
    | none => exact ⟨inv, .inl (List.getLast?_eq_none_iff.mp last)⟩
    | some w =>
      have stack : s.idle = s.idle.dropLast ++ [w] := by
        obtain ⟨front, idle⟩ := List.getLast?_eq_some_iff.mp last
        rw [idle, List.dropLast_concat]
      cases queue : s.queue with
      | nil =>
        -- No job is left: the queue is written back as it was.
        simp only [shiftUnsettled]
        exact ⟨queue ▸ inv, .inr trivial⟩
      | cons j rest =>
        have waits : j ∈ s.queue := by
          rw [queue]
          exact List.mem_cons_self
        rw [queue, List.length_cons] at enough
        simp only [shiftUnsettled_cons (inv.queued j waits)]
        refine ih (dispatch_keeps inv stack queue (apart j waits)) ?_ (Nat.lt_of_succ_lt_succ enough)
        intro k member
        exact apart k (by rw [queue]; exact List.mem_cons_of_mem _ member)

theorem settle_queue (s : ParseWorkerPool) (j : ParseId) (outcome : Outcome) :
    (s.settle j outcome).queue = s.queue := by
  unfold settle
  split <;> rfl

theorem settleAll_queue (s : ParseWorkerPool) (jobs : List ParseId) (reason : Rejection) :
    (jobs.foldl (fun s j => s.settle j (.rejected reason)) s).queue = s.queue := by
  induction jobs generalizing s with
  | nil => rfl
  | cons j jobs ih => exact (ih (s.settle j (.rejected reason))).trans (settle_queue s j _)

private theorem splice_keeps (inv : Inv o s []) : Inv o { s with queue := [] } (s.queue ++ []) :=
  { inv with
    sound := inv.sound.splice
    requested := fun j h => inv.requested j (h.imp_left fun member => nomatch member)
    heldRequested := fun j member => inv.requested j (.inl (by simpa using member))
    queued := fun _ member => nomatch member
    armed := fun w j _ pending h live => inv.armed w j List.not_mem_nil pending h live }

theorem failStranded_keeps (inv : Inv o s []) (served : s.idle = [] ∨ s.queue = []) :
    Inv o s.failStranded [] ∧ Drained s.failStranded := by
  unfold failStranded
  split
  · have emptied (reason : Rejection) :
        (s.queue.foldl (fun (s : ParseWorkerPool) j => s.settle j (.rejected reason))
          { s with queue := [] }).queue =
          [] := settleAll_queue { s with queue := [] } s.queue reason
    exact ⟨settleAll_keeps (splice_keeps inv), ⟨fun _ => emptied _, fun _ => emptied _⟩⟩
  · next stuck =>
    refine ⟨inv, ⟨fun some_ => served.resolve_left some_, fun dead => ?_⟩⟩
    -- Without workers, none is idle and none is starting.
    have idle : s.idle = [] := List.eq_nil_iff_forall_not_mem.mpr fun w member => by
      have live : w ∈ s.workers := inv.sound.idleLive w member
      rw [dead] at live
      cases live
    have starting : s.pending = [] := List.eq_nil_iff_forall_not_mem.mpr fun w member => by
      have live : w ∈ s.workers := inv.sound.startingLive w member
      rw [dead] at live
      cases live
    by_contra queued
    exact stuck ⟨queued, idle, starting, dead⟩

theorem drain_keeps (inv : Inv o s []) : Inv o (s.drain o) [] ∧ Drained (s.drain o) := by
  have grown := grow_keeps inv growFuel
  obtain ⟨dispatched, served⟩ :=
    dispatchQueued_keeps grown (fun _ _ => List.not_mem_nil) (Nat.lt_succ_self _)
  exact failStranded_keeps dispatched served

end CodeGraph.Extraction.ParsePool.ParseWorkerPool
