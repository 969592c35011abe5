import CodeGraph.Resolution.ResolverPoolInv

/-!
The contract of the resolver pool.

Its batches are answered in order in every run. That nothing hangs takes workers which answer what
they were sent before they exit with code zero, and acknowledgements of passes and signings that find
no chunk waiting for them.
-/
namespace CodeGraph.Resolution.ResolverPool

open InsertionMap

variable {T : PoolTypes} {s t : ResolverPool T} {new : List (Nat × Message T)}

/-! ### Batches -/

def chunks (s : ResolverPool T) : List (Nat × List T.Ref) := s.batches.flatMap (·.chunks)

/-- Every result of a chunk is a worker's answer to the references of that chunk. -/
structure Sourced (s : ResolverPool T) : Prop where
  whole : ∀ batch ∈ s.batches, (batch.chunks.map Prod.snd).flatten = batch.refs
  distinct : (s.chunks.map Prod.fst).Nodup
  numbered : ∀ e ∈ s.chunks, e.1 < s.nextId
  queued : ∀ e ∈ s.pendingChunks, e ∈ s.chunks
  owed : ∀ id refs, Owed s (.resolve id refs) → (id, refs) ∈ s.chunks
  answered : ∀ e ∈ s.answered, e.1 ∈ s.chunks
  results : ∀ id r, (id, .chunk r) ∈ s.settled → ∃ refs, ((id, refs), r) ∈ s.answered

private theorem Sourced.effect (sourced : Sourced s) (effect : Effect s t new) : Sourced t := by
  have same : t.chunks = s.chunks := by rw [chunks, chunks, effect.batches]
  refine ⟨?_, ?_, ?_, ?_, ?_, ?_, ?_⟩
  · rw [effect.batches]
    exact sourced.whole
  · rw [same]
    exact sourced.distinct
  · rw [same]
    exact fun e listed => Nat.lt_of_lt_of_le (sourced.numbered e listed) effect.nextId
  · rw [same]
    exact fun e listed => sourced.queued e (effect.queue e listed)
  · rw [same]
    intro id refs owes
    rcases effect.owed owes with old | ⟨i, sent⟩
    · exact sourced.owed id refs old
    · exact sourced.queued _ (effect.sent i id refs sent)
  · rw [same, effect.answered]
    exact sourced.answered
  · rw [effect.answered]
    exact fun id r settled => sourced.results id r (effect.results id r settled)

private theorem Sourced.enqueue (sourced : Sourced s) (refs : List T.Ref) : Sourced (s.enqueue refs) := by
  have all : (s.enqueue refs).chunks = s.chunks ++
      ResolverPool.numbered s.nextId (slices (resolveChunkSize refs.length s.workers.length) refs.length refs) := by
    simp [chunks, ResolverPool.enqueue]
  have numbers : ∀ e ∈ ResolverPool.numbered s.nextId
      (slices (resolveChunkSize refs.length s.workers.length) refs.length refs),
      s.nextId ≤ e.1 ∧ e.1 < (s.enqueue refs).nextId := by
    intro e listed
    have member := List.mem_map_of_mem (f := Prod.fst) listed
    rw [numbered_fst, List.mem_range'_1] at member
    refine ⟨member.1, ?_⟩
    simpa [ResolverPool.enqueue, ResolverPool.numbered] using member.2
  refine ⟨fun batch listed => ?_, ?_, ?_, ?_, ?_, ?_, sourced.results⟩
  · rcases mem_snoc.mp listed with old | last
    · exact sourced.whole batch old
    · rw [last, numbered_snd]
      exact slices_flatten (resolveChunkSize_pos _ _) _ _ (Nat.le_refl _)
  · rw [all, List.map_append, List.nodup_append]
    refine ⟨sourced.distinct, ?_, fun x old y fresh same => ?_⟩
    · rw [numbered_fst]
      exact List.nodup_range'
    · obtain ⟨e, listed, rfl⟩ := List.mem_map.mp old
      obtain ⟨f, listed', rfl⟩ := List.mem_map.mp fresh
      have before := sourced.numbered e listed
      have after := (numbers f listed').1
      omega
  · rw [all]
    intro e listed
    rcases List.mem_append.mp listed with old | fresh
    · exact Nat.lt_of_lt_of_le (sourced.numbered e old) (Nat.le_add_right _ _)
    · exact (numbers e fresh).2
  · rw [all]
    intro e listed
    exact (List.mem_append.mp listed).elim
      (fun old => List.mem_append_left _ (sourced.queued e old)) (List.mem_append_right _)
  · rw [all]
    exact fun id refs owes => List.mem_append_left _ (sourced.owed id refs owes)
  · rw [all]
    exact fun e listed => List.mem_append_left _ (sourced.answered e listed)

private theorem Sourced.result {w id : Nat} {result : ChunkResult T} (sourced : Sourced s)
    (taken : s.step (.result w id result) = some t) : Sourced t := by
  obtain ⟨refs, found, rfl⟩ := step_result taken
  obtain ⟨v, there, -, member, -⟩ := owedTo_spec found
  have own := sourced.owed id refs ⟨v, List.mem_of_getElem? there, member⟩
  have noted : Sourced (s.noteAnswer (id, refs) result) :=
    { sourced with
      answered := forall_snoc sourced.answered own
      results := by
        intro k r settled
        obtain ⟨refs', listed⟩ := sourced.results k r settled
        exact ⟨refs', List.mem_append_left _ listed⟩ }
  obtain ⟨u, new, handled, same⟩ :=
    Effect.onResult ((s.noteAnswer (id, refs) result).answer w (.chunk, id)) w id result
  have effect := (Effect.answer (s.noteAnswer (id, refs) result) w (.chunk, id)).trans handled
  have before := noted.effect effect
  rcases same with same | same <;> rw [same]
  · exact before
  · refine { before with results := fun k r settled => ?_ }
    rcases mem_snoc.mp settled with old | last
    · exact before.results k r old
    · cases last
      refine ⟨refs, ?_⟩
      show ((id, refs), result) ∈ u.answered
      rw [effect.answered]
      exact List.mem_append_right _ (List.mem_singleton.mpr rfl)

private theorem step_sourced {e : Event T} (sourced : Sourced s) (taken : s.step e = some t) :
    Sourced t := by
  cases ordinary : e.ordinary with
  | true =>
    obtain ⟨new, effect⟩ := step_effect taken ordinary
    exact sourced.effect effect
  | false =>
    cases e with
    | resolveBatch refs =>
      cases taken
      rw [resolveBatch_eq]
      split
      · exact sourced
      · obtain ⟨new, pumped⟩ := Effect.pump (s.enqueue refs)
        exact (sourced.enqueue refs).effect pumped
    | destroy =>
      cases taken
      have settled := sourced.effect (Effect.settle s (s.recycleWaiters.map Prod.fst) (o := .recycled)
        fun _ same => nomatch same)
      have rejected := settled.effect (Effect.settle _ (s.pendingChunks.map Prod.fst)
        (o := .rejected .destroyed) fun _ same => nomatch same)
      exact { rejected with queued := fun _ listed => nomatch listed }
    | result w id result => exact sourced.result taken
    | exit w code =>
      obtain ⟨-, ⟨⟩⟩ := Option.ite_none_right_eq_some.mp taken
      have failed : Sourced (if code ≠ 0 then s.fail (.exitCode code) else s) := by
        split
        · exact sourced.effect (.fail s _)
        · exact sourced
      simp only [onExit]
      generalize (if code ≠ 0 then s.fail (.exitCode code) else s) = u at failed
      refine { failed with owed := fun id refs owes => failed.owed id refs ?_ }
      have owes : Owed (u.updateWorker w (·.exit u.failed)) (.resolve id refs) := owes
      exact (owed_of_updateWorker (p := False) (f := (·.exit u.failed)) (fun _ member => .inl member)
        owes).resolve_right fun none_ => none_
    | terminated call w =>
      obtain ⟨-, ⟨⟩⟩ := Option.ite_none_right_eq_some.mp taken
      exact { sourced with }
    | openPool | pauseDispatch | resumeDispatch | runSynthPass | signNearDuplicates | recycleWorkers
    | ready | openFailed | synthResult | nearDupSigned | recycling | recycled | error | uncaught
    | recycleTimeout => cases ordinary

/-- A worker that has exited is known not to get ready any more, and a call of `destroy` waits for
every worker that runs. -/
structure Ended (s : ResolverPool T) : Prop where
  readied : ∀ v ∈ s.workers, v.exited = true → v.ready.isSome
  closing : ∀ waits ∈ s.closing, ∀ i v, s.workers[i]? = some v → i ∉ waits → v.exited = true

private theorem Ended.effect (ended : Ended s) (effect : Effect s t new) : Ended t where
  readied := by
    intro v' listed exited
    obtain ⟨i, there⟩ := List.mem_iff_getElem?.mp listed
    obtain ⟨v, here, same, ready, -⟩ := effect.workers i v' there
    exact ready (ended.readied v (List.mem_of_getElem? here) (same ▸ exited))
  closing := by
    intro waits listed i v' there absent
    obtain ⟨v, here, same, -, -⟩ := effect.workers i v' there
    rw [effect.closing] at listed
    exact same.trans (ended.closing waits listed i v here absent)

private theorem Ended.onExit {w code : Nat} (ended : Ended s) : Ended (s.onExit w code) := by
  have failed : Ended (if code ≠ 0 then s.fail (.exitCode code) else s) := by
    split
    · exact ended.effect (.fail s _)
    · exact ended
  simp only [ResolverPool.onExit]
  generalize (if code ≠ 0 then s.fail (.exitCode code) else s) = u at failed
  have workers (i : Nat) (v' : PoolWorker T)
      (there : (u.updateWorker w (·.exit u.failed)).workers[i]? = some v') :
      ∃ v, u.workers[i]? = some v ∧ v' = if w = i then v.exit u.failed else v := by
    simp only [updateWorker, List.getElem?_modify, Option.map_eq_map] at there
    obtain ⟨v, here, rfl⟩ := Option.map_eq_some_iff.mp there
    exact ⟨v, here, rfl⟩
  constructor
  · intro v' listed exited
    obtain ⟨i, there⟩ := List.mem_iff_getElem?.mp listed
    obtain ⟨v, here, rfl⟩ := workers i v' there
    by_cases same : w = i
    · rw [if_pos same]
      rfl
    · rw [if_neg same] at exited ⊢
      exact failed.readied v (List.mem_of_getElem? here) exited
  · intro waits listed i v' there absent
    obtain ⟨before, listed', rfl⟩ := List.mem_map.mp listed
    obtain ⟨v, here, rfl⟩ := workers i v' there
    split
    · rfl
    · next other =>
      refine failed.closing before listed' i v here fun member => absent ?_
      exact (List.mem_erase_of_ne (Ne.symm other)).mpr member

private theorem step_ended {e : Event T} (ended : Ended s) (taken : s.step e = some t) : Ended t := by
  cases ordinary : e.ordinary with
  | true =>
    obtain ⟨new, effect⟩ := step_effect taken ordinary
    exact ended.effect effect
  | false =>
    cases e with
    | resolveBatch refs =>
      cases taken
      rw [resolveBatch_eq]
      split
      · exact ended
      · obtain ⟨new, pumped⟩ := Effect.pump (s.enqueue refs)
        have queued : Ended (s.enqueue refs) := ⟨ended.readied, ended.closing⟩
        exact queued.effect pumped
    | destroy =>
      cases taken
      refine ⟨ended.readied, fun waits listed i v there absent => ?_⟩
      rcases mem_snoc.mp listed with old | last
      · exact ended.closing waits old i v there absent
      · rw [last, List.mem_range, Nat.not_lt] at absent
        have bound := (List.getElem?_eq_some_iff.mp there).1
        exact absurd bound (Nat.not_lt.mpr absent)
    | result w id result =>
      obtain ⟨refs, -, rfl⟩ := step_result taken
      obtain ⟨u, new, handled, same⟩ :=
        Effect.onResult ((s.noteAnswer (id, refs) result).answer w (.chunk, id)) w id result
      have noted : Ended (s.noteAnswer (id, refs) result) := ⟨ended.readied, ended.closing⟩
      have before := (noted.effect (Effect.answer _ w (.chunk, id))).effect handled
      rcases same with same | same <;> rw [same]
      exacts [before, ⟨before.readied, before.closing⟩]
    | exit w code =>
      obtain ⟨-, ⟨⟩⟩ := Option.ite_none_right_eq_some.mp taken
      exact ended.onExit
    | terminated call w =>
      obtain ⟨⟨bound, gone⟩, ⟨⟩⟩ := Option.ite_none_right_eq_some.mp taken
      refine ⟨ended.readied, fun waits listed i v there absent => ?_⟩
      rcases of_mem_modify listed with old | ⟨before, here, rfl⟩
      · exact ended.closing waits old i v there absent
      · by_cases same : i = w
        · subst same
          have there : s.workers[i]? = some v := there
          simpa [live, there] using gone
        · refine ended.closing before (List.mem_of_getElem? here) i v there fun member => absent ?_
          exact (List.mem_erase_of_ne same).mpr member
    | openPool | pauseDispatch | resumeDispatch | runSynthPass | signNearDuplicates | recycleWorkers
    | ready | openFailed | synthResult | nearDupSigned | recycling | recycled | error | uncaught
    | recycleTimeout => cases ordinary

/-! ### Messages in flight -/

/-- `busy` is the number of messages that a worker has not answered. -/
def Counted (s : ResolverPool T) : Prop := ∀ v ∈ s.workers, v.busy = v.inFlight

private theorem Counted.modify {w : Nat} {f : PoolWorker T → PoolWorker T} (counted : Counted s)
    (workers : t.workers = s.workers.modify w f)
    (keeps : ∀ v, s.workers[w]? = some v → v.busy = v.inFlight → (f v).busy = (f v).inFlight) :
    Counted t := by
  intro v listed
  rw [workers] at listed
  rcases of_mem_modify listed with old | ⟨u, here, rfl⟩
  · exact counted v old
  · exact keeps u here (counted u (List.mem_of_getElem? here))

private theorem Counted.map {f : PoolWorker T → PoolWorker T} (counted : Counted s)
    (workers : t.workers = s.workers.map f) (busy : ∀ v, (f v).busy = v.busy)
    (owed : ∀ v, (f v).owed = v.owed) : Counted t := by
  intro v listed
  rw [workers] at listed
  obtain ⟨u, here, rfl⟩ := List.mem_map.mp listed
  rw [busy, PoolWorker.inFlight, owed]
  exact counted u here

private theorem Counted.postCounted (counted : Counted s) (w : Nat) {m : Message T}
    (counts : m.counts = true) : Counted (s.postCounted w m) := by
  refine counted.modify (w := w) (f := fun v => { v with busy := v.busy + 1, owed := v.owed ++ [m] })
    (List.modify_modify_eq (fun v : PoolWorker T => { v with busy := v.busy + 1 })
      (fun v => { v with owed := v.owed ++ [m] }) w s.workers) fun v _ same => ?_
  simp only [PoolWorker.inFlight, List.countP_append, List.countP_singleton, counts, if_true] at same ⊢
  omega

private theorem Counted.postRecycle (counted : Counted s) (w id : Nat) :
    Counted (s.postMessage w (.recycle id)) := by
  refine counted.modify (w := w) (f := fun v => { v with owed := v.owed ++ [.recycle id] }) rfl
    fun v _ same => ?_
  simp only [PoolWorker.inFlight, List.countP_append] at same ⊢
  rw [same]
  rfl

theorem Counted.pump (counted : Counted s) : Counted s.pumpDispatch := by
  refine pumpDispatch_induct (P := Counted) (fun s v w item rest _ _ counted => ?_) s counted
  have moved : Counted { s with pendingChunks := rest, waiters := s.waiters ++ [item.1] } := counted
  exact moved.postCounted w rfl

theorem Counted.fail (counted : Counted s) (err : Failure) : Counted (s.fail err) :=
  counted.map (f := (·.settleReady (some (s.failed.getD err)))) rfl (fun _ => rfl) fun _ => rfl

private theorem countP_eraseP {owed : List (Message T)} {m : Message T} {tag : Kind × Nat}
    (member : m ∈ owed) (same : m.tag = tag) :
    owed.countP Message.counts =
      (owed.eraseP (·.tag = tag)).countP Message.counts + if tag.1 = .recycle then 0 else 1 := by
  induction owed with
  | nil => cases member
  | cons n owed ih =>
    by_cases here : n.tag = tag
    · rw [List.eraseP_cons_of_pos (by simpa using here), List.countP_cons]
      simp [Message.counts, here]
    · have later : m ∈ owed := (List.mem_cons.mp member).resolve_left fun first => here (first ▸ same)
      rw [List.eraseP_cons_of_neg (by simpa using here), List.countP_cons, List.countP_cons, ih later]
      omega

theorem Counted.answer {w : Nat} {tag : Kind × Nat} {m : Message T} (counted : Counted s)
    (found : s.owedTo w tag = some m) (counts : tag.1 ≠ .recycle) :
    Counted ((s.answer w tag).countDown w) := by
  obtain ⟨v, there, -, member, same⟩ := owedTo_spec found
  refine counted.modify (w := w)
    (f := fun v => { v with busy := v.busy - 1, owed := v.owed.eraseP (·.tag = tag) })
    (List.modify_modify_eq (fun v : PoolWorker T => v.answer tag)
      (fun v => { v with busy := v.busy - 1 }) w s.workers)
    fun u here before => ?_
  rw [there] at here
  cases here
  have fewer := countP_eraseP member same
  rw [if_neg counts] at fewer
  simp only [PoolWorker.inFlight] at before ⊢
  omega

private theorem Counted.answerRecycle {w id : Nat} {m : Message T} (counted : Counted s)
    (found : s.owedTo w (.recycle, id) = some m) : Counted (s.answer w (.recycle, id)) := by
  obtain ⟨v, there, -, member, same⟩ := owedTo_spec found
  refine counted.modify (w := w) (f := (·.answer (.recycle, id))) rfl fun u here before => ?_
  rw [there] at here
  cases here
  have fewer := countP_eraseP member same
  rw [if_pos rfl, Nat.add_zero] at fewer
  simp only [PoolWorker.inFlight, PoolWorker.answer] at before ⊢
  rw [before, fewer]

private theorem Counted.onError {w : Nat} {id : Option Nat} (counted : Counted (s.countDown w))
    (message : String) : Counted (s.onError w id message) := by
  have pumped := counted.pump
  simp only [ResolverPool.onError]
  cases id with
  | none => exact pumped.fail _
  | some id =>
    simp only
    split
    · exact pumped
    · split
      · exact pumped
      · split
        · exact pumped
        · exact pumped.fail _

private theorem Counted.signLane (counted : Counted s) (bodies : List T.NearDupBody) :
    Counted (s.signLane bodies) := by
  unfold ResolverPool.signLane
  split
  · exact counted
  · next w least =>
    exact Counted.postCounted (s := { s with
      nextId := s.nextId + 1, signWaiters := s.signWaiters ++ [s.nextId] }) counted w rfl

private theorem Counted.foldl {α : Type} {f : ResolverPool T → α → ResolverPool T}
    (each : ∀ s x, Counted s → Counted (f s x)) (xs : List α) (counted : Counted s) :
    Counted (xs.foldl f s) := by
  induction xs generalizing s with
  | nil => exact counted
  | cons x xs ih => exact ih (each s x counted)

def othersLive (s : ResolverPool T) (w : Nat) : Bool :=
  s.workers.zipIdx.any fun (v, i) => i ≠ w && !v.exited

/-- A worker exits with code zero only when it owes no answer, and the last one only when no chunk is
queued; an acknowledgement of a pass or a signing frees no place that a queued chunk could take; no
error answers the opening of a worker or a recycle; and what is asked for goes to workers that run. -/
def undisturbed (s : ResolverPool T) (e : Event T) : Bool :=
  (match e with
    | .exit w code =>
      code ≠ 0 || s.failed.isSome ||
        (s.workers[w]?.all (·.owed.isEmpty) && (s.pendingChunks.isEmpty || s.othersLive w))
    | .synthResult w _ _ | .nearDupSigned w _ _ =>
      s.paused || s.pendingChunks.isEmpty || s.workers[w]?.all (4 < ·.busy)
    | .error _ kind _ _ => kind ≠ .recycle
    | .openFailed .. => false
    | .resolveBatch refs => refs.isEmpty || s.failed.isSome || s.workers.any (!·.exited)
    | _ => true) &&
  (s.step e).all fun t => (t.posted.drop s.posted.length).all fun p => s.live p.1

abbrev ReachableUndisturbed (T : PoolTypes) (size : Nat) : ResolverPool T → Prop :=
  Transitions.ReachableWhen (fun s e => undisturbed s e = true) (construct T size) step

private theorem step_counted {e : Event T} (counted : Counted s) (calm : s.undisturbed e = true)
    (taken : s.step e = some t) : Counted t := by
  cases e with
  | openPool =>
    cases taken
    unfold openPool
    split
    · exact counted
    · exact counted.map rfl (fun _ => rfl) fun _ => rfl
  | pauseDispatch =>
    cases taken
    exact counted
  | resumeDispatch =>
    cases taken
    exact Counted.pump (s := { s with paused := false }) counted
  | resolveBatch refs =>
    cases taken
    rw [resolveBatch_eq]
    split
    · exact counted
    · exact Counted.pump (s := s.enqueue refs) counted
  | runSynthPass pass =>
    cases taken
    unfold runSynthPass
    split
    · exact counted
    · split
      · exact counted
      · next w least =>
        exact Counted.postCounted (s := { s with
          nextId := s.nextId + 1, synthWaiters := s.synthWaiters ++ [s.nextId] }) counted w rfl
  | signNearDuplicates bodies =>
    cases taken
    unfold signNearDuplicates
    split
    · exact counted
    · exact counted.foldl (fun _ x counted => counted.signLane x) _
  | recycleWorkers =>
    cases taken
    unfold recycleWorkers
    split
    · exact counted
    · refine counted.foldl (fun r w counted => ?_) _
      exact Counted.postRecycle (s := { r with
        nextId := r.nextId + 1
        recycleWaiters := r.recycleWaiters ++ [(r.nextId, false)] }) counted w r.nextId
  | destroy =>
    cases taken
    exact counted
  | ready w =>
    obtain ⟨-, ⟨⟩⟩ := Option.ite_none_right_eq_some.mp taken
    have opened : Counted (s.updateWorker w fun v => { v with opening := false }) :=
      counted.modify rfl fun _ _ same => same
    exact opened.modify (f := (·.settleReady none)) rfl fun _ _ same => same
  | openFailed w message => simp [undisturbed] at calm
  | result w id result =>
    obtain ⟨refs, found, rfl⟩ := step_result taken
    have noted : Counted (s.noteAnswer (id, refs) result) := counted
    have answered := noted.answer found (by simp)
    simp only [onResult]
    split <;> exact Counted.pump (s := { ResolverPool.countDown _ w with waiters := _ }) answered
  | synthResult w id result =>
    obtain ⟨m, found, rfl⟩ := Option.map_eq_some_iff.mp taken
    have answered := counted.answer found (by simp)
    simp only [onSynthResult]
    split <;> exact answered
  | nearDupSigned w id results =>
    obtain ⟨m, found, rfl⟩ := Option.map_eq_some_iff.mp taken
    have answered := counted.answer found (by simp)
    simp only [onNearDupSigned]
    split <;> exact answered
  | recycling w id =>
    obtain ⟨m, -, rfl⟩ := Option.map_eq_some_iff.mp taken
    exact counted
  | recycled w id =>
    obtain ⟨m, found, rfl⟩ := Option.map_eq_some_iff.mp taken
    have answered := counted.answerRecycle found
    unfold onRecycled
    split <;> exact answered
  | error w kind id message =>
    obtain ⟨m, found, rfl⟩ := Option.map_eq_some_iff.mp taken
    have counts : kind ≠ .recycle := by
      simp only [undisturbed, Bool.and_eq_true] at calm
      simpa using calm.1
    exact (counted.answer found counts).onError message
  | uncaught w message =>
    obtain ⟨-, ⟨⟩⟩ := Option.ite_none_right_eq_some.mp taken
    exact (counted.fail _).modify (w := w) (f := (·.settleReady _)) rfl fun _ _ same => same
  | exit w code =>
    obtain ⟨-, ⟨⟩⟩ := Option.ite_none_right_eq_some.mp taken
    have failed : Counted (if code ≠ 0 then s.fail (.exitCode code) else s) := by
      split
      · exact counted.fail _
      · exact counted
    simp only [onExit]
    generalize (if code ≠ 0 then s.fail (.exitCode code) else s) = u at failed
    exact failed.modify (w := w) (f := (·.exit u.failed)) rfl fun _ _ same => same
  | recycleTimeout id =>
    obtain ⟨-, ⟨⟩⟩ := Option.ite_none_right_eq_some.mp taken
    exact Counted.fail (s := { s with recycleWaiters := unassign s.recycleWaiters id }) counted
      .recycleTimedOut
  | terminated call w =>
    obtain ⟨-, ⟨⟩⟩ := Option.ite_none_right_eq_some.mp taken
    exact counted

/-! ### Chunks that could be posted -/

def Saturated (s : ResolverPool T) : Prop :=
  s.paused = true ∨ s.pendingChunks = [] ∨ ∀ v ∈ s.workers, 4 ≤ v.busy

private theorem pumpQueue_saturated (queue : List (Nat × List T.Ref)) (s : ResolverPool T) :
    (s.pumpQueue queue).pendingChunks = [] ∨ ∀ v ∈ (s.pumpQueue queue).workers, 4 ≤ v.busy := by
  induction queue generalizing s with
  | nil => exact .inl rfl
  | cons item rest ih =>
    unfold pumpQueue
    split
    · next none_ =>
      right
      show ∀ v ∈ s.workers, 4 ≤ v.busy
      rw [leastBusy_none none_]
      nofun
    · next v w least =>
      split
      · next full =>
        exact .inr fun u listed => Int.le_trans full ((leastBusy_spec least).2 u listed)
      · exact ih _

theorem pump_saturated (s : ResolverPool T) : Saturated s.pumpDispatch := by
  unfold pumpDispatch
  split
  · next paused => exact .inl paused
  · exact .inr (pumpQueue_saturated s.pendingChunks s)

private theorem Saturated.busier (saturated : Saturated s) (paused : t.paused = s.paused)
    (queue : t.pendingChunks = s.pendingChunks)
    (busier : ∀ v' ∈ t.workers, ∃ v ∈ s.workers, v.busy ≤ v'.busy) : Saturated t := by
  rcases saturated with held | none_ | full
  · exact .inl (paused.trans held)
  · exact .inr (.inl (queue.trans none_))
  · refine .inr (.inr fun v' listed => ?_)
    obtain ⟨v, here, le⟩ := busier v' listed
    exact Int.le_trans (full v here) le

private theorem Saturated.modify {w : Nat} {f : PoolWorker T → PoolWorker T} (saturated : Saturated s)
    (paused : t.paused = s.paused) (queue : t.pendingChunks = s.pendingChunks)
    (workers : t.workers = s.workers.modify w f) (le : ∀ v, v.busy ≤ (f v).busy) : Saturated t := by
  refine saturated.busier paused queue fun v' listed => ?_
  rw [workers] at listed
  rcases of_mem_modify listed with old | ⟨u, here, rfl⟩
  · exact ⟨v', old, Int.le_refl _⟩
  · exact ⟨u, List.mem_of_getElem? here, le u⟩

private theorem Saturated.postMessage (saturated : Saturated s) (w : Nat) (m : Message T) :
    Saturated (s.postMessage w m) :=
  saturated.modify rfl rfl rfl fun _ => Int.le_refl _

private theorem Saturated.postCounted (saturated : Saturated s) (w : Nat) (m : Message T) :
    Saturated (s.postCounted w m) := by
  have busier : Saturated (s.updateWorker w fun v => { v with busy := v.busy + 1 }) :=
    saturated.modify rfl rfl rfl fun v => Int.le_of_lt (Int.lt_succ v.busy)
  exact busier.postMessage w m

private theorem Saturated.signLane (saturated : Saturated s) (bodies : List T.NearDupBody) :
    Saturated (s.signLane bodies) := by
  unfold ResolverPool.signLane
  split
  · exact saturated
  · next w least =>
    exact Saturated.postCounted (s := { s with
      nextId := s.nextId + 1, signWaiters := s.signWaiters ++ [s.nextId] }) saturated w _

private theorem Saturated.foldl {α : Type} {f : ResolverPool T → α → ResolverPool T}
    (each : ∀ s x, Saturated s → Saturated (f s x)) (xs : List α) (saturated : Saturated s) :
    Saturated (xs.foldl f s) := by
  induction xs generalizing s with
  | nil => exact saturated
  | cons x xs ih => exact ih (each s x saturated)

private theorem Saturated.acknowledge {w : Nat} {tag : Kind × Nat} {m : Message T}
    (saturated : Saturated s) (found : s.owedTo w tag = some m)
    (calm : (s.paused || s.pendingChunks.isEmpty || s.workers[w]?.all (4 < ·.busy)) = true) :
    Saturated ((s.answer w tag).countDown w) := by
  obtain ⟨v, there, -, -, -⟩ := owedTo_spec found
  simp only [Bool.or_eq_true, List.isEmpty_iff, there, Option.all_some, decide_eq_true_eq] at calm
  rcases calm with (held | none_) | busy
  · exact .inl held
  · exact .inr (.inl none_)
  · rcases saturated with held | none_ | full
    · exact .inl held
    · exact .inr (.inl none_)
    · refine .inr (.inr fun u listed => ?_)
      rcases of_mem_modify listed with old | ⟨u', here, rfl⟩
      · rcases of_mem_modify old with older | ⟨x, here, rfl⟩
        · exact full u older
        · exact full x (List.mem_of_getElem? here)
      · have answered : (s.answer w tag).workers[w]? = some (v.answer tag) := by
          simp [answer, updateWorker, there]
        rw [answered] at here
        cases here
        show 4 ≤ v.busy - 1
        omega

private theorem step_saturated {e : Event T} (saturated : Saturated s) (calm : s.undisturbed e = true)
    (taken : s.step e = some t) : Saturated t := by
  have failed (r : ResolverPool T) (err : Failure) : Saturated (r.fail err) := .inr (.inl rfl)
  cases e with
  | openPool =>
    cases taken
    unfold openPool
    split
    · exact saturated
    · refine saturated.busier rfl rfl fun v' listed => ?_
      obtain ⟨v, here, rfl⟩ := List.mem_map.mp listed
      exact ⟨v, here, Int.le_refl _⟩
  | pauseDispatch =>
    cases taken
    exact .inl rfl
  | resumeDispatch =>
    cases taken
    exact pump_saturated _
  | resolveBatch refs =>
    cases taken
    rw [resolveBatch_eq]
    split
    · exact saturated
    · exact pump_saturated _
  | runSynthPass pass =>
    cases taken
    unfold runSynthPass
    split
    · exact saturated
    · split
      · exact saturated
      · next w least =>
        exact Saturated.postCounted (s := { s with
          nextId := s.nextId + 1, synthWaiters := s.synthWaiters ++ [s.nextId] }) saturated w _
  | signNearDuplicates bodies =>
    cases taken
    unfold signNearDuplicates
    split
    · exact saturated
    · exact saturated.foldl (fun _ x saturated => saturated.signLane x) _
  | recycleWorkers =>
    cases taken
    unfold recycleWorkers
    split
    · exact saturated
    · refine saturated.foldl (fun r w saturated => ?_) _
      exact Saturated.postMessage (s := { r with
        nextId := r.nextId + 1
        recycleWaiters := r.recycleWaiters ++ [(r.nextId, false)] }) saturated w _
  | destroy =>
    cases taken
    exact .inr (.inl rfl)
  | ready w =>
    obtain ⟨-, ⟨⟩⟩ := Option.ite_none_right_eq_some.mp taken
    have opened : Saturated (s.updateWorker w fun v => { v with opening := false }) :=
      saturated.modify rfl rfl rfl fun _ => Int.le_refl _
    exact opened.modify (f := (·.settleReady none)) rfl rfl rfl fun _ => Int.le_refl _
  | openFailed w message => simp [undisturbed] at calm
  | result w id result =>
    obtain ⟨refs, -, rfl⟩ := step_result taken
    simp only [onResult]
    split <;> exact pump_saturated _
  | synthResult w id result =>
    obtain ⟨m, found, rfl⟩ := Option.map_eq_some_iff.mp taken
    simp only [undisturbed, Bool.and_eq_true] at calm
    have answered := saturated.acknowledge found calm.1
    simp only [onSynthResult]
    split <;> exact answered
  | nearDupSigned w id results =>
    obtain ⟨m, found, rfl⟩ := Option.map_eq_some_iff.mp taken
    simp only [undisturbed, Bool.and_eq_true] at calm
    have answered := saturated.acknowledge found calm.1
    simp only [onNearDupSigned]
    split <;> exact answered
  | recycling w id =>
    obtain ⟨m, -, rfl⟩ := Option.map_eq_some_iff.mp taken
    exact saturated
  | recycled w id =>
    obtain ⟨m, -, rfl⟩ := Option.map_eq_some_iff.mp taken
    have answered : Saturated (s.answer w (.recycle, id)) :=
      saturated.modify rfl rfl rfl fun _ => Int.le_refl _
    unfold onRecycled
    split <;> exact answered
  | error w kind id message =>
    obtain ⟨m, -, rfl⟩ := Option.map_eq_some_iff.mp taken
    have pumped := pump_saturated ((s.answer w (kind, id)).countDown w)
    simp only [onError]
    split
    · exact pumped
    · split
      · exact pumped
      · split
        · exact pumped
        · exact failed _ _
  | uncaught w message =>
    obtain ⟨-, ⟨⟩⟩ := Option.ite_none_right_eq_some.mp taken
    exact .inr (.inl rfl)
  | exit w code =>
    obtain ⟨-, ⟨⟩⟩ := Option.ite_none_right_eq_some.mp taken
    have before : Saturated (if code ≠ 0 then s.fail (.exitCode code) else s) := by
      split
      · exact failed _ _
      · exact saturated
    simp only [onExit]
    generalize (if code ≠ 0 then s.fail (.exitCode code) else s) = u at before
    exact before.modify (w := w) (f := (·.exit u.failed)) rfl rfl rfl fun _ => Int.le_refl _
  | recycleTimeout id =>
    obtain ⟨-, ⟨⟩⟩ := Option.ite_none_right_eq_some.mp taken
    exact .inr (.inl rfl)
  | terminated call w =>
    obtain ⟨-, ⟨⟩⟩ := Option.ite_none_right_eq_some.mp taken
    exact saturated

/-- As long as the pool has not failed, a worker that has exited owes no answer. -/
def Paid (s : ResolverPool T) : Prop :=
  s.failed = none → ∀ v ∈ s.workers, v.exited = true → v.owed = []

private theorem onExit_failed {w code : Nat} (none_ : (s.onExit w code).failed = none) :
    code = 0 ∧ s.failed = none := by
  simp only [onExit, updateWorker] at none_
  split at none_
  · cases none_
  · next zero => exact ⟨by simpa using zero, none_⟩

private theorem calm_live {e : Event T} (calm : s.undisturbed e = true) (taken : s.step e = some t)
    (sends : Sends s t new) {i : Nat} {m : Message T} (member : (i, m) ∈ new) : s.live i = true := by
  simp only [undisturbed, Bool.and_eq_true, taken, Option.all_some, sends.posted,
    List.drop_left, List.all_eq_true] at calm
  exact calm.2 (i, m) member

private theorem step_paid {e : Event T} (paid : Paid s) (calm : s.undisturbed e = true)
    (taken : s.step e = some t) : Paid t := by
  intro none_ v' listed exited
  by_cases exits : ∃ w code, e = .exit w code
  · obtain ⟨w, code, rfl⟩ := exits
    obtain ⟨-, ⟨⟩⟩ := Option.ite_none_right_eq_some.mp taken
    obtain ⟨rfl, running⟩ := onExit_failed none_
    simp only [undisturbed, Bool.and_eq_true, ne_eq, not_true, decide_false, running,
      Option.isSome_none, Bool.false_or] at calm
    simp only [onExit, ne_eq, not_true, if_false, updateWorker] at listed
    rcases of_mem_modify listed with old | ⟨u, here, rfl⟩
    · exact paid running v' old exited
    · have empty := calm.1.1
      rw [here] at empty
      show u.owed = []
      simpa using empty
  · have stays : ∀ w code, e ≠ .exit w code := fun w code same => exits ⟨w, code, same⟩
    obtain ⟨new, sends⟩ := step_sends taken stays
    obtain ⟨i, there⟩ := List.mem_iff_getElem?.mp listed
    obtain ⟨v, here, same, owed⟩ := sends.workers i v' there
    have gone : v.exited = true := same ▸ exited
    refine List.eq_nil_iff_forall_not_mem.mpr fun m member => ?_
    rcases owed m member with old | sent
    · rw [paid (sends.failed none_) v (List.mem_of_getElem? here) gone] at old
      cases old
    · have live := calm_live calm taken sends sent
      simp [ResolverPool.live, here, gone] at live

/-- As long as the pool has not failed, no chunk is queued once every worker has exited. -/
def Emptied (s : ResolverPool T) : Prop :=
  s.failed = none → (∀ v ∈ s.workers, v.exited = true) → s.pendingChunks = []

private theorem step_queue {e : Event T} (taken : s.step e = some t)
    (other : ∀ refs, e ≠ .resolveBatch refs) : ∀ item ∈ t.pendingChunks, item ∈ s.pendingChunks := by
  cases ordinary : e.ordinary with
  | true =>
    obtain ⟨new, effect⟩ := step_effect taken ordinary
    exact effect.queue
  | false =>
    cases e with
    | resolveBatch refs => exact absurd rfl (other refs)
    | destroy =>
      cases taken
      exact List.forall_mem_nil _
    | result w id result =>
      obtain ⟨refs, -, rfl⟩ := step_result taken
      obtain ⟨u, new, handled, same⟩ :=
        Effect.onResult ((s.noteAnswer (id, refs) result).answer w (.chunk, id)) w id result
      rcases same with same | same <;> rw [same] <;> exact handled.queue
    | exit w code =>
      obtain ⟨-, ⟨⟩⟩ := Option.ite_none_right_eq_some.mp taken
      simp only [onExit, updateWorker]
      split
      · exact List.forall_mem_nil _
      · exact fun _ listed => listed
    | terminated call w =>
      obtain ⟨-, ⟨⟩⟩ := Option.ite_none_right_eq_some.mp taken
      exact fun _ listed => listed
    | openPool | pauseDispatch | resumeDispatch | runSynthPass | signNearDuplicates | recycleWorkers
    | ready | openFailed | synthResult | nearDupSigned | recycling | recycled | error | uncaught
    | recycleTimeout => cases ordinary

private theorem empty_of_subset {α : Type} {xs ys : List α} (le : ∀ x ∈ xs, x ∈ ys) (none_ : ys = []) :
    xs = [] :=
  List.eq_nil_iff_forall_not_mem.mpr fun x listed => by
    have member := le x listed
    rw [none_] at member
    cases member

private theorem step_emptied {e : Event T} (emptied : Emptied s) (calm : s.undisturbed e = true)
    (taken : s.step e = some t) : Emptied t := by
  intro none_ gone
  by_cases exits : ∃ w code, e = .exit w code
  · obtain ⟨w, code, rfl⟩ := exits
    obtain ⟨-, ⟨⟩⟩ := Option.ite_none_right_eq_some.mp taken
    obtain ⟨rfl, running⟩ := onExit_failed none_
    simp only [undisturbed, Bool.and_eq_true, ne_eq, not_true, decide_false, running,
      Option.isSome_none, Bool.false_or, Bool.or_eq_true] at calm
    rcases calm.1.2 with empty | others
    · simpa [onExit, updateWorker] using empty
    · -- the other worker runs on
      obtain ⟨⟨v, i⟩, listed, runs⟩ := List.any_eq_true.mp others
      have there := List.mem_zipIdx_iff_getElem?.mp listed
      simp only [ne_eq, Bool.and_eq_true, decide_eq_true_eq, Bool.not_eq_true'] at runs there
      have after : (s.onExit w 0).workers[i]? = some v := by
        simp only [onExit, ne_eq, not_true, if_false, updateWorker]
        rw [List.getElem?_modify_ne _ _ (Ne.symm runs.1), there]
      have exited := gone v (List.mem_of_getElem? after)
      rw [runs.2] at exited
      cases exited
  · have stays : ∀ w code, e ≠ .exit w code := fun w code same => exits ⟨w, code, same⟩
    obtain ⟨new, sends⟩ := step_sends taken stays
    have running := sends.failed none_
    have before : ∀ v ∈ s.workers, v.exited = true := by
      intro v listed
      obtain ⟨i, here⟩ := List.mem_iff_getElem?.mp listed
      have bound : i < t.workers.length := by
        rw [sends.length]
        exact (List.getElem?_eq_some_iff.mp here).1
      obtain ⟨u, here', same, -⟩ := sends.workers i _ (List.getElem?_eq_getElem bound)
      rw [here] at here'
      cases here'
      rw [← same]
      exact gone _ (List.getElem_mem bound)
    have empty := emptied running before
    by_cases asks : ∃ refs, e = .resolveBatch refs
    · obtain ⟨refs, rfl⟩ := asks
      cases taken
      simp only [undisturbed, Bool.and_eq_true, running, Option.isSome_none, Bool.or_false,
        Bool.or_eq_true, List.isEmpty_iff] at calm
      rcases calm.1 with rfl | live
      · obtain ⟨more, pumped⟩ := Effect.pump (s.enqueue [])
        rw [resolveBatch_eq, if_neg (by simp [running])]
        exact empty_of_subset pumped.queue (by simpa [enqueue, slices, numbered] using empty)
      · obtain ⟨v, listed, runs⟩ := List.any_eq_true.mp live
        rw [before v listed] at runs
        cases runs
    · exact empty_of_subset (step_queue taken fun refs same => asks ⟨refs, same⟩) empty

/-! ### The contract -/

private structure Kept (s : ResolverPool T) : Prop where
  placed : Placed s none
  sourced : Sourced s
  ended : Ended s
  counted : Counted s
  saturated : Saturated s
  paid : Paid s
  emptied : Emptied s

private theorem construct_kept (T : PoolTypes) (size : Nat) : Kept (construct T size) where
  placed := construct_placed T size
  sourced :=
    { whole := nofun
      distinct := List.nodup_nil
      numbered := nofun
      queued := nofun
      owed := by
        rintro id refs ⟨v, listed, member⟩
        rw [List.eq_of_mem_replicate listed] at member
        cases member
      answered := nofun
      results := nofun }
  ended :=
    { readied := by
        intro v listed exited
        rw [List.eq_of_mem_replicate listed] at exited
        cases exited
      closing := nofun }
  counted := by
    intro v listed
    rw [List.eq_of_mem_replicate listed]
    rfl
  saturated := .inr (.inl rfl)
  paid := by
    intro _ v listed _
    rw [List.eq_of_mem_replicate listed]
  emptied := fun _ _ => rfl

private theorem step_kept {e : Event T} (kept : Kept s) (calm : s.undisturbed e = true)
    (taken : s.step e = some t) : Kept t where
  placed := step_placed kept.placed taken
  sourced := step_sourced kept.sourced taken
  ended := step_ended kept.ended taken
  counted := step_counted kept.counted calm taken
  saturated := step_saturated kept.saturated calm taken
  paid := step_paid kept.paid calm taken
  emptied := step_emptied kept.emptied calm taken

def Concatenates (result : ChunkResult T) (results : List (ChunkResult T)) : Prop :=
  result = merged results ∧
    result.resolved = results.flatMap (·.resolved) ∧
    result.unresolved = results.flatMap (·.unresolved) ∧
    result.deferredChain = results.flatMap (·.deferredChain) ∧
    result.deferredThisMember = results.flatMap (·.deferredThisMember)

private theorem merged_lists (results : List (ChunkResult T)) (out : ChunkResult T) :
    (results.foldl addChunk out).resolved = out.resolved ++ results.flatMap (·.resolved) ∧
      (results.foldl addChunk out).unresolved = out.unresolved ++ results.flatMap (·.unresolved) ∧
      (results.foldl addChunk out).deferredChain =
        out.deferredChain ++ results.flatMap (·.deferredChain) ∧
      (results.foldl addChunk out).deferredThisMember =
        out.deferredThisMember ++ results.flatMap (·.deferredThisMember) := by
  induction results generalizing out with
  | nil => simp
  | cons c rest ih =>
    obtain ⟨resolved, unresolved, deferredChain, deferredThisMember⟩ := ih (addChunk out c)
    simp only [List.foldl_cons, List.flatMap_cons]
    rw [resolved, unresolved, deferredChain, deferredThisMember]
    simp [addChunk]

private theorem merged_concatenates (results : List (ChunkResult T)) :
    Concatenates (merged results) results :=
  ⟨rfl, merged_lists results ⟨[], [], [], [], [], none⟩⟩

private theorem chunkResults_spec {batch : List (Nat × List T.Ref)} {results : List (ChunkResult T)}
    (done : s.chunkResults batch = some results) :
    List.Forall₂ (fun chunk result => s.outcome chunk.1 = some (.chunk result)) batch results := by
  induction batch generalizing results with
  | nil =>
    cases done
    exact .nil
  | cons chunk rest ih =>
    rw [chunkResults, List.mapM_cons] at done
    obtain ⟨result, first, done⟩ := Option.bind_eq_some_iff.mp done
    obtain ⟨more, others, done⟩ := Option.bind_eq_some_iff.mp done
    cases done
    refine .cons ?_ (ih others)
    split at first
    · next outcome =>
      cases first
      exact outcome
    · cases first

private theorem answers_of_outcomes (sourced : Sourced s) {batch : List (Nat × List T.Ref)}
    {results : List (ChunkResult T)}
    (outcomes : List.Forall₂ (fun chunk result => s.outcome chunk.1 = some (.chunk result)) batch results)
    (listed : ∀ chunk ∈ batch, chunk ∈ s.chunks) :
    List.Forall₂ (fun chunk result => (chunk, result) ∈ s.answered) batch results := by
  induction outcomes with
  | nil => exact .nil
  | cons outcome _ ih =>
    refine .cons ?_ (ih (fun chunk member => listed chunk (List.mem_cons_of_mem _ member)))
    obtain ⟨refs, answered⟩ := sourced.results _ _ (mem_of_lookup outcome)
    -- a number belongs to one chunk
    have own := lookup_of_mem sourced.distinct (listed _ List.mem_cons_self)
    have other := lookup_of_mem sourced.distinct (sourced.answered _ answered)
    rw [own] at other
    cases other
    exact answered

private theorem batchResult_spec (sourced : Sourced s) {batch : Batch T} (asked : batch ∈ s.batches)
    {result : ChunkResult T} (resolved : s.batchResult batch = some result) :
    ∃ results, List.Forall₂ (fun chunk result => (chunk, result) ∈ s.answered) batch.chunks results ∧
      Concatenates result results := by
  obtain ⟨results, done, rfl⟩ := Option.map_eq_some_iff.mp resolved
  refine ⟨results, answers_of_outcomes sourced (chunkResults_spec done) fun chunk member => ?_,
    merged_concatenates results⟩
  exact List.mem_flatMap.mpr ⟨batch, asked, member⟩

/-- In every run, also in those that the contract leaves out: a batch is answered from its own chunks,
each promise given out is in one place, a worker owes what is waited for, a call of `destroy` waits for
all workers that run, and nothing is open once the pool has failed. -/
theorem resolver_pool_always (T : PoolTypes) (size : Nat) {s : ResolverPool T}
    (reached : Transitions.Reachable (construct T size) step s) :
    (∀ batch ∈ s.batches, (batch.chunks.map Prod.snd).flatten = batch.refs ∧
      ∀ result, s.batchResult batch = some result → ∃ results,
        List.Forall₂ (fun chunk result => (chunk, result) ∈ s.answered) batch.chunks results ∧
          Concatenates result results) ∧
    (∀ id, s.places id = if id < s.nextId then 1 else 0) ∧
    (∀ tag ∈ s.waiting, ∃ m, Owed s m ∧ m.tag = tag) ∧
    (∀ waits ∈ s.closing, ∀ i v, s.workers[i]? = some v → i ∉ waits → v.exited = true) ∧
    (s.failed.isSome → ∀ id < s.nextId, id ∈ s.settledIds) := by
  have kept : Placed s none ∧ Sourced s ∧ Ended s := by
    induction reached with
    | start =>
      have kept := construct_kept T size
      exact ⟨kept.placed, kept.sourced, kept.ended⟩
    | step _ taken ih =>
      exact ⟨step_placed ih.1 taken, step_sourced ih.2.1 taken, step_ended ih.2.2 taken⟩
  obtain ⟨placed, sourced, ended⟩ := kept
  refine ⟨fun batch asked => ⟨sourced.whole batch asked, fun result => batchResult_spec sourced asked⟩,
    placed.once, fun tag waits => ?_, ended.closing, fun failed id handed => ?_⟩
  · exact (placed.owed tag waits).resolve_left fun none_ => by cases none_
  · have idle := placed.failed failed
    simp only [waiting, List.append_eq_nil_iff, List.map_eq_nil_iff] at idle
    have place := placed.once id
    rw [if_pos handed] at place
    simp only [places, idle, List.map_nil, List.count_nil, Nat.zero_add] at place
    exact List.one_le_count_iff.mp (Nat.le_of_eq place.symm)

/-! ### Runs of a pool of numbers -/

private abbrev numbers : PoolTypes := ⟨Nat, Nat, Nat, Nat, Nat, Nat⟩

private def resolvedOnly (n : Nat) : ChunkResult numbers := ⟨[n], [], [], [], [], none⟩

private def batchRun : List (Event numbers) :=
  [.openPool, .ready 0, .ready 1, .resolveBatch [5, 6], .result 1 1 (resolvedOnly 60),
    .result 0 0 (resolvedOnly 50), .destroy, .exit 0 0, .exit 1 0]

private def closedRun : List (Event numbers) :=
  [.openPool, .ready 0, .runSynthPass "callbacks", .destroy, .exit 0 0]

private def stalledRun : List (Event numbers) :=
  [.openPool, .ready 0, .runSynthPass "a", .runSynthPass "b", .runSynthPass "c", .runSynthPass "d",
    .resolveBatch [7], .synthResult 0 0 10, .synthResult 0 1 11, .synthResult 0 2 12,
    .synthResult 0 3 13]

private def miscountedRun : List (Event numbers) :=
  [.openPool, .ready 0, .recycleWorkers, .error 0 .recycle 0 "recycle before open"]

theorem resolver_pool_always_stalled : ∃ s : ResolverPool numbers,
    Transitions.run step (construct numbers 1) stalledRun = some s ∧ s.pendingChunks ≠ [] ∧
      ∀ id, s.places id = if id < s.nextId then 1 else 0 := by
  have seen : (Transitions.run step (construct numbers 1) stalledRun).map (fun s =>
      s.pendingChunks.map Prod.fst) = some [4] := by decide +kernel
  obtain ⟨s, done, queue⟩ := Option.map_eq_some_iff.mp seen
  refine ⟨s, done, fun none_ => ?_, ?_⟩
  · rw [none_] at queue
    cases queue
  · exact (resolver_pool_always numbers 1 (Transitions.run_reachable stalledRun .start done)).2.1

end CodeGraph.Resolution.ResolverPool
