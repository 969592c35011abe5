import CodeGraph.Resolution.ResolverPool

/-!
What one handler of the resolver pool can do.

Every handler appends to the messages that were posted, and leaves the workers that run and the
batches as they are; that is said once here, for the pump by induction on the queue.
-/
namespace CodeGraph.Resolution.ResolverPool

open InsertionMap

variable {T : PoolTypes}

/-- The loop keeps a worker that none it has seen is less busy than. -/
private theorem leastBusy_fold {v : PoolWorker T × Nat} (rest : List (PoolWorker T × Nat))
    (best : Option (PoolWorker T × Nat))
    (folded : rest.foldl (fun best w =>
      if best.any (fun b => b.1.busy ≤ w.1.busy) then best else some w) best = some v) :
    (v ∈ rest ∨ best = some v) ∧ (∀ u ∈ rest, v.1.busy ≤ u.1.busy) ∧
      ∀ b, best = some b → v.1.busy ≤ b.1.busy := by
  induction rest generalizing best with
  | nil =>
    cases folded
    refine ⟨.inr rfl, (fun u member => nomatch member), fun b same => ?_⟩
    cases same
    exact Int.le_refl _
  | cons w rest ih =>
    rw [List.foldl_cons] at folded
    obtain ⟨source, smallest, upper⟩ := ih _ folded
    by_cases better : best.any (fun b => b.1.busy ≤ w.1.busy) = true
    · rw [if_pos better] at source upper
      refine ⟨source.imp_left (List.mem_cons_of_mem _), fun u member => ?_, upper⟩
      rcases List.mem_cons.mp member with rfl | later
      · cases best with
        | none => cases better
        | some b => exact Int.le_trans (upper b rfl) (by simpa using better)
      · exact smallest u later
    · rw [if_neg better] at source upper
      have own := upper w rfl
      refine ⟨.inl ?_, fun u member => ?_, fun b same => ?_⟩
      · rcases source with later | here
        · exact List.mem_cons_of_mem _ later
        · cases here
          exact List.mem_cons_self
      · rcases List.mem_cons.mp member with rfl | later
        · exact own
        · exact smallest u later
      · subst same
        simp only [Option.any_some, decide_eq_true_eq, Int.not_le] at better
        exact Int.le_trans own (Int.le_of_lt better)

theorem leastBusy_spec {workers : List (PoolWorker T)} {v : PoolWorker T} {i : Nat}
    (found : leastBusy workers = some (v, i)) :
    workers[i]? = some v ∧ ∀ u ∈ workers, v.busy ≤ u.busy := by
  obtain ⟨source, smallest, -⟩ := leastBusy_fold _ _ found
  have listed := source.resolve_right (by simp)
  refine ⟨List.mem_zipIdx_iff_getElem?.mp listed, fun u member => ?_⟩
  obtain ⟨k, bound, rfl⟩ := List.getElem_of_mem member
  exact smallest (workers[k], k) (List.mem_zipIdx_iff_getElem?.mpr (List.getElem?_eq_getElem bound))

theorem leastBusy_none {workers : List (PoolWorker T)} (none_ : leastBusy workers = none) :
    workers = [] := by
  have stays (rest : List (PoolWorker T × Nat)) (b : PoolWorker T × Nat) :
      rest.foldl (fun best w =>
        if best.any (fun b => b.1.busy ≤ w.1.busy) then best else some w) (some b) ≠ none := by
    induction rest generalizing b with
    | nil => nofun
    | cons w rest ih =>
      rw [List.foldl_cons]
      split
      · exact ih b
      · exact ih w
  cases workers with
  | nil => rfl
  | cons w rest => exact absurd none_ (stays _ (w, 0))

theorem slices_flatten {α : Type} {size : Nat} (positive : 0 < size) (fuel : Nat) (xs : List α)
    (enough : xs.length ≤ fuel) : (slices size fuel xs).flatten = xs := by
  induction fuel generalizing xs with
  | zero =>
    rw [List.eq_nil_of_length_eq_zero (Nat.le_zero.mp enough)]
    rfl
  | succ fuel ih =>
    unfold slices
    split
    · next none_ => exact none_.symm
    · next some_ =>
      have shorter : (xs.drop size).length ≤ fuel := by
        have positive' := List.length_pos_iff.mpr some_
        rw [List.length_drop]
        omega
      rw [List.flatten_cons, ih _ shorter, List.take_append_drop]

theorem resolveChunkSize_pos (refs workers : Nat) : 0 < resolveChunkSize refs workers := by
  simp only [resolveChunkSize, CHUNK_SIZE]
  omega

theorem numbered_snd {α : Type} (first : Nat) (xs : List α) :
    (numbered first xs).map Prod.snd = xs := by
  rw [numbered, List.map_map]
  exact List.zipIdx_map_fst 0 xs

theorem numbered_fst {α : Type} (first : Nat) (xs : List α) :
    (numbered first xs).map Prod.fst = List.range' first xs.length := by
  rw [numbered, List.map_map, List.range'_eq_map_range]
  show xs.zipIdx.map ((first + ·) ∘ Prod.snd) = _
  rw [← List.map_map, List.zipIdx_map_snd, List.range_eq_range']

/-! ### What a handler does -/

/-- What one handler can do to a pool, apart from the batches that are asked for, the chunks that are
answered and the workers that exit. -/
structure Effect (s t : ResolverPool T) (new : List (Nat × Message T)) : Prop where
  posted : t.posted = s.posted ++ new
  length : t.workers.length = s.workers.length
  workers : ∀ i v', t.workers[i]? = some v' → ∃ v, s.workers[i]? = some v ∧ v'.exited = v.exited ∧
    (v.ready.isSome → v'.ready.isSome) ∧ ∀ m ∈ v'.owed, m ∈ v.owed ∨ (i, m) ∈ new
  queue : ∀ e ∈ t.pendingChunks, e ∈ s.pendingChunks
  sent : ∀ i id refs, (i, .resolve id refs) ∈ new → (id, refs) ∈ s.pendingChunks
  failed : t.failed = none → s.failed = none
  nextId : s.nextId ≤ t.nextId
  batches : t.batches = s.batches
  answered : t.answered = s.answered
  closing : t.closing = s.closing
  results : ∀ id r, (id, .chunk r) ∈ t.settled → (id, .chunk r) ∈ s.settled

variable {s t u : ResolverPool T} {new more : List (Nat × Message T)}

theorem Effect.refl (s : ResolverPool T) : Effect s s [] where
  posted := (List.append_nil _).symm
  length := rfl
  workers := fun _ v same => ⟨v, same, rfl, id, fun _ member => .inl member⟩
  queue := fun _ member => member
  sent := fun _ _ _ member => nomatch member
  failed := id
  nextId := Nat.le_refl _
  batches := rfl
  answered := rfl
  closing := rfl
  results := fun _ _ member => member

theorem Effect.trans (first : Effect s t new) (second : Effect t u more) :
    Effect s u (new ++ more) where
  posted := by rw [second.posted, first.posted, List.append_assoc]
  length := second.length.trans first.length
  workers := by
    intro i v'' there
    obtain ⟨v', there', exited', ready', owed'⟩ := second.workers i v'' there
    obtain ⟨v, here, exited, ready, owed⟩ := first.workers i v' there'
    refine ⟨v, here, exited'.trans exited, ready' ∘ ready, fun m member => ?_⟩
    rcases owed' m member with old | sent
    · exact (owed m old).imp_right (List.mem_append_left _)
    · exact .inr (List.mem_append_right _ sent)
  queue := fun e member => first.queue e (second.queue e member)
  sent := by
    intro i id refs member
    rcases List.mem_append.mp member with old | later
    · exact first.sent i id refs old
    · exact first.queue _ (second.sent i id refs later)
  failed := first.failed ∘ second.failed
  nextId := Nat.le_trans first.nextId second.nextId
  batches := second.batches.trans first.batches
  answered := second.answered.trans first.answered
  closing := second.closing.trans first.closing
  results := fun id r member => first.results id r (second.results id r member)

/-- The maps and the queue may lose entries, and promises settle with anything but a chunk's result. -/
theorem Effect.maps (w x y : List Nat) (z : List (Nat × Bool)) {n : Nat} (later : s.nextId ≤ n)
    (paused : Bool) {q : List (Nat × List T.Ref)} (fewer : ∀ e ∈ q, e ∈ s.pendingChunks)
    {settled : List (Nat × Outcome T)}
    (results : ∀ id r, (id, .chunk r) ∈ settled → (id, .chunk r) ∈ s.settled) :
    Effect s { s with
      waiters := w, synthWaiters := x, signWaiters := y, recycleWaiters := z, nextId := n
      paused := paused, pendingChunks := q, settled := settled } [] :=
  { Effect.refl s with nextId := later, queue := fewer, results := results }

theorem Effect.settle (s : ResolverPool T) (ids : List Nat) {o : Outcome T}
    (plain : ∀ r, o ≠ .chunk r) : Effect s (s.settle ids o) [] :=
  { Effect.refl s with
    results := by
      intro id r member
      rcases List.mem_append.mp member with old | new
      · exact old
      · obtain ⟨_, -, same⟩ := List.mem_map.mp new
        exact absurd (Prod.mk.inj same).2 (plain r) }

/-- A worker keeps whether it runs, and its promise that it is ready stays settled. -/
structure Keeps (f : PoolWorker T → PoolWorker T) : Prop where
  exited : ∀ v, (f v).exited = v.exited
  ready : ∀ v, v.ready.isSome → (f v).ready.isSome
  owed : ∀ v, ∀ m ∈ (f v).owed, m ∈ v.owed

theorem Effect.updateWorker (s : ResolverPool T) (w : Nat) {f : PoolWorker T → PoolWorker T}
    (keeps : Keeps f) : Effect s (s.updateWorker w f) [] :=
  { Effect.refl s with
    length := List.length_modify ..
    workers := by
      intro i v' there
      simp only [ResolverPool.updateWorker, List.getElem?_modify, Option.map_eq_map] at there
      obtain ⟨v, here, rfl⟩ := Option.map_eq_some_iff.mp there
      refine ⟨v, here, ?_⟩
      split
      · exact ⟨keeps.exited v, keeps.ready v, fun m member => .inl (keeps.owed v m member)⟩
      · exact ⟨rfl, id, fun m member => .inl member⟩ }

theorem Effect.postMessage (s : ResolverPool T) (w : Nat) (m : Message T)
    (sent : ∀ id refs, m = .resolve id refs → (id, refs) ∈ s.pendingChunks) :
    Effect s (s.postMessage w m) [(w, m)] :=
  { Effect.refl s with
    posted := rfl
    length := List.length_modify ..
    workers := by
      intro i v' there
      simp only [ResolverPool.postMessage, ResolverPool.updateWorker, List.getElem?_modify,
        Option.map_eq_map] at there
      obtain ⟨v, here, rfl⟩ := Option.map_eq_some_iff.mp there
      refine ⟨v, here, ?_⟩
      split
      · next same =>
        subst same
        refine ⟨rfl, id, fun n member => ?_⟩
        rcases mem_snoc.mp member with old | last
        · exact .inl old
        · rw [last]
          exact .inr (List.mem_singleton.mpr rfl)
      · exact ⟨rfl, id, fun n member => .inl member⟩
    sent := by
      intro i id refs member
      cases List.mem_singleton.mp member
      exact sent id refs rfl }

theorem keeps_busy (f : Int → Int) : Keeps (T := T) fun v => { v with busy := f v.busy } where
  exited := fun _ => rfl
  ready := fun _ => id
  owed := fun _ _ => id

theorem Effect.postCounted (s : ResolverPool T) (w : Nat) (m : Message T)
    (sent : ∀ id refs, m = .resolve id refs → (id, refs) ∈ s.pendingChunks) :
    Effect s (s.postCounted w m) [(w, m)] :=
  (Effect.updateWorker s w (keeps_busy (· + 1))).trans (Effect.postMessage _ w m sent)

def dispatchChunk (s : ResolverPool T) (w : Nat) (item : Nat × List T.Ref)
    (rest : List (Nat × List T.Ref)) : ResolverPool T :=
  { s with pendingChunks := rest, waiters := s.waiters ++ [item.1] }.postCounted w
    (.resolve item.1 item.2)

theorem pumpQueue_induct {P : ResolverPool T → Prop}
    (dispatch : ∀ s v w item rest, s.pendingChunks = item :: rest →
      leastBusy s.workers = some (v, w) → P s → P (s.dispatchChunk w item rest))
    (queue : List (Nat × List T.Ref)) (s : ResolverPool T)
    (base : P { s with pendingChunks := queue }) : P (s.pumpQueue queue) := by
  induction queue generalizing s with
  | nil => exact base
  | cons item rest ih =>
    unfold pumpQueue
    split
    · exact base
    · next v w least =>
      split
      · exact base
      · exact ih _ (dispatch { s with pendingChunks := item :: rest } v w item rest rfl least base)

theorem pumpDispatch_induct {P : ResolverPool T → Prop}
    (dispatch : ∀ s v w item rest, s.pendingChunks = item :: rest →
      leastBusy s.workers = some (v, w) → P s → P (s.dispatchChunk w item rest))
    (s : ResolverPool T) (base : P s) : P s.pumpDispatch := by
  unfold pumpDispatch
  split
  · exact base
  · exact pumpQueue_induct dispatch s.pendingChunks s base

theorem Effect.dispatchChunk {w : Nat} {item : Nat × List T.Ref} {rest : List (Nat × List T.Ref)}
    (queue : s.pendingChunks = item :: rest) :
    Effect s (s.dispatchChunk w item rest) [(w, .resolve item.1 item.2)] := by
  -- the chunk is still in the queue where it is posted
  have listed : item ∈ s.pendingChunks := by simp [queue]
  have fewer : ∀ e ∈ rest, e ∈ s.pendingChunks := by simp +contextual [queue]
  have post := Effect.postCounted { s with waiters := s.waiters ++ [item.1] } w
    (.resolve item.1 item.2) (by rintro id refs same; cases same; exact listed)
  exact { post with queue := fewer }

theorem Effect.pump (s : ResolverPool T) : ∃ new, Effect s s.pumpDispatch new :=
  pumpDispatch_induct (P := fun t => ∃ new, Effect s t new)
    (fun _ _ _ _ _ queue _ ⟨new, so_far⟩ => ⟨new ++ _, so_far.trans (.dispatchChunk queue)⟩) s
    ⟨[], .refl s⟩

theorem keeps_settleReady (o : Option Failure) : Keeps (T := T) (·.settleReady o) where
  exited := fun _ => rfl
  ready := fun _ _ => rfl
  owed := fun _ _ => id

theorem Effect.fail (s : ResolverPool T) (err : Failure) : Effect s (s.fail err) [] where
  posted := (List.append_nil _).symm
  length := List.length_map ..
  workers := by
    intro i v' there
    simp only [ResolverPool.fail, ResolverPool.settle, List.getElem?_map] at there
    obtain ⟨v, here, rfl⟩ := Option.map_eq_some_iff.mp there
    exact ⟨v, here, rfl, fun _ => rfl, fun m member => .inl member⟩
  queue := fun _ member => nomatch member
  sent := fun _ _ _ member => nomatch member
  failed := fun none_ => nomatch none_
  nextId := Nat.le_refl _
  batches := rfl
  answered := rfl
  closing := rfl
  results := by
    intro id r member
    simp only [ResolverPool.fail, ResolverPool.settle, List.append_assoc, List.mem_append,
      List.mem_map, Prod.mk.injEq, reduceCtorEq, and_false, exists_false, or_false] at member
    exact member

/-! ### The effects of the handlers -/

theorem keeps_answer (tag : Kind × Nat) : Keeps (T := T) (·.answer tag) where
  exited := fun _ => rfl
  ready := fun _ => id
  owed := fun _ _ member => List.mem_of_mem_eraseP member

theorem keeps_opening (b : Bool) : Keeps (T := T) fun v => { v with opening := b } where
  exited := fun _ => rfl
  ready := fun _ => id
  owed := fun _ _ => id

theorem Effect.countDown (s : ResolverPool T) (w : Nat) : Effect s (s.countDown w) [] :=
  .updateWorker s w (keeps_busy (· - 1))

theorem Effect.answer (s : ResolverPool T) (w : Nat) (tag : Kind × Nat) :
    Effect s (s.answer w tag) [] :=
  .updateWorker s w (keeps_answer tag)

private theorem Effect.forget (s : ResolverPool T) (w x y : List Nat) (z : List (Nat × Bool)) :
    Effect s { s with waiters := w, synthWaiters := x, signWaiters := y, recycleWaiters := z } [] :=
  .maps w x y z (Nat.le_refl _) s.paused (fun _ => id) fun _ _ => id

private theorem Effect.reject (s : ResolverPool T) (id : Nat) (err : Failure) :
    Effect s (s.settle [id] (.rejected err)) [] :=
  .settle s [id] fun _ same => nomatch same

theorem Effect.onError (s : ResolverPool T) (w : Nat) (id : Option Nat) (message : String) :
    ∃ new, Effect s (s.onError w id message) new := by
  obtain ⟨new, pumped⟩ := Effect.pump (s.countDown w)
  have before := (Effect.countDown s w).trans pumped
  simp only [ResolverPool.onError]
  cases id with
  | none => exact ⟨_, before.trans (.fail _ _)⟩
  | some id =>
    simp only
    split
    · exact ⟨_, (before.trans (.forget _ _ _ _ _)).trans (.reject _ id _)⟩
    · split
      · exact ⟨_, (before.trans (.forget _ _ _ _ _)).trans (.reject _ id _)⟩
      · split
        · exact ⟨_, (before.trans (.forget _ _ _ _ _)).trans (.reject _ id _)⟩
        · exact ⟨_, before.trans (.fail _ _)⟩

theorem Effect.onResult (s : ResolverPool T) (w id : Nat) (result : ChunkResult T) :
    ∃ u new, Effect s u new ∧ (s.onResult w id result = u ∨
      s.onResult w id result = u.settle [id] (.chunk result)) := by
  obtain ⟨new, pumped⟩ :=
    Effect.pump { s.countDown w with waiters := (s.countDown w).waiters.erase id }
  refine ⟨_, _, ((Effect.countDown s w).trans (.forget _ _ _ _ _)).trans pumped, ?_⟩
  simp only [ResolverPool.onResult]
  split
  · exact .inr rfl
  · exact .inl rfl

theorem Effect.onSynthResult (s : ResolverPool T) (w id : Nat) (result : T.SynthPassResult) :
    Effect s (s.onSynthResult w id result) [] := by
  simp only [ResolverPool.onSynthResult]
  split
  · exact ((Effect.countDown s w).trans (.forget _ _ _ _ _)).trans
      (.settle _ [id] fun _ same => nomatch same)
  · exact .countDown s w

theorem Effect.onNearDupSigned (s : ResolverPool T) (w id : Nat) (results : List T.NearDupSignature) :
    Effect s (s.onNearDupSigned w id results) [] := by
  simp only [ResolverPool.onNearDupSigned]
  split
  · exact ((Effect.countDown s w).trans (.forget _ _ _ _ _)).trans
      (.settle _ [id] fun _ same => nomatch same)
  · exact .countDown s w

theorem Effect.onRecycled (s : ResolverPool T) (id : Nat) : Effect s (s.onRecycled id) [] := by
  unfold ResolverPool.onRecycled
  split
  · exact (Effect.forget s _ _ _ _).trans (.settle _ [id] fun _ same => nomatch same)
  · exact .refl s

theorem Effect.onUncaught (s : ResolverPool T) (w : Nat) (message : String) :
    Effect s (s.onUncaught w message) [] :=
  (Effect.fail s _).trans (.updateWorker _ w (keeps_settleReady _))

theorem Effect.onRecycleTimeout (s : ResolverPool T) (id : Nat) :
    Effect s (s.onRecycleTimeout id) [] :=
  ((Effect.forget s _ _ _ _).trans (.fail _ _)).trans (.reject _ id _)

theorem Effect.openPool (s : ResolverPool T) : Effect s s.openPool [] := by
  unfold ResolverPool.openPool
  split
  · exact .refl s
  · exact { Effect.refl s with
      length := List.length_map ..
      workers := by
        intro i v' there
        rw [List.getElem?_map] at there
        obtain ⟨v, here, rfl⟩ := Option.map_eq_some_iff.mp there
        exact ⟨v, here, rfl, id, fun m member => .inl member⟩ }

private theorem Effect.call (s : ResolverPool T) (x y : List Nat) (w : Nat) {m : Message T}
    (plain : ∀ id refs, m ≠ .resolve id refs) :
    Effect s ({ s with nextId := s.nextId + 1, synthWaiters := x, signWaiters := y }.postCounted w m)
      [(w, m)] :=
  (Effect.maps s.waiters x y s.recycleWaiters (Nat.le_succ _) s.paused (fun _ => id) fun _ _ => id).trans
    (.postCounted _ w m fun id refs same => absurd same (plain id refs))

theorem Effect.runSynthPass (s : ResolverPool T) (pass : String) :
    ∃ new, Effect s (s.runSynthPass pass) new := by
  unfold ResolverPool.runSynthPass
  split
  · exact ⟨_, .refl s⟩
  · split
    · exact ⟨_, .refl s⟩
    · exact ⟨_, .call s _ _ _ fun _ _ same => nomatch same⟩

theorem Effect.signLane (s : ResolverPool T) (bodies : List T.NearDupBody) :
    ∃ new, Effect s (s.signLane bodies) new := by
  unfold ResolverPool.signLane
  split
  · exact ⟨_, .refl s⟩
  · exact ⟨_, .call s _ _ _ fun _ _ same => nomatch same⟩

theorem Effect.recycleWorker (s : ResolverPool T) (w : Nat) :
    Effect s (s.recycleWorker w) [(w, .recycle s.nextId)] :=
  (Effect.maps s.waiters s.synthWaiters s.signWaiters _ (Nat.le_succ _) s.paused (fun _ => id)
    fun _ _ => id).trans
    (.postMessage _ w _ fun _ _ same => nomatch same)

private theorem Effect.foldl {α : Type} (f : ResolverPool T → α → ResolverPool T)
    (each : ∀ s x, ∃ new, Effect s (f s x) new) (xs : List α) (s : ResolverPool T) :
    ∃ new, Effect s (xs.foldl f s) new := by
  induction xs generalizing s with
  | nil => exact ⟨_, .refl s⟩
  | cons x xs ih =>
    obtain ⟨new, first⟩ := each s x
    obtain ⟨more, rest⟩ := ih (f s x)
    exact ⟨_, first.trans rest⟩

theorem Effect.signNearDuplicates (s : ResolverPool T) (bodies : List T.NearDupBody) :
    ∃ new, Effect s (s.signNearDuplicates bodies) new := by
  unfold ResolverPool.signNearDuplicates
  split
  · exact ⟨_, .refl s⟩
  · exact Effect.foldl _ Effect.signLane _ s

theorem Effect.recycleWorkers (s : ResolverPool T) : ∃ new, Effect s s.recycleWorkers new := by
  unfold ResolverPool.recycleWorkers
  split
  · exact ⟨_, .refl s⟩
  · exact Effect.foldl _ (fun s w => ⟨_, .recycleWorker s w⟩) _ s

theorem Effect.resumeDispatch (s : ResolverPool T) : ∃ new, Effect s s.resumeDispatch new := by
  obtain ⟨new, pumped⟩ := Effect.pump { s with paused := false }
  exact ⟨_, (Effect.maps s.waiters s.synthWaiters s.signWaiters s.recycleWaiters (Nat.le_refl _) false
    (fun _ => id) fun _ _ => id).trans pumped⟩

theorem owedTo_spec {w : Nat} {tag : Kind × Nat} {m : Message T} (found : s.owedTo w tag = some m) :
    ∃ v, s.workers[w]? = some v ∧ v.exited = false ∧ m ∈ v.owed ∧ m.tag = tag := by
  obtain ⟨v, here, owed⟩ := Option.bind_eq_some_iff.mp found
  obtain ⟨there, live⟩ := Option.filter_eq_some_iff.mp here
  exact ⟨v, there, by simpa using live, List.mem_of_find?_eq_some owed, by
    simpa using List.find?_some owed⟩

def noteAnswer (s : ResolverPool T) (chunk : Nat × List T.Ref) (result : ChunkResult T) :
    ResolverPool T :=
  { s with answered := s.answered ++ [(chunk, result)] }

theorem step_result {w id : Nat} {result : ChunkResult T} (taken : s.step (.result w id result) = some t) :
    ∃ refs, s.owedTo w (.chunk, id) = some (.resolve id refs) ∧
      t = ((s.noteAnswer (id, refs) result).answer w (.chunk, id)).onResult w id result := by
  simp only [step] at taken
  split at taken
  · next k refs found =>
    cases taken
    obtain ⟨v, -, -, -, same⟩ := owedTo_spec found
    cases same
    exact ⟨refs, found, rfl⟩
  · cases taken

structure Sends (s t : ResolverPool T) (new : List (Nat × Message T)) : Prop where
  posted : t.posted = s.posted ++ new
  length : t.workers.length = s.workers.length
  workers : ∀ i v', t.workers[i]? = some v' → ∃ v, s.workers[i]? = some v ∧ v'.exited = v.exited ∧
    ∀ m ∈ v'.owed, m ∈ v.owed ∨ (i, m) ∈ new
  failed : t.failed = none → s.failed = none

theorem Effect.sends (effect : Effect s t new) : Sends s t new where
  posted := effect.posted
  length := effect.length
  workers := by
    intro i v' there
    obtain ⟨v, here, exited, -, owed⟩ := effect.workers i v' there
    exact ⟨v, here, exited, owed⟩
  failed := effect.failed

/-- The events that add no batch and no result of a chunk, end no worker and begin no teardown. -/
def Event.ordinary : Event T → Bool
  | .resolveBatch _ | .destroy | .result .. | .exit .. | .terminated .. => false
  | _ => true

theorem step_effect {e : Event T} (taken : s.step e = some t) (ordinary : e.ordinary = true) :
    ∃ new, Effect s t new := by
  cases e with
  | resolveBatch | destroy | result | exit | terminated => cases ordinary
  | openPool =>
    cases taken
    exact ⟨_, .openPool s⟩
  | pauseDispatch =>
    cases taken
    exact ⟨_, .maps s.waiters s.synthWaiters s.signWaiters s.recycleWaiters (Nat.le_refl _) true
      (fun _ => id) fun _ _ => id⟩
  | resumeDispatch =>
    cases taken
    exact Effect.resumeDispatch s
  | runSynthPass pass =>
    cases taken
    exact Effect.runSynthPass s pass
  | signNearDuplicates bodies =>
    cases taken
    exact Effect.signNearDuplicates s bodies
  | recycleWorkers =>
    cases taken
    exact Effect.recycleWorkers s
  | ready w =>
    obtain ⟨-, ⟨⟩⟩ := Option.ite_none_right_eq_some.mp taken
    exact ⟨_, (Effect.updateWorker s w (keeps_opening false)).trans
      (.updateWorker _ w (keeps_settleReady none))⟩
  | openFailed w message =>
    obtain ⟨-, ⟨⟩⟩ := Option.ite_none_right_eq_some.mp taken
    obtain ⟨new, failed⟩ := Effect.onError (s.updateWorker w fun v => { v with opening := false }) w
      none message
    exact ⟨_, (Effect.updateWorker s w (keeps_opening false)).trans failed⟩
  | synthResult w id result =>
    obtain ⟨m, -, rfl⟩ := Option.map_eq_some_iff.mp taken
    exact ⟨_, (Effect.answer s w _).trans (.onSynthResult _ w id result)⟩
  | nearDupSigned w id results =>
    obtain ⟨m, -, rfl⟩ := Option.map_eq_some_iff.mp taken
    exact ⟨_, (Effect.answer s w _).trans (.onNearDupSigned _ w id results)⟩
  | recycling w id =>
    obtain ⟨m, -, rfl⟩ := Option.map_eq_some_iff.mp taken
    exact ⟨_, .forget s _ _ _ _⟩
  | recycled w id =>
    obtain ⟨m, -, rfl⟩ := Option.map_eq_some_iff.mp taken
    exact ⟨_, (Effect.answer s w _).trans (.onRecycled _ id)⟩
  | error w kind id message =>
    obtain ⟨m, -, rfl⟩ := Option.map_eq_some_iff.mp taken
    obtain ⟨new, failed⟩ := Effect.onError (s.answer w (kind, id)) w (some id) message
    exact ⟨_, (Effect.answer s w _).trans failed⟩
  | uncaught w message =>
    obtain ⟨-, ⟨⟩⟩ := Option.ite_none_right_eq_some.mp taken
    exact ⟨_, .onUncaught s w message⟩
  | recycleTimeout id =>
    obtain ⟨-, ⟨⟩⟩ := Option.ite_none_right_eq_some.mp taken
    exact ⟨_, .onRecycleTimeout s id⟩

def enqueue (s : ResolverPool T) (refs : List T.Ref) : ResolverPool T :=
  let chunks := numbered s.nextId (slices (resolveChunkSize refs.length s.workers.length) refs.length refs)
  { s with
    nextId := s.nextId + chunks.length
    pendingChunks := s.pendingChunks ++ chunks
    batches := s.batches ++ [⟨refs, chunks⟩] }

theorem resolveBatch_eq (refs : List T.Ref) :
    s.resolveBatch refs = if s.failed.isSome then s else (s.enqueue refs).pumpDispatch := rfl

theorem step_sends {e : Event T} (taken : s.step e = some t) (stays : ∀ w code, e ≠ .exit w code) :
    ∃ new, Sends s t new := by
  cases ordinary : e.ordinary with
  | true =>
    obtain ⟨new, effect⟩ := step_effect taken ordinary
    exact ⟨new, effect.sends⟩
  | false =>
    cases e with
    | resolveBatch refs =>
      cases taken
      rw [resolveBatch_eq]
      split
      · exact ⟨_, (Effect.refl s).sends⟩
      · obtain ⟨new, pumped⟩ := Effect.pump (s.enqueue refs)
        exact ⟨new, pumped.posted, pumped.length, pumped.sends.workers, pumped.failed⟩
    | destroy =>
      cases taken
      exact ⟨[], (Effect.refl s).posted, rfl, (Effect.refl s).sends.workers, id⟩
    | result w id result =>
      obtain ⟨refs, -, rfl⟩ := step_result taken
      obtain ⟨u, new, handled, same⟩ :=
        Effect.onResult ((s.noteAnswer (id, refs) result).answer w (.chunk, id)) w id result
      have effect := (Effect.answer (s.noteAnswer (id, refs) result) w (.chunk, id)).trans handled
      refine ⟨[] ++ new, ?_, ?_, ?_, ?_⟩ <;> rcases same with same | same <;> rw [same]
      exacts [effect.posted, effect.posted, effect.length, effect.length, effect.sends.workers,
        effect.sends.workers, effect.failed, effect.failed]
    | exit w code => exact absurd rfl (stays w code)
    | terminated call w =>
      obtain ⟨-, ⟨⟩⟩ := Option.ite_none_right_eq_some.mp taken
      exact ⟨[], (Effect.refl s).posted, rfl, (Effect.refl s).sends.workers, id⟩
    | openPool | pauseDispatch | resumeDispatch | runSynthPass | signNearDuplicates | recycleWorkers
    | ready | openFailed | synthResult | nearDupSigned | recycling | recycled | error | uncaught
    | recycleTimeout => cases ordinary

end CodeGraph.Resolution.ResolverPool
