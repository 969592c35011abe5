import CodeGraph.Resolution.ResolverPoolEffect

/-!
What every step of the resolver pool keeps.

Each promise is in one place: its chunk is queued, a map of waiters has it, or it has settled. While
a handler has an answer in hand, the message that it answers is owed no more and its promise waits.
-/
namespace CodeGraph.Resolution.ResolverPool

open InsertionMap

variable {T : PoolTypes} {s t : ResolverPool T} {new : List (Nat × Message T)}

/-! ### Messages that are owed -/

def Owed (s : ResolverPool T) (m : Message T) : Prop := ∃ v ∈ s.workers, m ∈ v.owed

theorem Effect.owed (effect : Effect s t new) {m : Message T} (owed : Owed t m) :
    Owed s m ∨ ∃ i, (i, m) ∈ new := by
  obtain ⟨v', listed, member⟩ := owed
  obtain ⟨i, there⟩ := List.mem_iff_getElem?.mp listed
  obtain ⟨v, here, -, -, sources⟩ := effect.workers i v' there
  rcases sources m member with old | sent
  · exact .inl ⟨v, List.mem_of_getElem? here, old⟩
  · exact .inr ⟨i, sent⟩

private theorem mem_modify {α : Type} {xs : List α} {i : Nat} {f : α → α} {x : α}
    (member : x ∈ xs) : x ∈ xs.modify i f ∨ (xs[i]? = some x ∧ f x ∈ xs.modify i f) := by
  obtain ⟨k, there⟩ := List.mem_iff_getElem?.mp member
  by_cases same : i = k
  · subst same
    have after : (xs.modify i f)[i]? = some (f x) := by
      rw [List.getElem?_modify_eq, there]
      rfl
    exact .inr ⟨there, List.mem_of_getElem? after⟩
  · have after : (xs.modify i f)[k]? = some x := by rw [List.getElem?_modify_ne f xs same, there]
    exact .inl (List.mem_of_getElem? after)

theorem of_mem_modify {α : Type} {xs : List α} {i : Nat} {f : α → α} {x : α}
    (member : x ∈ xs.modify i f) : x ∈ xs ∨ ∃ y, xs[i]? = some y ∧ x = f y := by
  obtain ⟨k, there⟩ := List.mem_iff_getElem?.mp member
  simp only [List.getElem?_modify, Option.map_eq_map] at there
  obtain ⟨y, here, rfl⟩ := Option.map_eq_some_iff.mp there
  split
  · next same => exact .inr ⟨y, same ▸ here, rfl⟩
  · exact .inl (List.mem_of_getElem? here)

private theorem Owed.updateWorker {w : Nat} {f : PoolWorker T → PoolWorker T} {m : Message T}
    (keeps : ∀ v : PoolWorker T, m ∈ v.owed → m ∈ (f v).owed) (owed : Owed s m) :
    Owed (s.updateWorker w f) m := by
  obtain ⟨v, listed, member⟩ := owed
  rcases mem_modify (i := w) (f := f) listed with same | ⟨-, changed⟩
  · exact ⟨v, same, member⟩
  · exact ⟨f v, changed, keeps v member⟩

private theorem Owed.postMessage {w : Nat} {n m : Message T} (owed : Owed s m) :
    Owed (s.postMessage w n) m :=
  Owed.updateWorker (fun _ => List.mem_append_left _) owed

private theorem owed_postMessage {w : Nat} {v : PoolWorker T} (there : s.workers[w]? = some v)
    (m : Message T) : Owed (s.postMessage w m) m := by
  have after : (s.postMessage w m).workers[w]? = some { v with owed := v.owed ++ [m] } := by
    simp [postMessage, updateWorker, there]
  exact ⟨_, List.mem_of_getElem? after, List.mem_append_right _ (List.mem_singleton.mpr rfl)⟩

private theorem Owed.postCounted {w : Nat} {n m : Message T} (owed : Owed s m) :
    Owed (s.postCounted w n) m :=
  Owed.postMessage (owed.updateWorker fun _ member => member)

private theorem owed_postCounted {w : Nat} {v : PoolWorker T} (there : s.workers[w]? = some v)
    (m : Message T) : Owed (s.postCounted w m) m := by
  refine owed_postMessage (v := { v with busy := v.busy + 1 }) ?_ m
  simp [updateWorker, there]

private theorem Owed.answer {w : Nat} {tag : Kind × Nat} {m : Message T} (other : m.tag ≠ tag)
    (owed : Owed s m) : Owed (s.answer w tag) m := by
  refine Owed.updateWorker (fun v member => ?_) owed
  exact (List.mem_eraseP_of_neg (by simpa using other)).mpr member

theorem owed_of_updateWorker {w : Nat} {f : PoolWorker T → PoolWorker T} {m : Message T}
    {p : Prop} (back : ∀ v : PoolWorker T, m ∈ (f v).owed → m ∈ v.owed ∨ p)
    (owed : Owed (s.updateWorker w f) m) : Owed s m ∨ p := by
  obtain ⟨v', listed, member⟩ := owed
  obtain ⟨i, there⟩ := List.mem_iff_getElem?.mp listed
  simp only [updateWorker, List.getElem?_modify, Option.map_eq_map] at there
  obtain ⟨v, here, rfl⟩ := Option.map_eq_some_iff.mp there
  have old : v ∈ s.workers := List.mem_of_getElem? here
  split at member
  · exact (back v member).imp_left fun member => ⟨v, old, member⟩
  · exact .inl ⟨v, old, member⟩

private theorem owed_of_postMessage {w : Nat} {n m : Message T} (owed : Owed (s.postMessage w m) n) :
    Owed s n ∨ n = m :=
  owed_of_updateWorker
    (fun _ member => (List.mem_append.mp member).imp_right List.mem_singleton.mp) owed

private theorem owed_of_postCounted {w : Nat} {n m : Message T} (owed : Owed (s.postCounted w m) n) :
    Owed s n ∨ n = m := by
  rcases owed_of_postMessage owed with old | new
  · exact owed_of_updateWorker (f := fun v => { v with busy := v.busy + 1 })
      (fun _ member => .inl member) old
  · exact .inr new

def waiting (s : ResolverPool T) : List (Kind × Nat) :=
  s.waiters.map (Kind.chunk, ·) ++ s.synthWaiters.map (Kind.pass, ·) ++
    s.signWaiters.map (Kind.signing, ·) ++ s.recycleWaiters.map fun e => (Kind.recycle, e.1)

def settledIds (s : ResolverPool T) : List Nat := s.settled.map Prod.fst

def places (s : ResolverPool T) (id : Nat) : Nat :=
  (s.pendingChunks.map Prod.fst).count id + s.waiters.count id + s.synthWaiters.count id +
    s.signWaiters.count id + (s.recycleWaiters.map Prod.fst).count id + s.settledIds.count id

structure Placed (s : ResolverPool T) (hand : Option (Kind × Nat)) : Prop where
  once : ∀ id, s.places id = if id < s.nextId then 1 else 0
  owes : ∀ m, Owed s m → m.tag ∈ s.waiting ∨ m.tag.2 ∈ s.settledIds
  held : ∀ tag, hand = some tag → tag ∈ s.waiting ∨ tag.2 ∈ s.settledIds
  owed : ∀ tag ∈ s.waiting, hand = some tag ∨ ∃ m, Owed s m ∧ m.tag = tag
  failed : s.failed.isSome → s.pendingChunks = [] ∧ s.waiting = []

variable {hand : Option (Kind × Nat)}

theorem mem_waiting {kind : Kind} {id : Nat} :
    (kind, id) ∈ s.waiting ↔
      (kind = .chunk ∧ id ∈ s.waiters) ∨ (kind = .pass ∧ id ∈ s.synthWaiters) ∨
        (kind = .signing ∧ id ∈ s.signWaiters) ∨
          (kind = .recycle ∧ id ∈ s.recycleWaiters.map Prod.fst) := by
  cases kind <;> simp [waiting]

private theorem Placed.shift {now : Option (Kind × Nat)} (placed : Placed s hand)
    (owed : ∀ m, Owed t m ↔ Owed s m) (nextId : t.nextId = s.nextId)
    (places : ∀ id, t.places id = s.places id) (fewer : ∀ tag ∈ t.waiting, tag ∈ s.waiting)
    (kept : ∀ tag ∈ s.waiting, tag ∈ t.waiting ∨ tag.2 ∈ t.settledIds)
    (old : ∀ id ∈ s.settledIds, id ∈ t.settledIds)
    (failed : t.failed.isSome → t.pendingChunks = [] ∧ t.waiting = [])
    (before : ∀ tag, now = some tag → hand = some tag)
    (after : ∀ tag, hand = some tag → now = some tag ∨ tag ∉ t.waiting) : Placed t now where
  once := by
    intro id
    rw [places, nextId]
    exact placed.once id
  owes := by
    intro m owes
    rcases placed.owes m ((owed m).mp owes) with waits | settled
    · exact kept _ waits
    · exact .inr (old _ settled)
  held := by
    intro tag same
    rcases placed.held tag (before tag same) with waits | settled
    · exact kept _ waits
    · exact .inr (old _ settled)
  owed := by
    intro tag waits
    rcases placed.owed tag (fewer tag waits) with inHand | ⟨m, owes, same⟩
    · exact .inl ((after tag inHand).resolve_right fun gone => gone waits)
    · exact .inr ⟨m, (owed m).mpr owes, same⟩
  failed := failed

private theorem Placed.post {r : ResolverPool T} {w : Nat} {v : PoolWorker T} {m : Message T}
    (placed : Placed s hand) (there : s.workers[w]? = some v) (workers : r.workers = s.workers)
    (once : ∀ id, r.places id = if id < r.nextId then 1 else 0)
    (tags : ∀ tag, tag ∈ r.waiting ↔ tag ∈ s.waiting ∨ tag = m.tag)
    (settled : r.settledIds = s.settledIds) (failed : r.failed = none)
    (post : t = r.postCounted w m ∨ t = r.postMessage w m) : Placed t hand := by
  have same (n : Message T) : Owed r n ↔ Owed s n := by rw [Owed, Owed, workers]
  have there' : r.workers[w]? = some v := by rw [workers, there]
  have back (n : Message T) (owed : Owed t n) : Owed s n ∨ n = m := by
    rcases post with rfl | rfl
    · exact (owed_of_postCounted owed).imp_left (same n).mp
    · exact (owed_of_postMessage owed).imp_left (same n).mp
  have forth (n : Message T) (owed : Owed s n) : Owed t n := by
    rcases post with rfl | rfl
    · exact ((same n).mpr owed).postCounted
    · exact ((same n).mpr owed).postMessage
  have own : Owed t m := by
    rcases post with rfl | rfl
    · exact owed_postCounted there' m
    · exact owed_postMessage there' m
  have waiting_ : t.waiting = r.waiting := by rcases post with rfl | rfl <;> rfl
  have settled_ : t.settledIds = s.settledIds := by rcases post with rfl | rfl <;> exact settled
  refine ⟨?_, fun n owes => ?_, fun tag inHand => ?_, fun tag waits => ?_, fun some_ => ?_⟩
  · rcases post with rfl | rfl <;> exact once
  · rw [waiting_, settled_, tags]
    rcases back n owes with old | rfl
    · exact (placed.owes n old).imp_left .inl
    · exact .inl (.inr rfl)
  · rw [waiting_, settled_, tags]
    exact (placed.held tag inHand).imp_left .inl
  · rw [waiting_, tags] at waits
    rcases waits with old | rfl
    · refine (placed.owed tag old).imp_right ?_
      rintro ⟨n, owes, rfl⟩
      exact ⟨n, forth n owes, rfl⟩
    · exact .inr ⟨m, own, rfl⟩
  · have none_ : t.failed = none := by rcases post with rfl | rfl <;> exact failed
    rw [none_] at some_
    cases some_

/-! ### The pump and the calls -/

private theorem Placed.dispatchChunk {v : PoolWorker T} {w : Nat} {item : Nat × List T.Ref}
    {rest : List (Nat × List T.Ref)} (placed : Placed s hand)
    (queue : s.pendingChunks = item :: rest) (least : leastBusy s.workers = some (v, w)) :
    Placed (s.dispatchChunk w item rest) hand := by
  obtain ⟨there, -⟩ := leastBusy_spec least
  have running : s.failed = none := by
    by_contra some_
    have empty := (placed.failed (Option.isSome_iff_ne_none.mpr some_)).1
    rw [queue] at empty
    cases empty
  refine placed.post (r := { s with pendingChunks := rest, waiters := s.waiters ++ [item.1] })
    (m := .resolve item.1 item.2) there rfl (fun id => ?_) (fun tag => ?_) rfl running (.inl rfl)
  · have before := placed.once id
    simp only [places, queue, List.map_cons, List.count_cons, List.count_append, List.count_nil] at before ⊢
    rw [← before]
    show _ + (_ + _) + _ + _ + _ + s.settledIds.count id = _
    omega
  · obtain ⟨kind, id⟩ := tag
    simp only [mem_waiting, List.mem_append, List.mem_singleton, Message.tag, Prod.mk.injEq]
    tauto

theorem Placed.pump (placed : Placed s hand) : Placed s.pumpDispatch hand :=
  pumpDispatch_induct (P := fun t => Placed t hand)
    (fun _ _ _ _ _ queue least placed => placed.dispatchChunk queue least) s placed

theorem Placed.openPool (placed : Placed s none) : Placed s.openPool none := by
  unfold ResolverPool.openPool
  split
  · exact placed
  · exact placed.shift (fun m => by simp [Owed]) rfl (fun _ => rfl) (fun _ => id) (fun _ => .inl)
      (fun _ => id) placed.failed (fun _ => id) fun _ => .inl

theorem Placed.resumeDispatch (placed : Placed s none) : Placed s.resumeDispatch none :=
  Placed.pump (s := { s with paused := false }) ⟨placed.once, placed.owes, placed.held, placed.owed,
    placed.failed⟩

theorem Placed.resolveBatch (placed : Placed s none) (refs : List T.Ref) :
    Placed (s.resolveBatch refs) none := by
  unfold ResolverPool.resolveBatch
  split
  · exact placed
  · next running =>
    refine Placed.pump ⟨fun id => ?_, placed.owes, placed.held, placed.owed, fun some_ => absurd some_ running⟩
    have before := placed.once id
    simp only [places, List.map_append, List.count_append, numbered_fst, List.count_range_1'] at before ⊢
    have length : (numbered s.nextId (slices (resolveChunkSize refs.length s.workers.length)
        refs.length refs)).length =
          (slices (resolveChunkSize refs.length s.workers.length) refs.length refs).length := by
      simp [numbered]
    show _ + _ + _ + _ + _ + _ + s.settledIds.count id = _
    rw [length]
    split at before <;> split <;> split <;> omega

private theorem once_next {k n id : Nat} (once : k = if id < n then 1 else 0) :
    k + List.count id [n] = if id < n + 1 then 1 else 0 := by
  rw [List.count_singleton, once]
  by_cases same : n = id
  · simp [same]
  · have other : (n == id) = false := by simpa using same
    simp only [other, Bool.false_eq_true, if_false]
    split <;> split <;> omega

theorem Placed.runSynthPass (placed : Placed s none) (pass : String) :
    Placed (s.runSynthPass pass) none := by
  unfold ResolverPool.runSynthPass
  split
  · exact placed
  · next running =>
    split
    · exact placed
    · next v w least =>
      obtain ⟨there, -⟩ := leastBusy_spec least
      refine placed.post (m := .synth s.nextId pass)
        (r := { s with nextId := s.nextId + 1, synthWaiters := s.synthWaiters ++ [s.nextId] })
        there rfl (fun id => ?_) (fun tag => ?_) rfl (by simpa using running) (.inl rfl)
      · have before := placed.once id
        simp only [places, settledIds, List.count_append] at before ⊢
        rw [← once_next before]
        omega
      · obtain ⟨kind, id⟩ := tag
        simp only [mem_waiting, List.mem_append, List.mem_singleton, Message.tag, Prod.mk.injEq]
        tauto

private theorem Placed.signLane (placed : Placed s none) (running : s.failed = none)
    (bodies : List T.NearDupBody) : Placed (s.signLane bodies) none := by
  unfold ResolverPool.signLane
  split
  · exact placed
  · next v w least =>
    obtain ⟨there, -⟩ := leastBusy_spec least
    refine placed.post (m := .nearDupSign s.nextId bodies)
      (r := { s with nextId := s.nextId + 1, signWaiters := s.signWaiters ++ [s.nextId] })
      there rfl (fun id => ?_) (fun tag => ?_) rfl running (.inl rfl)
    · have before := placed.once id
      simp only [places, settledIds, List.count_append] at before ⊢
      rw [← once_next before]
      omega
    · obtain ⟨kind, id⟩ := tag
      simp only [mem_waiting, List.mem_append, List.mem_singleton, Message.tag, Prod.mk.injEq]
      tauto

private theorem Placed.recycleWorker {w : Nat} {v : PoolWorker T} (placed : Placed s none)
    (there : s.workers[w]? = some v) (running : s.failed = none) :
    Placed (s.recycleWorker w) none := by
  refine placed.post (m := .recycle s.nextId)
    (r := { s with
      nextId := s.nextId + 1
      recycleWaiters := s.recycleWaiters ++ [(s.nextId, false)] })
    there rfl (fun id => ?_) (fun tag => ?_) rfl running (.inr rfl)
  · have before := placed.once id
    simp only [places, settledIds, List.map_append, List.map_cons, List.map_nil,
      List.count_append] at before ⊢
    rw [← once_next before]
    omega
  · obtain ⟨kind, id⟩ := tag
    simp only [mem_waiting, List.map_append, List.map_cons, List.map_nil, List.mem_append,
      List.mem_singleton, Message.tag, Prod.mk.injEq]
    tauto

theorem Placed.signNearDuplicates (placed : Placed s none) (bodies : List T.NearDupBody) :
    Placed (s.signNearDuplicates bodies) none := by
  unfold ResolverPool.signNearDuplicates
  split
  · exact placed
  · next running =>
    replace running : s.failed = none := by simpa using running
    generalize s.signLanes bodies = lanes
    induction lanes generalizing s with
    | nil => exact placed
    | cons lane lanes ih =>
      refine ih (placed.signLane running lane) ?_
      unfold ResolverPool.signLane
      split <;> exact running

theorem Placed.recycleWorkers (placed : Placed s none) : Placed s.recycleWorkers none := by
  unfold ResolverPool.recycleWorkers
  split
  · exact placed
  · next running =>
    replace running : s.failed = none := by simpa using running
    have bounds : ∀ w ∈ List.range s.workers.length, w < s.workers.length := fun w =>
      List.mem_range.mp
    generalize List.range s.workers.length = ws at bounds ⊢
    induction ws generalizing s with
    | nil => exact placed
    | cons w ws ih =>
      have there := List.getElem?_eq_getElem (bounds w List.mem_cons_self)
      refine ih (placed.recycleWorker there running) running fun u member => ?_
      rw [(Effect.recycleWorker s w).length]
      exact bounds u (List.mem_cons_of_mem _ member)

/-! ### Promises that settle -/

private theorem Owed.congr (workers : t.workers = s.workers) (m : Message T) : Owed t m ↔ Owed s m := by
  rw [Owed, Owed, workers]

private theorem Placed.release (placed : Placed s hand)
    (gone : ∀ tag, hand = some tag → tag ∉ s.waiting) : Placed s none :=
  placed.shift (fun _ => Iff.rfl) rfl (fun _ => rfl) (fun _ => id) (fun _ => .inl) (fun _ => id)
    placed.failed (fun _ none_ => nomatch none_) fun tag inHand => .inr (gone tag inHand)

private theorem Placed.places_le (placed : Placed s hand) (id : Nat) : s.places id ≤ 1 := by
  rw [placed.once id]
  split <;> omega

private theorem Placed.apart {kind other : Kind} {id : Nat} (placed : Placed s hand)
    (here : (kind, id) ∈ s.waiting) (there : (other, id) ∈ s.waiting) : other = kind := by
  have once := placed.places_le id
  simp only [places] at once
  rw [mem_waiting] at here there
  rcases here with ⟨rfl, here⟩ | ⟨rfl, here⟩ | ⟨rfl, here⟩ | ⟨rfl, here⟩ <;>
  rcases there with ⟨rfl, there⟩ | ⟨rfl, there⟩ | ⟨rfl, there⟩ | ⟨rfl, there⟩ <;>
  first
  | rfl
  | have := List.count_pos_iff.mpr here
    have := List.count_pos_iff.mpr there
    omega

private theorem Placed.settles {c : Kind} {id : Nat} {o : Outcome T} (placed : Placed s hand)
    (waits : (c, id) ∈ s.waiting) (own : ∀ tag, hand = some tag → tag.2 = id)
    (settled : t.settled = s.settled ++ [(id, o)]) (places : ∀ k, t.places k = s.places k)
    (tags : ∀ other k,
      (other, k) ∈ t.waiting ↔ (other, k) ∈ s.waiting ∧ (other = c → k ≠ id))
    (workers : t.workers = s.workers) (nextId : t.nextId = s.nextId)
    (failed : t.failed = s.failed) : Placed t none := by
  have ids : t.settledIds = s.settledIds ++ [id] := by simp [settledIds, settled]
  have running : s.failed = none := by
    by_contra some_
    rw [(placed.failed (Option.isSome_iff_ne_none.mpr some_)).2] at waits
    cases waits
  refine placed.shift (Owed.congr workers) nextId places
    (fun tag there => ((tags tag.1 tag.2).mp there).1) (fun tag there => ?_) (fun k old => ?_)
    (fun some_ => ?_) (fun _ none_ => nomatch none_) fun tag inHand => .inr fun there => ?_
  · by_cases same : tag.2 = id
    · right
      rw [ids, same]
      exact List.mem_append_right _ (List.mem_singleton.mpr rfl)
    · exact .inl ((tags tag.1 tag.2).mpr ⟨there, fun _ => same⟩)
  · rw [ids]
    exact List.mem_append_left _ old
  · rw [failed, running] at some_
    cases some_
  · have same := own tag inHand
    obtain ⟨before, other⟩ := (tags tag.1 tag.2).mp there
    rw [same] at before
    exact other (placed.apart waits before) same

private theorem count_erase_settled {ids l : List Nat} {id : Nat} (listed : id ∈ ids) (k : Nat) :
    (ids.erase id).count k + (l ++ [id]).count k = ids.count k + l.count k := by
  have here := List.count_pos_iff.mpr listed
  rw [List.count_erase, List.count_append, List.count_singleton]
  by_cases same : id = k
  · subst same
    simp only [beq_self_eq_true, if_true]
    omega
  · have other : (id == k) = false := by simpa using same
    simp [other]

private theorem mem_erase_once {ids : List Nat} {id k : Nat} (once : ids.count id ≤ 1) :
    k ∈ ids.erase id ↔ k ∈ ids ∧ k ≠ id := by
  by_cases same : k = id
  · subst same
    have gone : k ∉ ids.erase k := by
      intro member
      have more := List.count_pos_iff.mpr member
      rw [List.count_erase_self] at more
      omega
    simp [gone]
  · simp [List.mem_erase_of_ne same, same]

private theorem Placed.settleChunk {id : Nat} (placed : Placed s hand) (waits : id ∈ s.waiters)
    (own : ∀ tag, hand = some tag → tag.2 = id) (o : Outcome T) :
    Placed ({ s with waiters := s.waiters.erase id }.settle [id] o) none := by
  have once := placed.places_le id
  simp only [places] at once
  refine placed.settles (c := .chunk) (by simpa [mem_waiting] using waits) own rfl (fun k => ?_)
    (fun other k => ?_) rfl rfl rfl
  · have moved := count_erase_settled (l := s.settledIds) waits k
    simp only [places, settle, settledIds, List.map_append, List.map_cons, List.map_nil] at moved ⊢
    omega
  · have erased : k ∈ s.waiters.erase id ↔ k ∈ s.waiters ∧ k ≠ id := mem_erase_once (by omega)
    cases other <;> simp [mem_waiting, settle, erased]

private theorem Placed.settlePass {id : Nat} (placed : Placed s hand) (waits : id ∈ s.synthWaiters)
    (own : ∀ tag, hand = some tag → tag.2 = id) (o : Outcome T) :
    Placed ({ s with synthWaiters := s.synthWaiters.erase id }.settle [id] o) none := by
  have once := placed.places_le id
  simp only [places] at once
  refine placed.settles (c := .pass) (by simpa [mem_waiting] using waits) own rfl (fun k => ?_)
    (fun other k => ?_) rfl rfl rfl
  · have moved := count_erase_settled (l := s.settledIds) waits k
    simp only [places, settle, settledIds, List.map_append, List.map_cons, List.map_nil] at moved ⊢
    omega
  · have erased : k ∈ s.synthWaiters.erase id ↔ k ∈ s.synthWaiters ∧ k ≠ id :=
      mem_erase_once (by omega)
    cases other <;> simp [mem_waiting, settle, erased]

private theorem Placed.settleSigning {id : Nat} (placed : Placed s hand) (waits : id ∈ s.signWaiters)
    (own : ∀ tag, hand = some tag → tag.2 = id) (o : Outcome T) :
    Placed ({ s with signWaiters := s.signWaiters.erase id }.settle [id] o) none := by
  have once := placed.places_le id
  simp only [places] at once
  refine placed.settles (c := .signing) (by simpa [mem_waiting] using waits) own rfl (fun k => ?_)
    (fun other k => ?_) rfl rfl rfl
  · have moved := count_erase_settled (l := s.settledIds) waits k
    simp only [places, settle, settledIds, List.map_append, List.map_cons, List.map_nil] at moved ⊢
    omega
  · have erased : k ∈ s.signWaiters.erase id ↔ k ∈ s.signWaiters ∧ k ≠ id :=
      mem_erase_once (by omega)
    cases other <;> simp [mem_waiting, settle, erased]

private theorem count_unassign (es : List (Nat × Bool)) (id k : Nat) :
    ((unassign es id).map Prod.fst).count k = if k = id then 0 else (es.map Prod.fst).count k := by
  induction es with
  | nil => simp [unassign]
  | cons e es ih =>
    simp only [unassign] at ih ⊢
    by_cases same : e.1 = id <;> grind

private theorem Placed.settleRecycle {id : Nat} (placed : Placed s hand)
    (waits : id ∈ s.recycleWaiters.map Prod.fst) (own : ∀ tag, hand = some tag → tag.2 = id)
    (o : Outcome T) :
    Placed ({ s with recycleWaiters := unassign s.recycleWaiters id }.settle [id] o) none := by
  have once := placed.places_le id
  have here := List.count_pos_iff.mpr waits
  simp only [places] at once
  refine placed.settles (c := .recycle) (by simpa [mem_waiting] using waits) own rfl (fun k => ?_)
    (fun other k => ?_) rfl rfl rfl
  · simp only [places, settle, settledIds, List.map_append, List.map_cons, List.map_nil,
      List.count_append, List.count_singleton, count_unassign] at once ⊢
    by_cases same : k = id
    · subst same
      simp only [if_true, beq_self_eq_true]
      omega
    · have other : (id == k) = false := by simpa using Ne.symm same
      simp [same, other]
  · have member : k ∈ (unassign s.recycleWaiters id).map Prod.fst ↔
        k ∈ s.recycleWaiters.map Prod.fst ∧ k ≠ id := by
      rw [← List.count_pos_iff, count_unassign, ← List.count_pos_iff]
      split <;> simp_all
    cases other <;> simp only [mem_waiting, settle, member] <;> simp

theorem Placed.fail (placed : Placed s hand) (err : Failure) : Placed (s.fail err) none := by
  have owed (m : Message T) : Owed (s.fail err) m ↔ Owed s m := by
    simp [Owed, ResolverPool.fail, settle, PoolWorker.settleReady]
  have ids : (s.fail err).settledIds = s.settledIds ++ s.waiters ++ s.pendingChunks.map Prod.fst ++
      s.synthWaiters ++ s.signWaiters ++ s.recycleWaiters.map Prod.fst := by
    simp [ResolverPool.fail, settle, settledIds, Function.comp_def]
  have idle : (s.fail err).waiting = [] := rfl
  refine placed.shift owed rfl (fun id => ?_) (fun tag waits => absurd (idle ▸ waits) List.not_mem_nil)
    (fun tag waits => .inr ?_) (fun id old => ?_) (fun _ => ⟨rfl, rfl⟩) (fun _ none_ => by cases none_)
    fun tag _ => .inr fun waits => absurd (idle ▸ waits) List.not_mem_nil
  · simp only [places, ids, List.count_append]
    simp only [ResolverPool.fail, settle, List.map_nil, List.count_nil]
    omega
  · rw [ids]
    have place := mem_waiting.mp (show (tag.1, tag.2) ∈ s.waiting from waits)
    simp only [List.mem_append]
    tauto
  · rw [ids]
    simp only [List.mem_append]
    tauto

theorem Placed.destroy (placed : Placed s none) : Placed s.destroy none := by
  have ids : s.destroy.settledIds = s.settledIds ++ s.recycleWaiters.map Prod.fst ++
      s.pendingChunks.map Prod.fst := by
    simp [ResolverPool.destroy, settle, settledIds, Function.comp_def]
  have waiting_ (kind : Kind) (id : Nat) :
      (kind, id) ∈ s.destroy.waiting ↔ (kind, id) ∈ s.waiting ∧ kind ≠ .recycle := by
    cases kind <;> simp [mem_waiting, ResolverPool.destroy, settle]
  refine placed.shift (fun _ => Iff.rfl) rfl (fun id => ?_)
    (fun tag waits => ((waiting_ tag.1 tag.2).mp waits).1) (fun tag waits => ?_) (fun id old => ?_)
    (fun some_ => ?_) (fun _ none_ => by cases none_) fun _ none_ => by cases none_
  · simp only [places, ids, List.count_append]
    simp only [ResolverPool.destroy, settle, List.map_nil, List.count_nil]
    omega
  · by_cases recycle : tag.1 = .recycle
    · right
      rw [ids]
      have place := mem_waiting.mp (show (tag.1, tag.2) ∈ s.waiting from waits)
      simp only [recycle, reduceCtorEq, false_and, true_and, false_or] at place
      simp only [List.mem_append]
      tauto
    · exact .inl ((waiting_ tag.1 tag.2).mpr ⟨waits, recycle⟩)
  · rw [ids]
    simp only [List.mem_append]
    tauto
  · refine ⟨rfl, List.eq_nil_iff_forall_not_mem.mpr fun tag waits => ?_⟩
    have before := ((waiting_ tag.1 tag.2).mp waits).1
    rw [(placed.failed some_).2] at before
    cases before

/-! ### Answers -/

theorem Placed.answer {w : Nat} {tag : Kind × Nat} {m : Message T} (placed : Placed s none)
    (found : s.owedTo w tag = some m) : Placed (s.answer w tag) (some tag) := by
  obtain ⟨v, there, -, member, same⟩ := owedTo_spec found
  have own := placed.owes m ⟨v, List.mem_of_getElem? there, member⟩
  rw [same] at own
  refine ⟨placed.once, fun n owes => placed.owes n ?_, fun other here => ?_, fun other waits => ?_,
    placed.failed⟩
  · have before := owed_of_updateWorker (p := False)
      (fun _ member => .inl (List.mem_of_mem_eraseP member)) owes
    exact before.resolve_right id
  · cases here
    exact own
  · by_cases here : other = tag
    · exact .inl (here ▸ rfl)
    · obtain ⟨n, owes, rfl⟩ := (placed.owed other waits).resolve_left nofun
      exact .inr ⟨n, owes.answer here, rfl⟩

private theorem Placed.updateWorker {f : PoolWorker T → PoolWorker T} (placed : Placed s hand)
    (w : Nat) (same : ∀ v, (f v).owed = v.owed) : Placed (s.updateWorker w f) hand := by
  have owed (m : Message T) : Owed (s.updateWorker w f) m ↔ Owed s m := by
    constructor
    · intro owes
      exact (owed_of_updateWorker (p := False) (fun v member => .inl (same v ▸ member))
        owes).resolve_right id
    · exact Owed.updateWorker fun v member => (same v).symm ▸ member
  exact placed.shift owed rfl (fun _ => rfl) (fun _ => id) (fun _ => .inl) (fun _ => id)
    placed.failed (fun _ => id) fun _ => .inl

private theorem Placed.countDown (placed : Placed s hand) (w : Nat) : Placed (s.countDown w) hand :=
  placed.updateWorker w fun _ => rfl

/-- The pump does not look at what has settled. -/
theorem pumpQueue_settle (queue : List (Nat × List T.Ref)) (s : ResolverPool T) (ids : List Nat)
    (o : Outcome T) : (s.settle ids o).pumpQueue queue = (s.pumpQueue queue).settle ids o := by
  induction queue generalizing s with
  | nil => rfl
  | cons item rest ih =>
    unfold pumpQueue
    rw [show (s.settle ids o).workers = s.workers from rfl]
    cases leastBusy s.workers with
    | none => rfl
    | some least =>
      obtain ⟨pw, w⟩ := least
      by_cases full : 4 ≤ pw.busy
      · simp only [full, if_true]
        rfl
      · simp only [full, if_false]
        exact ih ({ s with waiters := s.waiters ++ [item.1] }.postCounted w (.resolve item.1 item.2))

theorem pumpDispatch_settle (s : ResolverPool T) (ids : List Nat) (o : Outcome T) :
    (s.settle ids o).pumpDispatch = s.pumpDispatch.settle ids o := by
  unfold pumpDispatch
  show (if s.paused then _ else _) = _
  split
  · rfl
  · exact pumpQueue_settle s.pendingChunks s ids o

theorem Placed.onResult {w id : Nat} (placed : Placed s (some (.chunk, id))) (result : ChunkResult T) :
    Placed (s.onResult w id result) none := by
  have counted := placed.countDown w
  simp only [ResolverPool.onResult]
  split
  · next waits =>
    rw [← pumpDispatch_settle]
    exact (counted.settleChunk waits (fun tag same => by cases same; rfl) _).pump
  · next absent =>
    have same : (s.countDown w).waiters.erase id = (s.countDown w).waiters :=
      List.erase_of_not_mem absent
    rw [same]
    exact (counted.release (by simpa [mem_waiting] using absent)).pump

theorem Placed.onSynthResult {w id : Nat} (placed : Placed s (some (.pass, id)))
    (result : T.SynthPassResult) : Placed (s.onSynthResult w id result) none := by
  have counted := placed.countDown w
  simp only [ResolverPool.onSynthResult]
  split
  · next waits => exact counted.settlePass waits (fun tag same => by cases same; rfl) _
  · next absent =>
    exact counted.release (by simpa [mem_waiting] using absent)

theorem Placed.onNearDupSigned {w id : Nat} (placed : Placed s (some (.signing, id)))
    (results : List T.NearDupSignature) : Placed (s.onNearDupSigned w id results) none := by
  have counted := placed.countDown w
  simp only [ResolverPool.onNearDupSigned]
  split
  · next waits => exact counted.settleSigning waits (fun tag same => by cases same; rfl) _
  · next absent =>
    exact counted.release (by simpa [mem_waiting] using absent)

theorem Placed.onRecycled {id : Nat} (placed : Placed s (some (.recycle, id))) :
    Placed (s.onRecycled id) none := by
  unfold ResolverPool.onRecycled
  split
  · next waits => exact placed.settleRecycle waits (fun tag same => by cases same; rfl) _
  · next absent =>
    exact placed.release (by simpa [mem_waiting] using absent)

theorem Placed.onRecycling (placed : Placed s none) (id : Nat) : Placed (s.onRecycling id) none := by
  have ids : (s.onRecycling id).recycleWaiters.map Prod.fst = s.recycleWaiters.map Prod.fst := by
    rw [ResolverPool.onRecycling, List.map_map]
    refine List.map_congr_left fun e _ => ?_
    by_cases same : e.1 = id <;> simp [same]
  have waiting_ (tag : Kind × Nat) : tag ∈ (s.onRecycling id).waiting ↔ tag ∈ s.waiting := by
    obtain ⟨kind, k⟩ := tag
    rw [mem_waiting, mem_waiting, ids]
    rfl
  refine placed.shift (fun _ => Iff.rfl) rfl (fun k => ?_) (fun tag => (waiting_ tag).mp)
    (fun tag waits => .inl ((waiting_ tag).mpr waits)) (fun _ old => old) (fun some_ => ?_)
    (fun _ same => same) fun _ => .inl
  · rw [places, ids]
    rfl
  · obtain ⟨none_, idle⟩ := placed.failed some_
    refine ⟨none_, List.eq_nil_iff_forall_not_mem.mpr fun tag waits => ?_⟩
    have before := (waiting_ tag).mp waits
    rw [idle] at before
    cases before

theorem Placed.onError {w id : Nat} {kind : Kind} (placed : Placed s (some (kind, id)))
    (message : String) : Placed (s.onError w (some id) message) none := by
  have pumped := (placed.countDown w).pump
  simp only [ResolverPool.onError]
  have own : ∀ tag : Kind × Nat, some (kind, id) = some tag → tag.2 = id := by
    rintro tag ⟨⟩
    rfl
  split
  · next waits => exact pumped.settleChunk waits own _
  · split
    · next waits => exact pumped.settlePass waits own _
    · split
      · next waits => exact pumped.settleSigning waits own _
      · exact pumped.fail _

theorem Placed.onRecycleTimeout {id : Nat} (placed : Placed s none)
    (armed : (id, true) ∈ s.recycleWaiters) : Placed (s.onRecycleTimeout id) none := by
  have waits : id ∈ s.recycleWaiters.map Prod.fst := List.mem_map.mpr ⟨_, armed, rfl⟩
  -- the promise may as well settle before the others
  have early := (placed.settleRecycle waits (fun _ none_ => nomatch none_)
    (.rejected .recycleTimedOut)).fail .recycleTimedOut
  refine early.shift (fun _ => Iff.rfl) rfl (fun k => ?_) (fun _ waits => waits) (fun _ => .inl)
    (fun k old => ?_) (fun _ => ⟨rfl, rfl⟩) (fun _ same => same) fun _ => .inl
  · simp only [places, settledIds, ResolverPool.onRecycleTimeout, ResolverPool.fail, settle,
      List.map_append, List.count_append]
    omega
  · simp only [settledIds, ResolverPool.onRecycleTimeout, ResolverPool.fail, settle,
      List.map_append, List.mem_append] at old ⊢
    tauto

theorem step_placed {e : Event T} (placed : Placed s none) (taken : s.step e = some t) :
    Placed t none := by
  cases e with
  | openPool =>
    cases taken
    exact placed.openPool
  | pauseDispatch =>
    cases taken
    exact ⟨placed.once, placed.owes, placed.held, placed.owed, placed.failed⟩
  | resumeDispatch =>
    cases taken
    exact placed.resumeDispatch
  | resolveBatch refs =>
    cases taken
    exact placed.resolveBatch refs
  | runSynthPass pass =>
    cases taken
    exact placed.runSynthPass pass
  | signNearDuplicates bodies =>
    cases taken
    exact placed.signNearDuplicates bodies
  | recycleWorkers =>
    cases taken
    exact placed.recycleWorkers
  | destroy =>
    cases taken
    exact placed.destroy
  | ready w =>
    obtain ⟨-, ⟨⟩⟩ := Option.ite_none_right_eq_some.mp taken
    exact (placed.updateWorker (f := fun v => { v with opening := false }) w fun _ => rfl).updateWorker
      (f := (·.settleReady none)) w fun _ => rfl
  | openFailed w message =>
    obtain ⟨-, ⟨⟩⟩ := Option.ite_none_right_eq_some.mp taken
    exact ((placed.updateWorker (f := fun v => { v with opening := false }) w fun _ => rfl).countDown
      w).pump.fail _
  | result w id result =>
    obtain ⟨refs, found, rfl⟩ := step_result taken
    have noted : Placed (s.noteAnswer (id, refs) result) none :=
      ⟨placed.once, placed.owes, placed.held, placed.owed, placed.failed⟩
    exact (noted.answer found).onResult result
  | synthResult w id result =>
    obtain ⟨m, found, rfl⟩ := Option.map_eq_some_iff.mp taken
    exact (placed.answer found).onSynthResult result
  | nearDupSigned w id results =>
    obtain ⟨m, found, rfl⟩ := Option.map_eq_some_iff.mp taken
    exact (placed.answer found).onNearDupSigned results
  | recycling w id =>
    obtain ⟨m, -, rfl⟩ := Option.map_eq_some_iff.mp taken
    exact placed.onRecycling id
  | recycled w id =>
    obtain ⟨m, found, rfl⟩ := Option.map_eq_some_iff.mp taken
    exact (placed.answer found).onRecycled
  | error w kind id message =>
    obtain ⟨m, found, rfl⟩ := Option.map_eq_some_iff.mp taken
    exact (placed.answer found).onError message
  | uncaught w message =>
    obtain ⟨-, ⟨⟩⟩ := Option.ite_none_right_eq_some.mp taken
    exact (placed.fail _).updateWorker w fun _ => rfl
  | exit w code =>
    obtain ⟨-, ⟨⟩⟩ := Option.ite_none_right_eq_some.mp taken
    have failed : Placed (if code ≠ 0 then s.fail (.exitCode code) else s) none := by
      split
      · exact placed.fail _
      · exact placed
    simp only [onExit]
    generalize (if code ≠ 0 then s.fail (.exitCode code) else s) = u at failed
    have gone := failed.updateWorker (f := (·.exit u.failed)) w fun _ => rfl
    exact ⟨gone.once, gone.owes, gone.held, gone.owed, gone.failed⟩
  | recycleTimeout id =>
    obtain ⟨armed, ⟨⟩⟩ := Option.ite_none_right_eq_some.mp taken
    exact placed.onRecycleTimeout armed
  | terminated call w =>
    obtain ⟨-, ⟨⟩⟩ := Option.ite_none_right_eq_some.mp taken
    exact ⟨placed.once, placed.owes, placed.held, placed.owed, placed.failed⟩

theorem construct_placed (T : PoolTypes) (size : Nat) : Placed (construct T size) none where
  once := by simp [places, construct, settledIds]
  owes := by
    rintro m ⟨v, listed, member⟩
    rw [List.eq_of_mem_replicate listed] at member
    cases member
  held := nofun
  owed := fun tag waits => nomatch (show tag ∈ [] from waits)
  failed := nofun

end CodeGraph.Resolution.ResolverPool
