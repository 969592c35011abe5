import CodeGraph.Mcp.ProxyConnection

/-!
The proxy answers every request once, as long as it is not given a line of the kinds that it mistakes.

Every request that was read is, once, in one of four places: the replies, the buffered lines, the
in-flight map and the in-process calls. Each step moves requests from one place to another, so what is
kept is a sum over the places. The replies to `initialize` are suppressed by the id of the last one,
which is why the ids of those on their way to the daemon have to be that one.
-/
namespace CodeGraph.Mcp.Proxy

open InsertionMap

variable {deps : Deps} {s t u : Proxy} {l : Line}

/-! ### In-process calls -/

def Line.servable : Line → Bool
  | .message m => m.id.isNone || m.method.isSome
  | _ => true

def Line.scalar : Line → Bool
  | .message m => m.request.all Id.scalar
  | _ => true

def Serves (s t : Proxy) (ids : List Id) : Prop :=
  ∃ engine made served calls replies,
    t = { s with
      engine := engine, made := made, served := served
      localCalls := s.localCalls ++ calls, replies := s.replies ++ replies } ∧
    none ∉ replies ∧
    ∀ i, replies.count (some i) + (calls.map LocalCall.id).count i = ids.count i

private theorem Serves.refl (s : Proxy) : Serves s s [] :=
  ⟨s.engine, s.made, s.served, [], [], by simp, by simp, fun _ => rfl⟩

private theorem Serves.trans {first second : List Id} (left : Serves s t first)
    (right : Serves t u second) : Serves s u (first ++ second) := by
  obtain ⟨e, m, v, calls, replies, rfl, silent, counted⟩ := left
  obtain ⟨e', m', v', calls', replies', rfl, silent', counted'⟩ := right
  refine ⟨e', m', v', calls ++ calls', replies ++ replies', by simp, ?_, fun i => ?_⟩
  · exact fun h => (List.mem_append.mp h).elim silent silent'
  · have here := counted i
    have there := counted' i
    simp only [List.count_append, List.map_append]
    omega

private theorem writeClient_serves (s : Proxy) (i : Id) : Serves s (s.writeClient (some i)) [i] := by
  refine ⟨s.engine, s.made, s.served, [], [some i], by simp [writeClient], by simp, fun j => ?_⟩
  simp [List.count_cons]

private theorem callLocally_serves (deps : Deps) (s : Proxy) (i : Id) (m : Message) :
    Serves s ((s.ensureEngine deps).callLocally i m) [i] := by
  have engines : ∃ engine made, s.ensureEngine deps = { s with engine := engine, made := made } := by
    simp only [ensureEngine]
    split
    · exact ⟨s.engine, s.made, rfl⟩
    · exact ⟨_, _, rfl⟩
  obtain ⟨engine, made, same⟩ := engines
  rw [same]
  exact ⟨engine, made, s.served + 1, [⟨s.served, i, m.sliceableName, engine⟩], [], by
    simp [callLocally], by simp, fun j => by simp⟩

private theorem handleLocally_serves (deps : Deps) (s : Proxy) {l : Line} (servable : l.servable = true) :
    Serves s (s.handleLocally deps l) l.tracked.toList := by
  cases l with
  | unparsable text => exact .refl s
  | null => exact .refl s
  | message m =>
    simp only [handleLocally, serveLocally, Line.tracked]
    cases id : m.id with
    | none =>
      have untracked : m.tracked = none := by simp [Message.tracked, Message.request, id]
      simp only [untracked]
      exact .refl s
    | some i =>
      have called : m.method.isSome = true := by simpa [Line.servable, id] using servable
      have tracked (other : m.method ≠ some "initialize") : m.tracked.toList = [i] := by
        simp [Message.tracked, Message.isInitialize, Message.request, other, called, id]
      simp only
      split
      · next call =>
        rw [tracked (by simp [call])]
        split
        · exact callLocally_serves deps s i m
        · exact writeClient_serves s i
      · split
        · next ping =>
          rw [tracked (by simp [ping])]
          exact writeClient_serves s i
        · split
          · next other =>
            rw [tracked other]
            exact writeClient_serves s i
          · next same =>
            have untracked : m.tracked = none := by
              simp [Message.tracked, Message.isInitialize, Decidable.not_not.mp same]
            rw [untracked]
            exact .refl s

private theorem handleAll_serves (deps : Deps) {lines : List Line}
    (servable : ∀ l ∈ lines, l.servable = true) (s : Proxy) :
    Serves s (lines.foldl (handleLocally deps) s) (lines.filterMap Line.tracked) := by
  induction lines generalizing s with
  | nil => exact .refl s
  | cons l lines ih =>
    have first := handleLocally_serves deps s (servable l List.mem_cons_self)
    have rest := ih (fun l' listed => servable l' (List.mem_cons_of_mem _ listed))
      (s.handleLocally deps l)
    have all := first.trans rest
    cases tracked : l.tracked <;> simpa [tracked] using all

/-! ### Lines for the daemon -/

def Line.entry : Line → List (Id × Message)
  | .message m => m.tracked.toList.map fun i => (i, m)
  | _ => []

def Line.asked : Line → List Message
  | .message m => if m.request.isSome then [m] else []
  | _ => []

theorem Line.entry_ids (l : Line) : l.entry.map Prod.fst = l.tracked.toList := by
  cases l with
  | message m => cases h : m.tracked <;> simp [Line.entry, Line.tracked, h]
  | _ => rfl

private theorem writeDaemon_eq (s : Proxy) (l : Line) :
    s.writeDaemon l = { s with forwarded := s.forwarded ++ l.asked } := by
  cases l with
  | message m =>
    simp only [writeDaemon, Line.asked]
    split <;> simp
  | _ => simp [writeDaemon, Line.asked]

private theorem trackInflight_eq {s : Proxy} {l : Line}
    (fresh : ∀ i, l.tracked = some i → i ∉ s.inflight.map Prod.fst) :
    s.trackInflight l = { s with inflight := s.inflight ++ l.entry } := by
  cases l with
  | message m =>
    simp only [trackInflight]
    split
    · next i tracked =>
      have absent := fresh i tracked
      simp [Line.entry, tracked, assign_absent absent]
    · next untracked => simp [Line.entry, untracked]
  | _ => simp [trackInflight, Line.entry]

/-- All the buffered lines are written, none of them being in flight. -/
private theorem flush_eq {lines : List Line} {s : Proxy}
    (fresh : ∀ i, (s.inflight.map Prod.fst).count i + (lines.filterMap Line.tracked).count i ≤ 1) :
    lines.foldl (fun s l => (s.trackInflight l).writeDaemon l) s =
      { s with
        inflight := s.inflight ++ lines.flatMap Line.entry
        forwarded := s.forwarded ++ lines.flatMap Line.asked } := by
  induction lines generalizing s with
  | nil => simp
  | cons l lines ih =>
    have absent (i : Id) (tracked : l.tracked = some i) : i ∉ s.inflight.map Prod.fst := by
      intro listed
      have once := fresh i
      have there := List.count_pos_iff.mpr listed
      rw [List.filterMap_cons_some tracked, List.count_cons_self] at once
      omega
    rw [List.foldl_cons, trackInflight_eq absent, writeDaemon_eq, ih fun i => ?_]
    · simp [List.append_assoc]
    · have once := fresh i
      have ids := l.entry_ids
      cases tracked : l.tracked with
      | none =>
        rw [List.filterMap_cons_none tracked] at once
        simpa [ids, tracked] using once
      | some j =>
        rw [List.filterMap_cons_some tracked, List.count_cons] at once
        simp only [List.map_append, ids, tracked, Option.toList_some, List.count_append,
          List.count_singleton]
        omega

theorem Line.asked_tracked (l : Line) : l.asked.filterMap Message.tracked = l.tracked.toList := by
  cases l with
  | message m =>
    simp only [Line.asked, Line.tracked]
    split
    · cases h : m.tracked <;> simp [h]
    · next none_ =>
      have untracked : m.tracked = none := by
        simp only [Message.tracked]
        split
        · rfl
        · simpa using none_
      rw [untracked]
      rfl
  | _ => rfl

theorem Line.mem_asked {l : Line} {m : Message} (listed : m ∈ l.asked) : l = .message m := by
  cases l with
  | message n =>
    simp only [Line.asked] at listed
    split at listed
    · rw [List.mem_singleton.mp listed]
    · cases listed
  | _ => cases listed

private theorem entries_ids (lines : List Line) :
    (lines.flatMap Line.entry).map Prod.fst = lines.filterMap Line.tracked := by
  induction lines with
  | nil => rfl
  | cons l lines ih =>
    rw [List.flatMap_cons, List.map_append, l.entry_ids, ih]
    cases tracked : l.tracked <;> simp [tracked]

private theorem all_asked_tracked (lines : List Line) :
    (lines.flatMap Line.asked).filterMap Message.tracked = lines.filterMap Line.tracked := by
  induction lines with
  | nil => rfl
  | cons l lines ih =>
    rw [List.flatMap_cons, List.filterMap_append, l.asked_tracked, ih]
    cases tracked : l.tracked <;> simp [tracked]

theorem Line.entry_tracked {l : Line} {e : Id × Message} (listed : e ∈ l.entry) :
    e.2.tracked = some e.1 := by
  cases l with
  | message m =>
    obtain ⟨i, tracked, rfl⟩ := List.mem_map.mp listed
    exact Option.mem_toList.mp tracked
  | _ => cases listed

/-! ### The invariant -/

def placed (s : Proxy) (i : Id) : Nat :=
  (s.pending.filterMap Line.tracked).count i + (s.inflight.map Prod.fst).count i +
    (s.localCalls.map LocalCall.id).count i

/-- Every request that was read is in one place. In the middle of a step, some are in hand. -/
structure Balanced (s : Proxy) (hand : List Id) : Prop where
  counted : ∀ i, s.replies.count (some i) + s.placed i + hand.count i = s.received.count i
  silent : none ∉ s.replies
  distinct : s.received.Nodup
  asked : ∀ i, (s.forwarded.filterMap Message.tracked).count i = (s.inflight.map Prod.fst).count i
  scalar : ∀ m ∈ s.forwarded, ∀ i, m.request = some i → i.scalar = true
  kept : ∀ e ∈ s.inflight, e.2.tracked = some e.1
  initForwarded : ∀ m ∈ s.forwarded, m.isInitialize = true → m.id = s.clientInitId
  initPending : ∀ m, .message m ∈ s.pending → m.isInitialize = true → m.id = s.clientInitId
  initLine : ∀ m, s.clientInitLine = some m → m.isInitialize = true ∧ m.id = s.clientInitId
  init : ∀ i, s.clientInitId = some i → 0 < s.replies.count (some i)
  running : s.exited = false

private theorem Balanced.once {hand : List Id} (inv : Balanced s hand) (i : Id) :
    s.replies.count (some i) + s.placed i + hand.count i ≤ 1 := by
  rw [inv.counted]
  exact List.nodup_iff_count_le_one.mp inv.distinct i

private theorem Balanced.serve {hand : List Id} (inv : Balanced s hand) (serves : Serves s t hand) :
    Balanced t [] := by
  obtain ⟨engine, made, served, calls, replies, rfl, silent, counted⟩ := serves
  refine ⟨fun i => ?_, ?_, inv.distinct, inv.asked, inv.scalar, inv.kept, inv.initForwarded,
    inv.initPending, inv.initLine, fun i h => ?_, inv.running⟩
  · have here := counted i
    have before := inv.counted i
    simp only [placed, List.map_append, List.count_append, List.count_nil] at before ⊢
    omega
  · exact fun h => (List.mem_append.mp h).elim inv.silent silent
  · rw [List.count_append]
    exact Nat.lt_of_lt_of_le (inv.init i h) (Nat.le_add_right _ _)

private theorem Balanced.send (lines : List Line)
    (inv : Balanced s (lines.filterMap Line.tracked)) (scalar : ∀ l ∈ lines, l.scalar = true)
    (init : ∀ m, .message m ∈ lines → m.isInitialize = true → m.id = s.clientInitId) :
    Balanced { s with
      inflight := s.inflight ++ lines.flatMap Line.entry
      forwarded := s.forwarded ++ lines.flatMap Line.asked } [] := by
  refine ⟨fun i => ?_, inv.silent, inv.distinct, fun i => ?_, fun m listed i request => ?_,
    fun e listed => ?_, fun m listed initializes => ?_, inv.initPending, inv.initLine, inv.init,
    inv.running⟩
  · have before := inv.counted i
    simp only [placed, List.map_append, List.count_append, entries_ids, List.count_nil] at before ⊢
    omega
  · have before := inv.asked i
    simp only [List.filterMap_append, List.map_append, List.count_append, entries_ids,
      all_asked_tracked]
    omega
  · rcases List.mem_append.mp listed with old | new
    · exact inv.scalar m old i request
    · obtain ⟨l, member, asked⟩ := List.mem_flatMap.mp new
      have ok := scalar l member
      rw [Line.mem_asked asked, Line.scalar, request] at ok
      exact ok
  · rcases List.mem_append.mp listed with old | new
    · exact inv.kept e old
    · obtain ⟨l, -, entry⟩ := List.mem_flatMap.mp new
      exact Line.entry_tracked entry
  · rcases List.mem_append.mp listed with old | new
    · exact inv.initForwarded m old initializes
    · obtain ⟨l, member, asked⟩ := List.mem_flatMap.mp new
      exact init m (Line.mem_asked asked ▸ member) initializes

private theorem Balanced.answer {i : Id} {hand : List Id} (inv : Balanced s (i :: hand)) :
    Balanced (s.writeClient (some i)) hand := by
  refine ⟨fun j => ?_, ?_, inv.distinct, inv.asked, inv.scalar, inv.kept, inv.initForwarded,
    inv.initPending, inv.initLine, fun j h => ?_, inv.running⟩
  · have before := inv.counted j
    simp only [placed, writeClient, List.count_append, List.count_cons, List.count_nil, beq_iff_eq,
      Option.some.injEq] at before ⊢
    omega
  · simpa [writeClient] using inv.silent
  · simp only [writeClient, List.count_append]
    exact Nat.lt_of_lt_of_le (inv.init j h) (Nat.le_add_right _ _)

private theorem Balanced.route (inv : Balanced s l.tracked.toList)
    (init : ∀ m, l = .message m → m.isInitialize = true → m.id = s.clientInitId)
    (scalar : s.daemonStatus = .ready → l.scalar = true)
    (servable : s.daemonStatus = .failed → l.servable = true) :
    Balanced (s.routeToDaemon deps l) [] := by
  simp only [routeToDaemon]
  split
  · next ready _ =>
    have fresh (i : Id) (tracked : l.tracked = some i) : i ∉ s.inflight.map Prod.fst := by
      intro listed
      have once := inv.once i
      have there := List.count_pos_iff.mpr listed
      simp only [placed, tracked, Option.toList_some, List.count_singleton_self] at once
      omega
    have sent := Balanced.send (s := s) [l] ?_ (fun l' listed => ?_)
      (fun m listed => init m (List.mem_singleton.mp listed).symm)
    · rw [trackInflight_eq fresh, writeDaemon_eq]
      simpa using sent
    · cases tracked : l.tracked <;> simpa [tracked] using inv
    · rw [List.mem_singleton.mp listed]
      exact scalar ready
  · next failed => exact inv.serve (handleLocally_serves deps s (servable failed))
  · refine ⟨fun i => ?_, inv.silent, inv.distinct, inv.asked, inv.scalar, inv.kept,
      inv.initForwarded, fun m listed => ?_, inv.initLine, inv.init, inv.running⟩
    · have before := inv.counted i
      cases tracked : l.tracked <;>
        simp only [placed, List.filterMap_append, List.filterMap_cons, List.filterMap_nil, tracked,
          Option.toList_none, Option.toList_some, List.count_append, List.count_nil] at before ⊢ <;>
        omega
    · rcases mem_snoc.mp listed with old | new
      · exact inv.initPending m old
      · exact init m new.symm

private theorem Balanced.unbuffer (inv : Balanced s []) :
    Balanced { s with pending := [] } (s.pending.filterMap Line.tracked) := by
  refine ⟨fun i => ?_, inv.silent, inv.distinct, inv.asked, inv.scalar, inv.kept,
    inv.initForwarded, (fun _ listed => nomatch listed), inv.initLine, inv.init, inv.running⟩
  have before := inv.counted i
  simp only [placed, List.filterMap_nil, List.count_nil] at before ⊢
  omega

private theorem Balanced.same {hand : List Id} (inv : Balanced s hand) (status : DaemonStatus)
    (socket : Bool) (attempt : Attempt) (engine : Option Engine) (retiring : List Retirement)
    (timer : Bool) : Balanced { s with
      daemonStatus := status, daemonSocket := socket, attempt := attempt, engine := engine
      retiring := retiring, retryTimer := timer } hand :=
  ⟨inv.counted, inv.silent, inv.distinct, inv.asked, inv.scalar, inv.kept, inv.initForwarded,
    inv.initPending, inv.initLine, inv.init, inv.running⟩

private theorem Balanced.scheduleDaemonRetry {hand : List Id} (inv : Balanced s hand) :
    Balanced (s.scheduleDaemonRetry deps) hand := by
  simp only [Proxy.scheduleDaemonRetry]
  split
  · exact inv.same s.daemonStatus s.daemonSocket s.attempt s.engine s.retiring true
  · exact inv

/-- The client's `initialize` is written again. -/
private theorem Balanced.replay (inv : Balanced s [])
    (scalar : ∀ m, s.clientInitLine = some m → (Line.message m).scalar = true) (again : Bool) :
    Balanced (s.replay again) [] := by
  simp only [Proxy.replay]
  split
  · next _ m line =>
    obtain ⟨initializes, id⟩ := inv.initLine m line
    have untracked : (Line.message m).tracked = none := by
      simp [Line.tracked, Message.tracked, initializes]
    have entry : (Line.message m).entry = [] := by
      have none_ : m.tracked = none := untracked
      simp [Line.entry, none_]
    have sent := Balanced.send (s := s) [.message m] (by simpa [untracked] using inv)
      (fun l listed => List.mem_singleton.mp listed ▸ scalar m line)
      (fun n listed _ => by cases List.mem_singleton.mp listed; exact id)
    rw [writeDaemon_eq]
    simpa [entry] using sent
  · exact inv

private theorem Balanced.attachDaemon (inv : Balanced s [])
    (buffered : ∀ l ∈ s.pending, l.scalar = true)
    (scalar : ∀ m, s.clientInitLine = some m → (Line.message m).scalar = true) (again : Bool) :
    Balanced (s.attachDaemon again) [] := by
  have attached := inv.same .ready true s.attempt s.engine s.retiring s.retryTimer
  have replayed := attached.replay scalar again
  have same : ({ s with daemonSocket := true, daemonStatus := .ready }.replay again).pending =
      s.pending := by
    simp only [Proxy.replay]
    split
    · rw [writeDaemon_eq]
    · rfl
  -- The buffered lines are not in flight yet.
  have fresh (i : Id) :
      (({ s with daemonSocket := true, daemonStatus := .ready }.replay again).inflight.map
        Prod.fst).count i + (({ s with daemonSocket := true, daemonStatus := .ready }.replay
          again).pending.filterMap Line.tracked).count i ≤ 1 := by
    have once := replayed.once i
    simp only [placed] at once
    omega
  simp only [Proxy.attachDaemon]
  rw [flush_eq fresh]
  exact replayed.unbuffer.send _ (fun l listed => buffered l (same ▸ listed)) replayed.initPending

private theorem Balanced.serveBufferedLocally (inv : Balanced s [])
    (servable : ∀ l ∈ s.pending, l.servable = true) :
    Balanced (s.serveBufferedLocally deps) [] :=
  inv.unbuffer.serve (handleAll_serves deps servable _)

private theorem Balanced.onDaemonLost (inv : Balanced s []) : Balanced (s.onDaemonLost deps) [] := by
  have tracked : (s.inflight.map fun e => Line.message e.2).filterMap Line.tracked =
      s.inflight.map Prod.fst := by
    rw [List.filterMap_map, ← List.filterMap_eq_map]
    exact List.filterMap_congr fun e listed => inv.kept e listed
  have servable (l : Line) (listed : l ∈ s.inflight.map fun e => Line.message e.2) :
      l.servable = true := by
    obtain ⟨e, member, rfl⟩ := List.mem_map.mp listed
    have kept := inv.kept e member
    simp only [Message.tracked, Message.request] at kept
    simp only [Line.servable]
    cases called : e.2.method with
    | some method => simp
    | none => simp [called] at kept
  -- The requests in flight are in hand once the daemon is gone.
  have lost : Balanced { s with
      daemonStatus := .failed, daemonSocket := false, inflight := [], forwarded := [] }
      ((s.inflight.map fun e => Line.message e.2).filterMap Line.tracked) := by
    rw [tracked]
    refine ⟨fun i => ?_, inv.silent, inv.distinct, fun _ => rfl, (fun _ listed => nomatch listed),
      (fun _ listed => nomatch listed), (fun _ listed => nomatch listed), inv.initPending,
      inv.initLine, inv.init, inv.running⟩
    have before := inv.counted i
    simp only [placed, List.map_nil, List.count_nil] at before ⊢
    omega
  exact (lost.serve (handleAll_serves deps servable _)).scheduleDaemonRetry

private theorem Message.id_of_request {m : Message} {i : Id} (request : m.request = some i) :
    m.id = some i := by
  simp only [Message.request] at request
  split at request
  · exact request
  · cases request

/-- The daemon is written no `initialize` but the last one, and that has been answered. -/
private theorem Balanced.drops (inv : Balanced s []) {m : Message} {i : Id}
    (listed : m ∈ s.forwarded) (request : m.request = some i) :
    s.clientInitId.any i.same = m.isInitialize := by
  have scalar : i.scalar = true := inv.scalar m listed i request
  cases initializes : m.isInitialize with
  | true =>
    have last : s.clientInitId = some i :=
      (inv.initForwarded m listed initializes).symm.trans (Message.id_of_request request)
    simp [last, Id.same, scalar]
  | false =>
    have tracked : m.tracked = some i := by simp [Message.tracked, initializes, request]
    have sent : 0 < (s.forwarded.filterMap Message.tracked).count i :=
      List.count_pos_iff.mpr (List.mem_filterMap.mpr ⟨m, listed, tracked⟩)
    rw [inv.asked] at sent
    cases last : s.clientInitId with
    | none => rfl
    | some j =>
      have other : i ≠ j := by
        rintro rfl
        have once := inv.once i
        have answered := inv.init i last
        simp only [placed] at once
        omega
      simp [Id.same, scalar, other]

/-- The reply to a forwarded `initialize` is dropped. -/
private theorem Balanced.onReply_initialize (inv : Balanced s []) {m : Message} {i : Id}
    (listed : m ∈ s.forwarded) (request : m.request = some i) (initializes : m.isInitialize = true) :
    Balanced (s.onReply m i) [] := by
  have last : s.clientInitId = some i :=
    (inv.initForwarded m listed initializes).symm.trans (Message.id_of_request request)
  have scalar : i.scalar = true := inv.scalar m listed i request
  have absent : i ∉ s.inflight.map Prod.fst := by
    intro there
    have once := inv.once i
    have answered := inv.init i last
    have inflight := List.count_pos_iff.mpr there
    simp only [placed] at once
    omega
  have dropped : s.clientInitId.any i.same = true := (inv.drops listed request).trans initializes
  have untracked : m.tracked = none := by simp [Message.tracked, initializes]
  have perm := List.perm_cons_erase listed
  simp only [onReply, dropped, if_true, scalar, unassign_absent absent]
  refine ⟨inv.counted, inv.silent, inv.distinct, fun j => ?_, fun n old => ?_, inv.kept,
    fun n old => ?_, inv.initPending, inv.initLine, inv.init, inv.running⟩
  · have before := inv.asked j
    rwa [(perm.filterMap Message.tracked).count_eq, List.filterMap_cons_none untracked] at before
  · exact inv.scalar n (List.mem_of_mem_erase old)
  · exact inv.initForwarded n (List.mem_of_mem_erase old)

private theorem Balanced.onReply_request (inv : Balanced s []) {m : Message} {i : Id}
    (listed : m ∈ s.forwarded) (request : m.request = some i) (other : m.isInitialize = false) :
    Balanced (s.onReply m i) [] := by
  have scalar : i.scalar = true := inv.scalar m listed i request
  have tracked : m.tracked = some i := by simp [Message.tracked, other, request]
  have perm := List.perm_cons_erase listed
  have forwarded (j : Id) : (s.forwarded.filterMap Message.tracked).count j =
      ((s.forwarded.erase m).filterMap Message.tracked).count j + if i = j then 1 else 0 := by
    rw [(perm.filterMap Message.tracked).count_eq, List.filterMap_cons_some tracked, List.count_cons]
    simp
  have there : 0 < (s.inflight.map Prod.fst).count i := by
    have here := forwarded i
    rw [inv.asked, if_pos rfl] at here
    omega
  -- The map has the id once.
  have unassigned (j : Id) : (s.inflight.map Prod.fst).count j =
      ((unassign s.inflight i).map Prod.fst).count j + if i = j then 1 else 0 := by
    have keys : (unassign s.inflight i).map Prod.fst =
        (s.inflight.map Prod.fst).filter (· ≠ i) := by
      rw [unassign, List.filter_map]
      rfl
    rw [keys]
    by_cases same : i = j
    · subst same
      have once := inv.once i
      have gone : ((s.inflight.map Prod.fst).filter (· ≠ i)).count i = 0 := by
        rw [List.count_eq_zero]
        simp
      simp only [placed] at once
      rw [gone, if_pos rfl]
      omega
    · rw [List.count_filter (by simpa using Ne.symm same), if_neg same]
      rfl
  have passed : s.clientInitId.any i.same = false := (inv.drops listed request).trans other
  have taken : Balanced { s with
      forwarded := s.forwarded.erase m, inflight := unassign s.inflight i } [i] := by
    refine ⟨fun j => ?_, inv.silent, inv.distinct, fun j => ?_, fun n old => ?_, fun e old => ?_,
      fun n old => ?_, inv.initPending, inv.initLine, inv.init, inv.running⟩
    · have before := inv.counted j
      have here := unassigned j
      simp only [placed, List.count_nil, List.count_cons, beq_iff_eq] at before ⊢
      omega
    · have before := inv.asked j
      have here := unassigned j
      have sent := forwarded j
      simp only
      omega
    · exact inv.scalar n (List.mem_of_mem_erase old)
    · exact inv.kept e (mem_unassign.mp old).1
    · exact inv.initForwarded n (List.mem_of_mem_erase old)
  simp only [onReply, passed, scalar, if_true]
  exact taken.answer

private theorem Balanced.finishCall (inv : Balanced s []) {c : LocalCall} {outcome : Outcome}
    (listed : c ∈ s.localCalls)
    (fine : outcome = .result → deps.telemetry = true → c.sliceableName = true) :
    Balanced (s.finishCall deps c outcome) [] := by
  have perm := List.perm_cons_erase listed
  have taken : Balanced { s with localCalls := s.localCalls.erase c } [c.id] := by
    refine ⟨fun i => ?_, inv.silent, inv.distinct, inv.asked, inv.scalar, inv.kept,
      inv.initForwarded, inv.initPending, inv.initLine, inv.init, inv.running⟩
    have before := inv.counted i
    have calls := (perm.map LocalCall.id).count_eq i
    simp only [placed, List.map_cons, List.count_cons, List.count_nil, beq_iff_eq] at before calls ⊢
    omega
  simp only [Proxy.finishCall]
  split
  · next throws =>
    obtain ⟨result, telemetry, unsliceable⟩ := throws
    rw [fine result telemetry] at unsliceable
    cases unsliceable
  · exact taken.answer

/-! ### Client lines -/

def Message.routed (m : Message) : Bool :=
  !m.method.any answeredLists.contains && !(m.method = some "server/discover" && m.id.isSome)

def Line.initializes : Line → Bool
  | .message m => m.isInitialize
  | _ => false

/-- What the proxy does not mistake: no `null`, no request of a constant without an id, no second
`initialize` while the reply to the first one may come, no object or array as the id of a request for
the daemon, no client's reply that is served in-process, and no tool name that cannot be recorded. -/
def Understood (deps : Deps) (s : Proxy) : Event → Prop
  | .line (.unparsable _) => True
  | .line .null => False
  | .line (.message m) =>
    (m.id = none → m.isInitialize = false ∧ m.method.any answeredLists.contains = false) ∧
    (m.isInitialize = true →
      (∀ l ∈ s.pending, l.initializes = false) ∧ ∀ n ∈ s.forwarded, n.isInitialize = false) ∧
    (m.routed = true → s.daemonStatus = .ready → (Line.message m).scalar = true) ∧
    (s.daemonStatus = .failed → (Line.message m).servable = true)
  | .connected found =>
    if found then
      (∀ l ∈ s.pending, l.scalar = true) ∧
        ∀ m, s.clientInitLine = some m → (Line.message m).scalar = true
    else ∀ l ∈ s.pending, l.servable = true
  | .finished c outcome => outcome = .result → deps.telemetry = true → c.sliceableName = true
  | _ => True

private theorem Balanced.read (inv : Balanced s []) {ids : List Id} (once : ids.length ≤ 1)
    (fresh : ∀ i ∈ ids, i ∉ s.received) : Balanced { s with received := s.received ++ ids } ids := by
  refine ⟨fun i => ?_, inv.silent, ?_, inv.asked, inv.scalar, inv.kept, inv.initForwarded,
    inv.initPending, inv.initLine, inv.init, inv.running⟩
  · have before := inv.counted i
    simp only [placed, List.count_append, List.count_nil] at before ⊢
    omega
  · refine List.nodup_append.mpr ⟨inv.distinct, ?_, fun i old j new same => ?_⟩
    · match ids, once with
      | [], _ => exact List.nodup_nil
      | [_], _ => exact List.nodup_singleton _
    · exact fresh j new (same ▸ old)

private theorem onMessage_keeps {m : Message} (inv : Balanced s m.request.toList)
    (fine : Understood deps s (.line (.message m))) : Balanced (s.onMessage deps m) [] := by
  obtain ⟨identified, single, scalar, servable⟩ := fine
  simp only [onMessage]
  split
  · next initializes =>
    have called : m.method.isSome = true := by
      simp only [Message.isInitialize, decide_eq_true_eq] at initializes
      simp [initializes]
    have untracked : (Line.message m).tracked = none := by
      simp [Line.tracked, Message.tracked, initializes]
    cases id : m.id with
    | none =>
      have none_ := (identified id).1
      rw [initializes] at none_
      cases none_
    | some i =>
      have request : m.request = some i := by simp [Message.request, called, id]
      obtain ⟨buffered, forwarded⟩ := single initializes
      rw [request] at inv
      -- No other `initialize` is on its way, so that its id may become the one that is dropped.
      have noted : Balanced
          ({ s with clientInitId := some i, clientInitLine := some m }.writeClient (some i)) [] := by
        have answered := Balanced.answer inv
        refine ⟨answered.counted, answered.silent, answered.distinct, answered.asked,
          answered.scalar, answered.kept, fun n listed here => ?_, fun n listed here => ?_,
          fun n line => ?_, fun j last => ?_, answered.running⟩
        · have other := forwarded n listed
          rw [here] at other
          cases other
        · have other := buffered _ listed
          rw [Line.initializes, here] at other
          cases other
        · cases line
          exact ⟨initializes, id⟩
        · cases last
          simp [writeClient]
      rw [← Option.toList_none, ← untracked] at noted
      refine noted.route (fun n same _ => ?_) (fun ready => ?_) servable
      · cases same
        exact id
      · refine scalar ?_ ready
        have method : m.method = some "initialize" := by
          simpa [Message.isInitialize] using initializes
        simp [Message.routed, method, answeredLists]
  · next other =>
    have other : m.isInitialize = false := (Bool.not_eq_true _).mp other
    split
    · next listed =>
      have called : m.method.isSome = true := by
        cases method : m.method with
        | some name => rfl
        | none => simp [method] at listed
      cases id : m.id with
      | none =>
        have none_ := (identified id).2
        rw [listed] at none_
        cases none_
      | some i =>
        have request : m.request = some i := by simp [Message.request, called, id]
        rw [request] at inv
        exact Balanced.answer inv
    · next unlisted =>
      split
      · next discover =>
        obtain ⟨method, identified⟩ := discover
        obtain ⟨i, id⟩ := Option.isSome_iff_exists.mp identified
        have request : m.request = some i := by simp [Message.request, method, id]
        rw [request] at inv
        rw [id]
        exact Balanced.answer inv
      · next undiscovered =>
        have tracked : (Line.message m).tracked = m.request := by
          simp [Line.tracked, Message.tracked, other]
        rw [← tracked] at inv
        refine inv.route (fun n same initializes => ?_) (fun ready => ?_) servable
        · cases same
          rw [other] at initializes
          cases initializes
        · refine scalar ?_ ready
          simp only [Message.routed, Bool.and_eq_true, Bool.not_eq_true', Bool.and_eq_false_imp,
            decide_eq_true_eq]
          exact ⟨(Bool.not_eq_true _).mp unlisted, fun method =>
            (Bool.not_eq_true _).mp fun some_ => undiscovered ⟨method, some_⟩⟩

theorem step_keeps (inv : Balanced s []) {e : Event} (fine : Understood deps s e)
    (taken : s.step deps e = some t) : Balanced t [] := by
  obtain ⟨-, taken⟩ := Option.ite_none_left_eq_some.mp taken
  cases e with
  | line l =>
    cases l with
    | unparsable text =>
      cases taken
      exact Balanced.route (l := .unparsable text) inv (fun _ same => nomatch same) (fun _ => rfl)
        fun _ => rfl
    | null => exact fine.elim
    | message m =>
      obtain ⟨unused, same⟩ := Option.ite_none_right_eq_some.mp taken
      cases same
      refine onMessage_keeps (inv.read ?_ fun i new => ?_) fine
      · cases m.request <;> simp
      · simpa [Option.mem_toList.mp new] using unused
  | daemonReply m =>
    simp only at taken
    split at taken
    · next i request =>
      obtain ⟨⟨-, listed⟩, same⟩ := Option.ite_none_right_eq_some.mp taken
      cases same
      cases initializes : m.isInitialize with
      | true => exact inv.onReply_initialize listed request initializes
      | false => exact inv.onReply_request listed request initializes
    · cases taken
  | daemonLost =>
    obtain ⟨-, same⟩ := Option.ite_none_right_eq_some.mp taken
    cases same
    exact inv.onDaemonLost
  | connected found =>
    have idle := inv.same s.daemonStatus s.daemonSocket .none s.engine s.retiring s.retryTimer
    have unavailable (servable : ∀ l ∈ s.pending, l.servable = true) :
        Balanced (({ s with attempt := .none, daemonStatus := .failed }.serveBufferedLocally
          deps).scheduleDaemonRetry deps) [] := by
      have failed := inv.same .failed s.daemonSocket .none s.engine s.retiring s.retryTimer
      exact (failed.serveBufferedLocally servable).scheduleDaemonRetry
    simp only at taken
    cases attempt : s.attempt with
    | none =>
      rw [attempt] at taken
      cases taken
    | retiring r =>
      rw [attempt] at taken
      cases taken
    | initial =>
      rw [attempt] at taken
      cases found with
      | true =>
        cases taken
        exact idle.attachDaemon fine.1 fine.2 false
      | false =>
        cases taken
        exact unavailable fine
    | connecting handover =>
      rw [attempt] at taken
      cases found with
      | true =>
        have attached := idle.attachDaemon fine.1 fine.2 true
        cases taken
        split
        · exact attached
        · exact attached.same _ _ _ none _ _
      | false =>
        cases taken
        exact unavailable fine
  | retryTimer =>
    obtain ⟨-, same⟩ := Option.ite_none_right_eq_some.mp taken
    cases same
    simp only [retryDaemon]
    split
    · exact inv.same _ _ _ _ _ false
    · split
      · exact inv.same .connecting _ _ none _ false
      · exact inv.same _ _ _ _ _ false
  | handedOver =>
    simp only at taken
    split at taken
    · obtain ⟨-, same⟩ := Option.ite_none_right_eq_some.mp taken
      cases same
      exact inv.same _ _ (.connecting true) _ _ _
    · cases taken
  | stopped r =>
    obtain ⟨-, same⟩ := Option.ite_none_right_eq_some.mp taken
    cases same
    exact inv.same _ _ _ _ (s.retiring.erase r) _
  | finished c outcome =>
    obtain ⟨⟨listed, -⟩, same⟩ := Option.ite_none_right_eq_some.mp taken
    cases same
    exact inv.finishCall listed fine

private theorem start_balanced : Balanced start [] := by
  refine ⟨fun i => rfl, (fun h => nomatch h), List.nodup_nil, fun i => rfl, (fun _ h => nomatch h),
    (fun _ h => nomatch h), (fun _ h => nomatch h), (fun _ h => nomatch h), (fun _ h => nomatch h),
    (fun _ h => nomatch h), rfl⟩

structure Inv (s : Proxy) : Prop where
  shape : Shape s
  balanced : Balanced s []

theorem start_inv : Inv start := ⟨start_shape, start_balanced⟩

theorem step_inv (inv : Inv s) {e : Event} (fine : Understood deps s e)
    (taken : s.step deps e = some t) : Inv t :=
  ⟨step_shape inv.shape taken, step_keeps inv.balanced fine taken⟩

abbrev Reachable (deps : Deps) : Proxy → Prop :=
  Transitions.ReachableWhen (Understood deps) start (step deps)

structure RepliesContract (deps : Deps) (s : Proxy) : Prop where
  /-- A request was answered once, or is in one place and was not answered. -/
  once : ∀ i ∈ s.received, s.replies.count (some i) = 1 ∧ s.placed i = 0 ∨
    s.replies.count (some i) = 0 ∧ s.placed i = 1
  /-- Nothing else was answered. -/
  silent : none ∉ s.replies ∧ ∀ i, some i ∈ s.replies → i ∈ s.received
  /-- A daemon's reply to `initialize` is not passed on, and to any other request it is. -/
  passed : ∀ m t, s.step deps (.daemonReply m) = some t →
    t.replies = if m.isInitialize then s.replies else s.replies ++ [m.id]
  /-- What is buffered waits for an attempt to connect, whose end empties the buffer. -/
  buffered : s.pending ≠ [] → s.attempt ≠ .none
  emptied : ∀ found t, s.step deps (.connected found) = some t → t.pending = []
  attached : s.inflight ≠ [] → s.daemonSocket = true
  running : s.exited = false

private theorem onReply_replies (inv : Balanced s []) {m : Message} {i : Id}
    (listed : m ∈ s.forwarded) (request : m.request = some i) :
    (s.onReply m i).replies = if m.isInitialize then s.replies else s.replies ++ [some i] := by
  simp only [onReply, inv.drops listed request]
  split <;> rfl

private theorem connected_pending {found : Bool} {attempt : Attempt}
    (taken : s.connected deps found attempt = some t) : t.pending = [] := by
  have unavailable : (({ s with attempt := .none, daemonStatus := .failed }.serveBufferedLocally
      deps).scheduleDaemonRetry deps).pending = [] :=
    ((handleAll_keeps deps s.pending _).trans (scheduleDaemonRetry_keeps deps _)).pending
  cases attempt with
  | none => cases taken
  | retiring r => cases taken
  | initial => cases found <;> cases taken <;> first | rfl | exact unavailable
  | connecting handover =>
    cases found with
    | true =>
      cases taken
      split <;> rfl
    | false =>
      cases taken
      exact unavailable

/-- Every request is answered once in every run in which the proxy mistakes no line. -/
theorem proxy_replies_contract (reached : Reachable deps s) : RepliesContract deps s := by
  obtain ⟨shape, inv⟩ : Inv s := reached.invariant start_inv fun _ _ _ kept fine taken =>
    step_inv kept fine taken
  refine ⟨fun i read => ?_, ⟨inv.silent, fun i answered => ?_⟩, fun m t taken => ?_,
    fun buffered none_ => ?_, fun found t taken => ?_, fun some_ => ?_, inv.running⟩
  · have total := inv.counted i
    have once := List.count_eq_one_of_mem inv.distinct read
    rw [List.count_nil] at total
    omega
  · have total := inv.counted i
    have there := List.count_pos_iff.mpr answered
    exact List.count_pos_iff.mp (by omega)
  · obtain ⟨-, taken⟩ := Option.ite_none_left_eq_some.mp taken
    simp only at taken
    split at taken
    · next i request =>
      obtain ⟨⟨-, listed⟩, same⟩ := Option.ite_none_right_eq_some.mp taken
      cases same
      rw [Message.id_of_request request]
      exact onReply_replies inv listed request
    · cases taken
  · rcases shape.connecting.mp (shape.buffered buffered) with at_ | ⟨r, at_⟩ | at_
    all_goals
      rw [none_] at at_
      cases at_
  · obtain ⟨-, taken⟩ := Option.ite_none_left_eq_some.mp taken
    exact connected_pending taken
  · refine Decidable.byContradiction fun detached => some_ ?_
    exact (shape.orphans ((Bool.not_eq_true _).mp detached)).1

/-! ### Runs of one session -/

instance (deps : Deps) (s : Proxy) (e : Event) : Decidable (Understood deps s e) :=
  match e with
  | .line (.unparsable _) => .isTrue trivial
  | .line .null => .isFalse id
  | .line (.message m) => inferInstanceAs (Decidable (_ ∧ _ ∧ _ ∧ _))
  | .connected found =>
    match found with
    | true =>
      decidable_of_iff ((∀ l ∈ s.pending, l.scalar = true) ∧
          s.clientInitLine.all (fun m => (Line.message m).scalar) = true) (by
        cases h : s.clientInitLine <;> simp [Understood, h])
    | false => inferInstanceAs (Decidable (∀ l ∈ s.pending, l.servable = true))
  | .finished _ _ => inferInstanceAs (Decidable (_ → _))
  | .daemonReply _ => .isTrue trivial
  | .daemonLost => .isTrue trivial
  | .retryTimer => .isTrue trivial
  | .handedOver => .isTrue trivial
  | .stopped _ => .isTrue trivial

def session : Deps := { makeEngine := fun _ => some false, telemetry := true, retries := true }

def message (id : Option String) (method : Option String) : Message :=
  ⟨id.map fun text => ⟨text, true⟩, method, true, true⟩

/-- A tool call is buffered, written to the daemon, and served in-process when the daemon is lost. -/
def lostRun : List Event :=
  [.line (.message (message (some "1") (some "initialize"))),
    .line (.message (message (some "2") (some "tools/list"))),
    .line (.message (message (some "3") (some "tools/call"))),
    .connected true,
    .daemonReply (message (some "1") (some "initialize")),
    .daemonLost,
    .finished ⟨0, ⟨"3", true⟩, true, some ⟨0, false⟩⟩ .result]

theorem proxy_replies_contract_lost : ∃ s,
    Transitions.run (Transitions.guarded (Understood session) (step session)) start lostRun = some s ∧
      s.replies = [some ⟨"1", true⟩, some ⟨"2", true⟩, some ⟨"3", true⟩] ∧
      s.daemonStatus = .failed ∧ RepliesContract session s := by
  have seen : (Transitions.run (Transitions.guarded (Understood session) (step session)) start
      lostRun).map (fun s => (s.replies, s.daemonStatus)) =
        some ([some ⟨"1", true⟩, some ⟨"2", true⟩, some ⟨"3", true⟩], .failed) := by decide +kernel
  obtain ⟨s, done, view⟩ := Option.map_eq_some_iff.mp seen
  obtain ⟨replies, status⟩ : _ ∧ _ := by simpa only [Prod.mk.injEq] using view
  exact ⟨s, done, replies, status,
    proxy_replies_contract (Transitions.run_reachableWhen lostRun .start done)⟩

def replyServed : List Event := [.connected false, .line (.message (message (some "1") none))]

def listNotified : List Event := [.line (.message (message none (some "tools/list")))]

/-- The daemon's reply to the first `initialize` is passed on after a second one. -/
def initializedTwice : List Event :=
  [.connected true, .line (.message (message (some "1") (some "initialize"))),
    .line (.message (message (some "2") (some "initialize"))),
    .daemonReply (message (some "1") (some "initialize"))]

def namelessCall : List Event :=
  [.connected false, .line (.message ⟨some ⟨"1", true⟩, some "tools/call", true, false⟩),
    .finished ⟨0, ⟨"1", true⟩, false, some ⟨0, false⟩⟩ .result]

/-- A request with an array as its id stays in flight when it is answered, and is served again. -/
def arrayId : List Event :=
  [.connected true, .line (.message ⟨some ⟨"[]", false⟩, some "ping", true, true⟩),
    .daemonReply ⟨some ⟨"[]", false⟩, some "ping", true, true⟩, .daemonLost]

private theorem not_contract_silent (wrong : none ∈ s.replies) : ¬ RepliesContract deps s :=
  fun contract => contract.silent.1 wrong

private theorem not_contract_unread {i : Id} (answered : some i ∈ s.replies)
    (unread : i ∉ s.received) : ¬ RepliesContract deps s :=
  fun contract => unread (contract.silent.2 i answered)

private theorem not_contract_twice {i : Id} (twice : 2 ≤ s.replies.count (some i)) :
    ¬ RepliesContract deps s := by
  intro contract
  have answered : some i ∈ s.replies := List.count_pos_iff.mp (by omega)
  rcases contract.once i (contract.silent.2 i answered) with ⟨once, -⟩ | ⟨none_, -⟩ <;> omega

def Breaks (events : List Event) : Prop :=
  ∃ s, Transitions.run (step session) start events = some s ∧ ¬ RepliesContract session s

theorem proxy_replies_wrong : Breaks replyServed ∧ Breaks listNotified ∧ Breaks initializedTwice ∧
    Breaks namelessCall ∧ Breaks arrayId ∧ Breaks [.line .null] := by
  have view (events : List Event) (received : List Id) (replies : List (Option Id)) (exited : Bool)
      (seen : (Transitions.run (step session) start events).map
        (fun s => (s.received, s.replies, s.exited)) = some (received, replies, exited)) :
      ∃ s, Transitions.run (step session) start events = some s ∧ s.received = received ∧
        s.replies = replies ∧ s.exited = exited := by
    obtain ⟨s, done, same⟩ := Option.map_eq_some_iff.mp seen
    cases same
    exact ⟨s, done, rfl, rfl, rfl⟩
  refine ⟨?_, ?_, ?_, ?_, ?_, ?_⟩
  · obtain ⟨s, done, received, replies, -⟩ := view replyServed []
      [some ⟨"1", true⟩] false (by decide +kernel)
    exact ⟨s, done, not_contract_unread (i := ⟨"1", true⟩) (by simp [replies]) (by simp [received])⟩
  · obtain ⟨s, done, -, replies, -⟩ := view listNotified [] [none] false
      (by decide +kernel)
    exact ⟨s, done, not_contract_silent (by simp [replies])⟩
  · obtain ⟨s, done, -, replies, -⟩ := view initializedTwice [⟨"1", true⟩, ⟨"2", true⟩]
      [some ⟨"1", true⟩, some ⟨"2", true⟩, some ⟨"1", true⟩] false
      (by decide +kernel)
    exact ⟨s, done, not_contract_twice (i := ⟨"1", true⟩) (by rw [replies]; decide)⟩
  · obtain ⟨s, done, -, replies, -⟩ := view namelessCall [⟨"1", true⟩]
      [some ⟨"1", true⟩, some ⟨"1", true⟩] false (by decide +kernel)
    exact ⟨s, done, not_contract_twice (i := ⟨"1", true⟩) (by rw [replies]; decide)⟩
  · obtain ⟨s, done, -, replies, -⟩ := view arrayId [⟨"[]", false⟩]
      [some ⟨"[]", false⟩, some ⟨"[]", false⟩] false (by decide +kernel)
    exact ⟨s, done, not_contract_twice (i := ⟨"[]", false⟩) (by rw [replies]; decide)⟩
  · obtain ⟨s, done, -, -, exited⟩ := view [.line .null] [] [] true (by decide +kernel)
    refine ⟨s, done, fun contract => ?_⟩
    have running := contract.running
    rw [exited] at running
    cases running

end CodeGraph.Mcp.Proxy
