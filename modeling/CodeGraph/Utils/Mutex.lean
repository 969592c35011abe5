import CodeGraph.Foundation.Transitions

/-!
`Mutex`, resumption by resumption.

A call of `withLock` runs until it awaits, and goes on when the runtime resumes it; which of the
pending calls that is, and when a body ends, is left open.
-/
namespace CodeGraph.Utils.Mutex

inductive Outcome where
  | resolved | thrown
  deriving DecidableEq, Repr

inductive Control where
  /-- In `acquire`, on a promise whose `resolve` is in the queue. -/
  | waiting
  /-- That promise is resolved; the loop goes on with its next test. -/
  | woken
  /-- `acquire` has returned, the body has not started. -/
  | acquired
  | running
  /-- The promise of the body has settled, the `finally` has not run. -/
  | ended (o : Outcome)
  | done (o : Outcome)
  deriving DecidableEq, Repr

structure Call where
  control : Control
  runs : Nat
  deriving DecidableEq, Repr

structure State where
  locked : Bool := false
  waitQueue : List Nat := []
  calls : List Call := []
  deriving DecidableEq, Repr

inductive Event where
  | withLock
  | resume (i : Nat)
  /-- The promise that the body returned settles. -/
  | settle (i : Nat) (o : Outcome)
  /-- The body throws before it returns a promise. -/
  | throw (i : Nat)
  deriving DecidableEq, Repr

namespace State

def put (s : State) (i : Nat) (call : Call) : State := { s with calls := s.calls.set i call }

/-- `acquire` from a test of its loop to the next `await`, or to its end. -/
def acquire (s : State) (i runs : Nat) : State :=
  if s.locked then { s.put i ⟨.waiting, runs⟩ with waitQueue := s.waitQueue ++ [i] }
  else { s.put i ⟨.acquired, runs⟩ with locked := true }

/-- The function that `acquire` returns. -/
def release (s : State) : State :=
  match s.waitQueue with
  | [] => { s with locked := false }
  | next :: rest =>
    { s with
      locked := false
      waitQueue := rest
      calls := s.calls.modify next fun call => { call with control := .woken } }

def step (s : State) : Event → Option State
  | .withLock => some ({ s with calls := s.calls ++ [(⟨.woken, 0⟩ : Call)] }.acquire s.calls.length 0)
  | .resume i =>
    match s.calls[i]? with
    | some ⟨.woken, runs⟩ => some (s.acquire i runs)
    | some ⟨.acquired, runs⟩ => some (s.put i ⟨.running, runs + 1⟩)
    | some ⟨.ended o, runs⟩ => some (s.put i ⟨.done o, runs⟩).release
    | _ => none
  | .settle i o =>
    match s.calls[i]? with
    | some ⟨.running, runs⟩ => some (s.put i ⟨.ended o, runs⟩)
    | _ => none
  | .throw i =>
    match s.calls[i]? with
    | some ⟨.running, runs⟩ => some (s.put i ⟨.done .thrown, runs⟩).release
    | _ => none

end State

namespace Control

def holds : Control → Bool
  | acquired | running | ended _ => true
  | _ => false

def hasStarted : Control → Bool
  | running | ended _ | done _ => true
  | _ => false

def work : Control → Nat
  | waiting => 4 | woken => 5 | acquired => 4 | running => 3 | ended _ => 2 | done _ => 0

end Control

inductive Move (s : State) : State → Prop
  | wait {i runs : Nat} : s.calls[i]? = some ⟨.woken, runs⟩ → s.locked = true →
      Move s { s.put i ⟨.waiting, runs⟩ with waitQueue := s.waitQueue ++ [i] }
  | take {i runs : Nat} : s.calls[i]? = some ⟨.woken, runs⟩ → s.locked = false →
      Move s { s.put i ⟨.acquired, runs⟩ with locked := true }
  | start {i runs : Nat} : s.calls[i]? = some ⟨.acquired, runs⟩ → Move s (s.put i ⟨.running, runs + 1⟩)
  | settle {i runs : Nat} (o : Outcome) : s.calls[i]? = some ⟨.running, runs⟩ →
      Move s (s.put i ⟨.ended o, runs⟩)
  | release {i runs : Nat} {c : Control} {o : Outcome} : s.calls[i]? = some ⟨c, runs⟩ →
      c = .running ∨ c = .ended o → Move s (s.put i ⟨.done o, runs⟩).release

variable {s t : State} {e : Event} {i j : Nat} {call new : Call} {calls : List Call} {queue rest : List Nat}

/-- The state with a call more, which has not looked at the lock. -/
def called (s : State) : State := { s with calls := s.calls ++ [⟨.woken, 0⟩] }

theorem acquire_move {runs : Nat} (at_ : s.calls[i]? = some ⟨.woken, runs⟩) :
    Move s (s.acquire i runs) := by
  unfold State.acquire
  split
  · next locked => exact .wait at_ locked
  · next free => exact .take at_ (Bool.eq_false_iff.mpr free)

theorem step_move (taken : s.step e = some t) :
    e = .withLock ∧ Move (called s) t ∨ e ≠ .withLock ∧ Move s t := by
  cases e with
  | withLock =>
    cases taken
    refine .inl ⟨rfl, acquire_move ?_⟩
    exact List.getElem?_concat_length
  | resume i =>
    refine .inr ⟨nofun, ?_⟩
    simp only [State.step] at taken
    split at taken
    · next runs at_ => exact Option.some.inj taken ▸ acquire_move at_
    · next runs at_ => exact Option.some.inj taken ▸ .start at_
    · next o runs at_ => exact Option.some.inj taken ▸ .release at_ (.inr rfl)
    · cases taken
  | settle i o =>
    refine .inr ⟨nofun, ?_⟩
    simp only [State.step] at taken
    split at taken
    · next runs at_ => exact Option.some.inj taken ▸ .settle o at_
    · cases taken
  | throw i =>
    refine .inr ⟨nofun, ?_⟩
    simp only [State.step] at taken
    split at taken
    · next runs at_ => exact Option.some.inj taken ▸ .release at_ (.inl rfl)
    · cases taken

def total (f : Control → Nat) (calls : List Call) : Nat := (calls.map fun call => f call.control).sum

theorem total_set (f : Control → Nat) (at_ : calls[i]? = some call) (new : Call) :
    total f (calls.set i new) + f call.control = total f calls + f new.control := by
  induction calls generalizing i with
  | nil => cases at_
  | cons head calls ih =>
    cases i with
    | zero =>
      cases at_
      simp only [List.set_cons_zero, total, List.map_cons, List.sum_cons]
      omega
    | succ i =>
      have rest := ih at_
      simp only [List.set_cons_succ, total, List.map_cons, List.sum_cons] at rest ⊢
      omega

theorem le_total (f : Control → Nat) (at_ : calls[i]? = some call) : f call.control ≤ total f calls := by
  induction calls generalizing i with
  | nil => cases at_
  | cons head calls ih =>
    simp only [total, List.map_cons, List.sum_cons] at ih ⊢
    cases i with
    | zero =>
      cases at_
      exact Nat.le_add_right _ _
    | succ i => exact Nat.le_trans (ih at_) (Nat.le_add_left _ _)

structure Queued (calls : List Call) (queue : List Nat) : Prop where
  mem : ∀ i, i ∈ queue ↔ ∃ runs, calls[i]? = some ⟨.waiting, runs⟩
  nodup : queue.Nodup

theorem set_get (at_ : calls[i]? = some call) (new : Call) (j : Nat) :
    (calls.set i new)[j]? = if i = j then some new else calls[j]? := by
  have short := (List.getElem?_eq_some_iff.mp at_).1
  rw [List.getElem?_set, if_pos short]

theorem Queued.absent (queued : Queued calls queue) (at_ : calls[i]? = some call)
    (other : call.control ≠ .waiting) : i ∉ queue := by
  intro listed
  obtain ⟨runs, waits⟩ := (queued.mem i).mp listed
  cases at_.symm.trans waits
  exact other rfl

theorem Queued.set (queued : Queued calls queue) (at_ : calls[i]? = some call) (new : Call)
    (other : call.control ≠ .waiting) (other' : new.control ≠ .waiting) :
    Queued (calls.set i new) queue := by
  refine ⟨fun j => ?_, queued.nodup⟩
  rw [set_get at_]
  split
  · next same =>
    refine iff_of_false (same ▸ queued.absent at_ other) ?_
    rintro ⟨runs, is⟩
    exact other' (by rw [Option.some.inj is])
  · exact queued.mem j

theorem Queued.wait (queued : Queued calls queue) {runs : Nat} (at_ : calls[i]? = some call)
    (other : call.control ≠ .waiting) : Queued (calls.set i ⟨.waiting, runs⟩) (queue ++ [i]) := by
  have absent := queued.absent at_ other
  constructor
  · intro j
    rw [set_get at_, mem_snoc]
    split
    · next same => exact iff_of_true (.inr same.symm) ⟨runs, rfl⟩
    · next differs => exact (or_iff_left (Ne.symm differs)).trans (queued.mem j)
  · exact nodup_snoc queued.nodup absent

theorem Queued.wake (queued : Queued calls (i :: rest)) : ∃ runs, calls[i]? = some ⟨.waiting, runs⟩ ∧
    calls.modify i (fun call => { call with control := .woken }) = calls.set i ⟨.woken, runs⟩ ∧
      Queued (calls.set i ⟨.woken, runs⟩) rest := by
  obtain ⟨runs, at_⟩ := (queued.mem i).mp List.mem_cons_self
  obtain ⟨once, nodup⟩ := List.nodup_cons.mp queued.nodup
  refine ⟨runs, at_, ?_, fun j => ?_, nodup⟩
  · rw [List.modify_eq_set_getElem?, at_]
    rfl
  · rw [set_get at_]
    split
    · next same =>
      refine iff_of_false (same ▸ once) ?_
      rintro ⟨n, is⟩
      cases is
    · next differs =>
      rw [← queued.mem j, List.mem_cons]
      exact (or_iff_right (Ne.symm differs)).symm

structure Inv (s : State) : Prop where
  /-- One call has the lock, or none. -/
  holders : total (fun c => c.holds.toNat) s.calls = s.locked.toNat
  queued : Queued s.calls s.waitQueue
  /-- While the lock is free, a call that waits is not alone. -/
  awake : s.locked = false → s.waitQueue ≠ [] → ∃ i runs : Nat, s.calls[i]? = some ⟨.woken, runs⟩
  once : ∀ call ∈ s.calls, call.runs = call.control.hasStarted.toNat

theorem Inv.locked (inv : Inv s) (at_ : s.calls[i]? = some call) (holds : call.control.holds = true) :
    s.locked = true := by
  have le := le_total (fun c => c.holds.toNat) at_
  rw [inv.holders, holds] at le
  exact Bool.toNat_eq_one.mp (Nat.le_antisymm (Bool.toNat_le _) le)

theorem once_set (i : Nat) (new : Call) (once : ∀ call ∈ calls, call.runs = call.control.hasStarted.toNat)
    (fits : new.runs = new.control.hasStarted.toNat) :
    ∀ call ∈ calls.set i new, call.runs = call.control.hasStarted.toNat := by
  intro call listed
  rcases List.mem_or_eq_of_mem_set listed with old | rfl
  · exact once call old
  · exact fits

theorem exists_holds (one : total (fun c => c.holds.toNat) calls = 1) :
    ∃ call ∈ calls, call.control.holds = true := by
  obtain ⟨n, listed, pos⟩ :=
    List.sum_pos_iff_exists_pos_nat.mp (Nat.lt_of_lt_of_eq Nat.zero_lt_one one.symm)
  obtain ⟨call, there, rfl⟩ := List.mem_map.mp listed
  refine ⟨call, there, Bool.toNat_eq_one.mp ?_⟩
  exact Nat.le_antisymm (Bool.toNat_le _) pos

theorem Inv.called (inv : Inv s) : Inv (Mutex.called s) where
  holders := by
    show total _ (s.calls ++ [⟨.woken, 0⟩]) = s.locked.toNat
    rw [total, List.map_append, List.sum_append]
    exact inv.holders
  queued := by
    refine ⟨fun i => (inv.queued.mem i).trans (exists_congr fun runs => ?_), inv.queued.nodup⟩
    show _ ↔ (s.calls ++ [⟨.woken, 0⟩])[i]? = _
    rcases Nat.lt_trichotomy i s.calls.length with less | rfl | greater
    · rw [List.getElem?_append_left less]
    · rw [List.getElem?_concat_length, List.getElem?_eq_none (Nat.le_refl _)]
      exact iff_of_false nofun nofun
    · rw [List.getElem?_eq_none (Nat.le_of_lt greater), List.getElem?_eq_none (by
        rw [List.length_append, List.length_singleton]
        omega)]
  awake _ _ := ⟨s.calls.length, 0, List.getElem?_concat_length⟩
  once call listed := by
    rcases mem_snoc.mp listed with old | new
    · exact inv.once call old
    · rw [new]
      rfl

theorem Inv.move (inv : Inv s) (move : Move s t) : Inv t := by
  have fits {i : Nat} {call : Call} (at_ : s.calls[i]? = some call) :=
    inv.once call (List.mem_of_getElem? at_)
  cases move with
  | @wait i runs at_ locked =>
    have begun : runs = 0 := fits at_
    have sum := total_set (fun c => c.holds.toNat) at_ ⟨.waiting, runs⟩
    exact ⟨(Nat.add_right_cancel sum).trans inv.holders, inv.queued.wait at_ nofun,
      fun free => absurd locked (Bool.eq_false_iff.mp free), once_set _ _ inv.once begun⟩
  | @take i runs at_ free =>
    have begun : runs = 0 := fits at_
    have sum := total_set (fun c => c.holds.toNat) at_ ⟨.acquired, runs⟩
    rw [inv.holders, free] at sum
    exact ⟨sum, inv.queued.set at_ _ nofun nofun, nofun, once_set _ _ inv.once begun⟩
  | @start i runs at_ =>
    have begun : runs = 0 := fits at_
    have sum := total_set (fun c => c.holds.toNat) at_ ⟨.running, runs + 1⟩
    refine ⟨(Nat.add_right_cancel sum).trans inv.holders, inv.queued.set at_ _ nofun nofun, fun free => ?_,
      once_set _ _ inv.once (congrArg (· + 1) begun)⟩
    exact absurd (inv.locked at_ rfl) (Bool.eq_false_iff.mp free)
  | @settle i runs o at_ =>
    have begun : runs = 1 := fits at_
    have sum := total_set (fun c => c.holds.toNat) at_ ⟨.ended o, runs⟩
    refine ⟨(Nat.add_right_cancel sum).trans inv.holders, inv.queued.set at_ _ nofun nofun, fun free => ?_,
      once_set _ _ inv.once begun⟩
    exact absurd (inv.locked at_ rfl) (Bool.eq_false_iff.mp free)
  | @release i runs c o at_ ends =>
    have held : c.holds = true ∧ c.hasStarted = true ∧ c ≠ .waiting := by
      rcases ends with rfl | rfl <;> exact ⟨rfl, rfl, nofun⟩
    have begun : runs = c.hasStarted.toNat := fits at_
    have sum := total_set (fun c => c.holds.toNat) at_ ⟨.done o, runs⟩
    have queued := inv.queued.set at_ ⟨.done o, runs⟩ held.2.2 nofun
    have once := once_set i ⟨.done o, runs⟩ inv.once (begun.trans (congrArg _ held.2.1))
    rw [inv.holders, inv.locked at_ held.1, held.1] at sum
    have none_ := Nat.add_right_cancel sum
    unfold State.release State.put
    split
    · next empty => exact ⟨none_, queued, fun _ some_ => absurd empty some_, once⟩
    · next first rest waits =>
      rw [show s.waitQueue = first :: rest from waits] at queued
      obtain ⟨n, there, same, queued'⟩ := queued.wake
      have idle : n = 0 := once _ (List.mem_of_getElem? there)
      have sum' := total_set (fun c => c.holds.toNat) there ⟨.woken, n⟩
      simp only [same]
      exact ⟨(Nat.add_right_cancel sum').trans none_, queued',
        fun _ _ => ⟨first, n, (set_get there _ first).trans (if_pos rfl)⟩, once_set _ _ once idle⟩

/-! ### Runs -/

theorem Inv.less (inv : Inv s) (move : Move s t) :
    total Control.work t.calls < total Control.work s.calls := by
  cases move with
  | @wait i runs at_ =>
    have sum := total_set Control.work at_ ⟨.waiting, runs⟩
    exact Nat.lt_of_succ_le (Nat.le_of_eq (Nat.add_right_cancel (m := 4) sum))
  | @take i runs at_ =>
    have sum := total_set Control.work at_ ⟨.acquired, runs⟩
    exact Nat.lt_of_succ_le (Nat.le_of_eq (Nat.add_right_cancel (m := 4) sum))
  | @start i runs at_ =>
    have sum := total_set Control.work at_ ⟨.running, runs + 1⟩
    exact Nat.lt_of_succ_le (Nat.le_of_eq (Nat.add_right_cancel (m := 3) sum))
  | @settle i runs o at_ =>
    have sum := total_set Control.work at_ ⟨.ended o, runs⟩
    exact Nat.lt_of_succ_le (Nat.le_of_eq (Nat.add_right_cancel (m := 2) sum))
  | @release i runs c o at_ ends =>
    have two : 2 ≤ c.work ∧ c ≠ .waiting := by
      rcases ends with rfl | rfl
      · exact ⟨by decide, nofun⟩
      · exact ⟨Nat.le_refl 2, nofun⟩
    have sum :
        total Control.work (s.calls.set i ⟨.done o, runs⟩) + c.work = total Control.work s.calls + 0 :=
      total_set Control.work at_ _
    have queued := inv.queued.set at_ ⟨.done o, runs⟩ two.2 nofun
    unfold State.release State.put
    split
    · simp only
      omega
    · next first rest waits =>
      rw [show s.waitQueue = first :: rest from waits] at queued
      obtain ⟨n, there, same, -⟩ := queued.wake
      have sum' : total Control.work ((s.calls.set i ⟨.done o, runs⟩).set first ⟨.woken, n⟩) + 4 =
          total Control.work (s.calls.set i ⟨.done o, runs⟩) + 5 := total_set Control.work there _
      simp only [same]
      omega

theorem reachable_inv (reached : Transitions.Reachable {} State.step s) : Inv s := by
  refine reached.invariant ⟨rfl, ⟨by simp, .nil⟩, nofun, nofun⟩ fun s e t inv taken => ?_
  rcases step_move taken with ⟨-, move⟩ | ⟨-, move⟩
  · exact inv.called.move move
  · exact inv.move move

theorem Inv.run_length (inv : Inv s) (events : List Event) (none_ : .withLock ∉ events)
    (run : Transitions.run State.step s events = some t) : events.length ≤ total Control.work s.calls := by
  induction events generalizing s with
  | nil => exact Nat.zero_le _
  | cons e events ih =>
    rw [List.mem_cons, not_or] at none_
    obtain ⟨u, taken, rest⟩ := Option.bind_eq_some_iff.mp run
    obtain ⟨-, move⟩ := (step_move taken).resolve_left fun call => none_.1 call.1.symm
    have less := inv.less move
    have more := ih (inv.move move) none_.2 rest
    rw [List.length_cons]
    omega

/-- What holds of the calls of `withLock` in every state. -/
structure Contract (s : State) : Prop where
  /-- One body at most is between its start and its end. -/
  exclusive : ∀ (i j m n : Nat), s.calls[i]? = some ⟨.running, m⟩ → s.calls[j]? = some ⟨.running, n⟩ → i = j
  once : ∀ call ∈ s.calls, call.runs ≤ 1
  /-- Where nothing is left to resume and every body has ended, each call is over, its body run once. -/
  served : (∀ e, e ≠ .withLock → s.step e = none) → ∀ call ∈ s.calls,
    (∃ o, call.control = .done o) ∧ call.runs = 1
  /-- However the runtime resumes, without new calls it gets there. -/
  ends : ∀ events t, Event.withLock ∉ events → Transitions.run State.step s events = some t →
    events.length ≤ 5 * s.calls.length
  /-- While the lock is free and a call waits, one is woken, and takes the lock if it is resumed now. -/
  awake : s.locked = false → (∃ i n : Nat, s.calls[i]? = some ⟨.waiting, n⟩) → ∃ (j n : Nat) (t : State),
    s.calls[j]? = some ⟨.woken, n⟩ ∧ s.step (.resume j) = some t ∧ t.locked = true ∧
      t.calls[j]? = some ⟨.acquired, n⟩

theorem total_le (calls : List Call) : total Control.work calls ≤ 5 * calls.length := by
  induction calls with
  | nil => exact Nat.le_refl 0
  | cons call calls ih =>
    have one : call.control.work ≤ 5 := by cases call.control <;> simp [Control.work]
    simp only [total, List.map_cons, List.sum_cons, List.length_cons] at ih ⊢
    omega

/-- A call that is neither over nor in the queue goes on, or its body ends. -/
theorem step_enabled (at_ : s.calls[i]? = some call) (queued : call.control ≠ .waiting)
    (open_ : ∀ o, call.control ≠ .done o) : ∃ e, e ≠ .withLock ∧ s.step e ≠ none := by
  obtain ⟨control, runs⟩ := call
  cases control with
  | waiting => exact absurd rfl queued
  | woken => exact ⟨.resume i, nofun, by simp [State.step, at_]⟩
  | acquired => exact ⟨.resume i, nofun, by simp [State.step, at_]⟩
  | running => exact ⟨.settle i .resolved, nofun, by simp [State.step, at_]⟩
  | ended o => exact ⟨.resume i, nofun, by simp [State.step, at_]⟩
  | done o => exact absurd rfl (open_ o)

theorem mutex_contract (reached : Transitions.Reachable {} State.step s) : Contract s := by
  have inv := reachable_inv reached
  have awake : s.locked = false → (∃ i n : Nat, s.calls[i]? = some ⟨.waiting, n⟩) →
      ∃ i n : Nat, s.calls[i]? = some ⟨.woken, n⟩ := fun free ⟨i, waits⟩ =>
    inv.awake free (List.ne_nil_of_mem ((inv.queued.mem i).mpr waits))
  constructor
  · intro i j m n first second
    by_contra differs
    have sum := total_set (fun c => c.holds.toNat) first ⟨.woken, 0⟩
    have there : (s.calls.set i ⟨.woken, 0⟩)[j]? = some ⟨.running, n⟩ := by
      rw [set_get first, if_neg differs, second]
    have le := le_total (fun c => c.holds.toNat) there
    have one := Bool.toNat_le s.locked
    rw [inv.holders] at sum
    simp only [Control.holds, Bool.toNat_true, Bool.toNat_false] at sum le
    omega
  · intro call listed
    rw [inv.once call listed]
    exact Bool.toNat_le _
  · intro quiet call listed
    obtain ⟨i, at_⟩ := List.mem_iff_getElem?.mp listed
    have once := inv.once call listed
    have idle {j : Nat} {call : Call} (at_ : s.calls[j]? = some call) (moves : call.control ≠ .waiting) :
        ∃ o, call.control = .done o := by
      by_contra left
      obtain ⟨e, other, enabled⟩ := step_enabled at_ moves (not_exists.mp left)
      exact enabled (quiet e other)
    have moves : call.control ≠ .waiting := by
      intro waits
      cases locked : s.locked with
      | false =>
        obtain ⟨j, n, woken⟩ := awake locked ⟨i, call.runs, at_.trans (by rw [← waits])⟩
        obtain ⟨o, is⟩ := idle woken nofun
        cases is
      | true =>
        obtain ⟨holder, there, holds⟩ := exists_holds (inv.holders.trans (congrArg _ locked))
        obtain ⟨j, at_⟩ := List.mem_iff_getElem?.mp there
        obtain ⟨o, is⟩ := idle at_ fun waits => by
          rw [waits] at holds
          cases holds
        rw [is] at holds
        cases holds
    obtain ⟨o, is⟩ := idle at_ moves
    exact ⟨⟨o, is⟩, once.trans (by rw [is]; rfl)⟩
  · intro events t none_ run
    exact Nat.le_trans (inv.run_length events none_ run) (total_le _)
  · intro free waits
    obtain ⟨j, n, at_⟩ := awake free waits
    refine ⟨j, n, s.acquire j n, at_, by rw [State.step, at_], ?_, ?_⟩
    · rw [State.acquire, free]
      rfl
    · rw [State.acquire, free]
      exact (set_get at_ _ j).trans (if_pos rfl)

/-- The second call waits for the first, is woken by its end, and takes the lock after a third. -/
def bargedRun : List Event :=
  [.withLock, .withLock, .resume 0, .throw 0, .withLock, .resume 1, .resume 2, .settle 2 .resolved,
    .resume 2, .resume 1]

theorem mutex_contract_barged :
    ∃ s, Transitions.run State.step {} bargedRun = some s ∧ s.waitQueue = [] ∧ Contract s :=
  ⟨{ locked := true, calls := [⟨.done .thrown, 1⟩, ⟨.acquired, 0⟩, ⟨.done .resolved, 1⟩] }, rfl, rfl,
    mutex_contract (Transitions.run_reachable bargedRun .start rfl)⟩

end CodeGraph.Utils.Mutex
