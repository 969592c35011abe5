import CodeGraph.Foundation.Decisions

/-! Systems that take one step after another. -/
namespace CodeGraph.Transitions

variable {σ ε : Type}

/-- The states that a run of steps leads to; a step that is not enabled gives no state. -/
inductive Reachable (start : σ) (step : σ → ε → Option σ) : σ → Prop where
  | start : Reachable start step start
  | step {s t : σ} {e : ε} : Reachable start step s → step s e = some t → Reachable start step t

/-- What holds at the start and is kept by every step holds in every state. -/
theorem Reachable.invariant {start s : σ} {step : σ → ε → Option σ} {inv : σ → Prop}
    (reached : Reachable start step s) (base : inv start)
    (keeps : ∀ s e t, inv s → step s e = some t → inv t) : inv s := by
  induction reached with
  | start => exact base
  | step _ taken ih => exact keeps _ _ _ ih taken

/-- The state after a run, if every step of it is enabled. -/
def run (step : σ → ε → Option σ) (s : σ) (events : List ε) : Option σ := events.foldlM step s

theorem run_reachable {start s t : σ} {step : σ → ε → Option σ} (events : List ε)
    (reached : Reachable start step s) (done : run step s events = some t) :
    Reachable start step t := by
  induction events generalizing s with
  | nil =>
    cases done
    exact reached
  | cons e events ih =>
    obtain ⟨m, first, rest⟩ := Option.bind_eq_some_iff.mp done
    exact ih (.step reached first) rest

theorem foldlM_invariant {f : σ → ε → Option σ} {inv : σ → Prop} {es : List ε} {s t : σ}
    (keeps : ∀ e ∈ es, ∀ s t, inv s → f s e = some t → inv t) (base : inv s)
    (done : es.foldlM f s = some t) : inv t := by
  induction es generalizing s with
  | nil =>
    cases done
    exact base
  | cons e es ih =>
    rw [List.foldlM_cons] at done
    obtain ⟨m, first, rest⟩ := Option.bind_eq_some_iff.mp done
    exact ih (fun f h => keeps f (List.mem_cons_of_mem e h)) (keeps e List.mem_cons_self s m base first)
      rest

/-- The states that a run leads to if each of its steps meets a condition on the state before it. -/
inductive ReachableWhen (ok : σ → ε → Prop) (start : σ) (step : σ → ε → Option σ) : σ → Prop where
  | start : ReachableWhen ok start step start
  | step {s t : σ} {e : ε} :
    ReachableWhen ok start step s → ok s e → step s e = some t → ReachableWhen ok start step t

theorem ReachableWhen.invariant {ok : σ → ε → Prop} {start s : σ} {step : σ → ε → Option σ}
    {inv : σ → Prop} (reached : ReachableWhen ok start step s) (base : inv start)
    (keeps : ∀ s e t, inv s → ok s e → step s e = some t → inv t) : inv s := by
  induction reached with
  | start => exact base
  | step _ fine taken ih => exact keeps _ _ _ ih fine taken

def guarded (ok : σ → ε → Prop) [∀ s e, Decidable (ok s e)] (step : σ → ε → Option σ) (s : σ)
    (e : ε) : Option σ :=
  if ok s e then step s e else none

theorem run_reachableWhen {ok : σ → ε → Prop} [∀ s e, Decidable (ok s e)] {start s t : σ}
    {step : σ → ε → Option σ} (events : List ε) (reached : ReachableWhen ok start step s)
    (done : run (guarded ok step) s events = some t) : ReachableWhen ok start step t := by
  induction events generalizing s with
  | nil =>
    cases done
    exact reached
  | cons e events ih =>
    obtain ⟨m, first, rest⟩ := Option.bind_eq_some_iff.mp done
    obtain ⟨fine, taken⟩ := Option.ite_none_right_eq_some.mp first
    exact ih (.step reached fine taken) rest

end CodeGraph.Transitions
