import CodeGraph.Foundation.RecordFiles
import CodeGraph.Utils.FileLock

/-!
`FileLock` excludes, as long as the lock file still names the process that is found dead.

A stale lock is removed by the owner of its break lock only, and a break lock is a lock too. So the
argument goes through all levels at once: who is under a break lock owns it, hence no second process
is there, hence the stale record that it found is the one that it removes. The last step is where the
condition is used: between the read of a process and the probe of it, the lock may change hands.
-/
namespace CodeGraph.Utils.FileLock

open RecordFiles

variable {Agent : Type} [DecidableEq Agent] {pid : Agent → Pid} {s t : State Agent}

/-! ### Ownership -/

def Op.breaking : Op → Bool
  | .link .replacing => true
  | .link _ => false
  | .read .current => true
  | .read .refused => true
  | .read _ => false
  | .probe .current _ => true
  | .probe .refused _ => true
  | .probe _ _ => false
  | .unlinkStale => true
  | .releaseRead _ => true
  | .releaseUnlink _ => true

def Op.took : Op → Bool
  | .releaseRead ok => ok
  | .releaseUnlink ok => ok
  | _ => false

def Control.owns : Control → Nat → Prop
  | .acquiring level op, d => op.breaking = true ∧ d = level + 1 ∨ op.took = true ∧ d = level
  | _, _ => False

namespace State

def Owns (s : State Agent) (a : Agent) (d : Nat) : Prop :=
  s.held a = true ∧ d = 0 ∨ (s.control a).owns d

def Alive (pid : Agent → Pid) (s : State Agent) (a : Agent) : Prop := s.dead (pid a) = false

def view (pid : Agent → Pid) (s : State Agent) : View Agent Nat Content :=
  ⟨s.files, s.Alive pid, s.Owns⟩

def Stale (s : State Agent) (c : Content) : Prop :=
  c = .malformed ∨ ∃ p, c = .pid p ∧ s.dead p = true

end State

open State

def Names (pid : Agent → Pid) (c : Content) (a : Agent) : Prop := c = .pid (pid a)

structure Inv (pid : Agent → Pid) (s : State Agent) : Prop where
  safe : Safe (Names pid) (s.view pid)
  /-- What is about to be unlinked as stale is stale. -/
  stale : ∀ a level, s.Alive pid a → s.control a = .acquiring level .unlinkStale →
    ∃ c, s.files level = some c ∧ s.Stale c
  releasing : ∀ a, s.control a = .releaseRead ∨ s.control a = .releaseUnlink → s.held a = true

omit [DecidableEq Agent] in
private theorem State.Stale.not_names {c : Content} (stale : s.Stale c) {a : Agent} (alive : s.Alive pid a) :
    ¬ Names pid c a := by
  rintro rfl
  rcases stale with bad | ⟨p, same, dead⟩
  · cases bad
  · cases same
    have living : s.dead (pid a) = false := alive
    rw [dead] at living
    cases living

omit [DecidableEq Agent] in
/-- A living owner's file is not stale. -/
theorem Inv.owned_not_stale (inv : Inv pid s) {a : Agent} {d : Nat} (alive : s.Alive pid a)
    (own : s.Owns a d) {c : Content} (there : s.files d = some c) : ¬ s.Stale c := by
  intro stale
  obtain ⟨r, recorded, named⟩ := inv.safe.recorded a d alive own
  have same : r = c := Option.some.inj (recorded.symm.trans there)
  exact State.Stale.not_names stale alive (same ▸ named)

omit [DecidableEq Agent] in
theorem Inv.recorded (inv : Inv pid s) {a : Agent} {d : Nat} (alive : s.Alive pid a)
    (own : s.Owns a d) : s.files d = some (.pid (pid a)) := by
  obtain ⟨r, there, named⟩ := inv.safe.recorded a d alive own
  exact named ▸ there

/-! ### Steps of one process -/

/-- What the step of one process may do to the others: write a file that is free, one that it owns,
or one whose break lock it owns. -/
structure Local (pid : Agent → Pid) (s t : State Agent) (a : Agent) : Prop where
  dead : t.dead = s.dead
  control : ∀ b, b ≠ a → t.control b = s.control b
  held : ∀ b, b ≠ a → t.held b = s.held b
  files : ∀ d, t.files d = s.files d ∨ s.files d = none ∨ s.Owns a d ∨ s.Owns a (d + 1)

omit [DecidableEq Agent] in
private theorem Inv.of_local (inv : Inv pid s) {a : Agent} (alive : s.Alive pid a)
    (here : Local pid s t a) (safe : Safe (Names pid) (t.view pid))
    (stale : ∀ level, t.control a = .acquiring level .unlinkStale →
      ∃ c, t.files level = some c ∧ s.Stale c)
    (releasing : t.control a = .releaseRead ∨ t.control a = .releaseUnlink → t.held a = true) :
    Inv pid t := by
  have same (c : Content) : t.Stale c ↔ s.Stale c := by
    unfold State.Stale
    rw [here.dead]
  refine ⟨safe, fun b level alive' at_ => ?_, fun b at_ => ?_⟩
  · by_cases other : b = a
    · subst other
      obtain ⟨c, there, old⟩ := stale level at_
      exact ⟨c, there, (same c).mpr old⟩
    · rw [here.control b other] at at_
      have alive' : s.dead (pid b) = false := by
        have living : t.dead (pid b) = false := alive'
        rwa [here.dead] at living
      obtain ⟨c, there, old⟩ := inv.stale b level alive' at_
      rcases here.files level with kept | free | own | breaking
      · exact ⟨c, kept.trans there, (same c).mpr old⟩
      · rw [free] at there
        cases there
      · exact absurd old (inv.owned_not_stale alive own there)
      · -- Both are under the same break lock.
        have own : s.Owns b (level + 1) := .inr (by
          rw [at_]
          exact .inl ⟨rfl, rfl⟩)
        exact absurd (inv.safe.single b a (level + 1) alive' alive own breaking) other
  · by_cases other : b = a
    · subst other
      exact releasing at_
    · rw [here.control b other] at at_
      rw [here.held b other]
      exact inv.releasing b at_

private theorem goto_owns_of {a b : Agent} {c : Control} {d : Nat} (own : (s.goto a c).Owns b d) :
    b ≠ a ∧ s.Owns b d ∨ b = a ∧ (s.held a = true ∧ d = 0 ∨ c.owns d) := by
  by_cases same : b = a
  · subst same
    refine .inr ⟨rfl, own.imp_right fun at_ => ?_⟩
    simpa [State.goto] using at_
  · refine .inl ⟨same, own.imp_right fun at_ => ?_⟩
    simpa [State.goto, same] using at_

private theorem goto_owns {a b : Agent} {c : Control} {d : Nat} (own : (s.goto a c).Owns b d) :
    s.Owns b d ∨ b = a ∧ c.owns d := by
  rcases goto_owns_of own with ⟨-, old⟩ | ⟨rfl, held | new⟩
  · exact .inl old
  · exact .inl (.inl held)
  · exact .inr ⟨rfl, new⟩

private theorem goto_control (s : State Agent) (a : Agent) (c : Control) :
    (s.goto a c).control a = c := by
  simp [State.goto]

private theorem goto_keeps (inv : Inv pid s) {a : Agent} (alive : s.Alive pid a) {c : Control}
    (owns : ∀ d, c.owns d → s.Owns a d)
    (stale : ∀ level, c = .acquiring level .unlinkStale → ∃ r, s.files level = some r ∧ s.Stale r)
    (releasing : c = .releaseRead ∨ c = .releaseUnlink → s.held a = true) : Inv pid (s.goto a c) := by
  refine inv.of_local alive ⟨rfl, fun b other => if_neg other, fun _ _ => rfl, fun _ => .inl rfl⟩ ?_
    (fun level at_ => stale level ((goto_control s a c).symm.trans at_))
    (fun at_ => releasing (by rwa [goto_control] at at_))
  refine inv.safe.quiet rfl (fun _ h => h) fun b d own => ?_
  rcases goto_owns own with old | ⟨rfl, new⟩
  · exact old
  · exact owns d new

private theorem taken_keeps (inv : Inv pid s) {a : Agent} (alive : s.Alive pid a) {level : Nat}
    (own : s.Owns a level) : Inv pid (s.taken a level) := by
  cases level with
  | zero =>
    refine inv.of_local alive ⟨rfl, fun b other => if_neg other, fun b other => if_neg other,
      fun _ => .inl rfl⟩ ?_ (fun level at_ => ?_) (fun at_ => ?_)
    · refine inv.safe.quiet rfl (fun _ h => h) fun b d h => ?_
      rcases goto_owns h with (⟨held, zero⟩ | at_) | ⟨-, idle⟩
      · by_cases same : b = a
        · exact same ▸ zero ▸ own
        · exact .inl ⟨by simpa [State.setHeld, same] using held, zero⟩
      · exact .inr at_
      · exact idle.elim
    · rw [State.taken, goto_control] at at_
      cases at_
    · rw [State.taken, goto_control] at at_
      rcases at_ with h | h <;> cases h
  | succ level =>
    refine goto_keeps inv alive (fun d h => ?_) (fun _ h => nomatch h) fun h => ?_
    · rcases h with ⟨-, rfl⟩ | ⟨took, -⟩
      · exact own
      · cases took
    · rcases h with h | h <;> cases h

private theorem refused_keeps (inv : Inv pid s) {a : Agent} (alive : s.Alive pid a) :
    Inv pid (s.refused a) :=
  goto_keeps inv alive (fun _ h => h.elim) (fun _ h => nomatch h)
    (fun h => by rcases h with h | h <;> cases h)

private theorem result_keeps (inv : Inv pid s) {a : Agent} (alive : s.Alive pid a) {level : Nat}
    {ok : Bool} (own : ok = true → s.Owns a level) : Inv pid (s.result a level ok) := by
  unfold State.result
  split
  · next yes => exact taken_keeps inv alive (own yes)
  · exact refused_keeps inv alive

private theorem setHeld_owns {a b : Agent} {value : Bool} {d : Nat}
    (own : (s.setHeld a value).Owns b d) : s.Owns b d ∨ b = a ∧ value = true ∧ d = 0 := by
  rcases own with ⟨held, zero⟩ | at_
  · by_cases same : b = a
    · right
      refine ⟨same, ?_, zero⟩
      simpa [State.setHeld, same] using held
    · left
      left
      exact ⟨by simpa [State.setHeld, same] using held, zero⟩
  · exact .inl (.inr at_)

private theorem taken_owns {a b : Agent} {level d : Nat} (own : (s.taken a level).Owns b d) :
    s.Owns b d ∨ b = a ∧ d = level := by
  cases level with
  | zero =>
    rcases goto_owns own with old | ⟨-, idle⟩
    · rcases setHeld_owns old with older | ⟨same, -, zero⟩
      · exact .inl older
      · exact .inr ⟨same, zero⟩
    · exact idle.elim
  | succ level =>
    rcases goto_owns own with old | ⟨same, ⟨-, rfl⟩ | ⟨took, -⟩⟩
    · exact .inl old
    · exact .inr ⟨same, rfl⟩
    · cases took

private theorem taken_local (s : State Agent) (a : Agent) (level : Nat) :
    Local pid s (s.taken a level) a := by
  cases level with
  | zero =>
    exact ⟨rfl, fun b other => if_neg other, fun b other => if_neg other, fun _ => .inl rfl⟩
  | succ level => exact ⟨rfl, fun b other => if_neg other, fun _ _ => rfl, fun _ => .inl rfl⟩

private theorem taken_control {s : State Agent} {a : Agent} {level : Nat} :
    (∀ l, (s.taken a level).control a ≠ .acquiring l .unlinkStale) ∧
      (s.taken a level).control a ≠ .releaseRead ∧ (s.taken a level).control a ≠ .releaseUnlink := by
  cases level <;> simp [State.taken, State.goto]

omit [DecidableEq Agent] in
private theorem claim_keeps (inv : Inv pid s) {a : Agent} (alive : s.Alive pid a) {level : Nat}
    (free : s.files level = none)
    (here : Local pid (s.write level (some (.pid (pid a)))) t a)
    (files : t.files = (s.write level (some (.pid (pid a)))).files)
    (owns : ∀ b d, t.Owns b d → s.Owns b d ∨ b = a ∧ d = level)
    (stale : ∀ l, t.control a ≠ .acquiring l .unlinkStale)
    (releasing : t.control a ≠ .releaseRead ∧ t.control a ≠ .releaseUnlink) : Inv pid t := by
  have local_ : Local pid s t a := ⟨here.dead, here.control, here.held, fun d => by
    by_cases same : d = level
    · exact .inr (.inl (same ▸ free))
    · left
      rw [files]
      exact if_neg same⟩
  refine inv.of_local alive local_ ?_ (fun l at_ => absurd at_ (stale l))
    (fun at_ => (at_.elim (fun h => absurd h releasing.1) fun h => absurd h releasing.2))
  refine inv.safe.claim free rfl (fun d => ?_) (fun b h => ?_) owns
  · change t.files d = _
    rw [files]
    rfl
  · have living : t.dead (pid b) = false := h
    rwa [here.dead] at living

/-! ### The operations -/

private theorem link_keeps (inv : Inv pid s) {a : Agent} (alive : s.Alive pid a) {level : Nat}
    {c : Create} (at_ : s.control a = .acquiring level (.link c)) :
    Inv pid (s.link pid a level c) := by
  have under (replacing : c = .replacing) : s.Owns a (level + 1) := .inr (by
    rw [at_, replacing]
    exact .inl ⟨rfl, rfl⟩)
  cases there : s.files level with
  | none =>
    have taken : Inv pid ((s.write level (some (.pid (pid a)))).taken a level) :=
      claim_keeps inv alive there (taken_local _ a level) (by cases level <;> rfl)
        (fun b d own => by
          have owned := taken_owns own
          exact owned) taken_control.1 taken_control.2
    cases c with
    | first =>
      simp only [State.link, there]
      exact taken
    | again =>
      simp only [State.link, there]
      exact taken
    | replacing =>
      simp only [State.link, there, State.finish]
      refine claim_keeps inv alive there
        ⟨rfl, fun b other => if_neg other, fun _ _ => rfl, fun _ => .inl rfl⟩ rfl
        (fun b d own => ?_) (by simp [State.goto]) (by simp [State.goto])
      rcases goto_owns own with old | ⟨same, ⟨-, above⟩ | ⟨-, here⟩⟩
      · exact .inl old
      · exact .inl (same ▸ above ▸ under rfl)
      · exact .inr ⟨same, here⟩
  | some r =>
    cases c with
    | first =>
      simp only [State.link, there]
      exact goto_keeps inv alive (fun d h => by rcases h with ⟨h, -⟩ | ⟨h, -⟩ <;> cases h)
        (fun _ h => nomatch h) (fun h => by rcases h with h | h <;> cases h)
    | again =>
      simp only [State.link, there]
      exact goto_keeps inv alive (fun d h => by rcases h with ⟨h, -⟩ | ⟨h, -⟩ <;> cases h)
        (fun _ h => nomatch h) (fun h => by rcases h with h | h <;> cases h)
    | replacing =>
      simp only [State.link, there]
      refine goto_keeps inv alive (fun d h => ?_) (fun _ h => nomatch h)
        (fun h => by rcases h with h | h <;> cases h)
      rcases h with ⟨-, rfl⟩ | ⟨h, -⟩
      · exact under rfl
      · cases h

private theorem under_keeps (inv : Inv pid s) {a : Agent} (alive : s.Alive pid a) {level : Nat}
    {op : Op} (own : s.Owns a (level + 1)) (took : op.took = false)
    (stale : op = .unlinkStale → ∃ r, s.files level = some r ∧ s.Stale r) :
    Inv pid (s.goto a (.acquiring level op)) := by
  refine goto_keeps inv alive (fun d h => ?_) (fun l same => ?_)
    (fun h => by rcases h with h | h <;> cases h)
  · rcases h with ⟨-, rfl⟩ | ⟨h, -⟩
    · exact own
    · rw [took] at h
      cases h
  · obtain ⟨rfl, rfl⟩ := Control.acquiring.inj same
    exact stale rfl

private theorem before_keeps (inv : Inv pid s) {a : Agent} (alive : s.Alive pid a) {level : Nat}
    {op : Op} (breaking : op.breaking = false) (took : op.took = false) :
    Inv pid (s.goto a (.acquiring level op)) := by
  refine goto_keeps inv alive (fun d h => ?_) (fun l same => ?_)
    (fun h => by rcases h with h | h <;> cases h)
  · rcases h with ⟨h, -⟩ | ⟨h, -⟩
    · rw [breaking] at h
      cases h
    · rw [took] at h
      cases h
  · obtain ⟨rfl, rfl⟩ := Control.acquiring.inj same
    cases breaking

private theorem stale_keeps (inv : Inv pid s) {a : Agent} (alive : s.Alive pid a) (level : Nat) :
    Inv pid (s.stale a level) := by
  unfold State.stale
  split
  · exact refused_keeps inv alive
  · exact before_keeps inv alive rfl rfl

def Look.breaking : Look → Bool
  | .first => false
  | .again => false
  | .current => true
  | .refused => true

private theorem free_keeps (inv : Inv pid s) {a : Agent} (alive : s.Alive pid a) {level : Nat}
    {l : Look} (own : l.breaking = true → s.Owns a (level + 1)) : Inv pid (s.free a level l) := by
  cases l with
  | first => exact before_keeps inv alive rfl rfl
  | again => exact refused_keeps inv alive
  | current => exact under_keeps inv alive (own rfl) rfl (fun h => nomatch h)
  | refused => exact under_keeps inv alive (own rfl) rfl (fun h => nomatch h)

private theorem live_keeps (inv : Inv pid s) {a : Agent} (alive : s.Alive pid a) {level : Nat}
    {l : Look} (own : l.breaking = true → s.Owns a (level + 1)) : Inv pid (s.live a level l) := by
  cases l with
  | first => exact refused_keeps inv alive
  | again => exact refused_keeps inv alive
  | current => exact under_keeps inv alive (own rfl) rfl (fun h => nomatch h)
  | refused => exact under_keeps inv alive (own rfl) rfl (fun h => nomatch h)

private theorem gone_keeps (inv : Inv pid s) {a : Agent} (alive : s.Alive pid a) {level : Nat}
    {l : Look} (own : l.breaking = true → s.Owns a (level + 1))
    (stale : l = .current → ∃ r, s.files level = some r ∧ s.Stale r) :
    Inv pid (s.gone a level l) := by
  cases l with
  | first => exact stale_keeps inv alive level
  | again => exact stale_keeps inv alive level
  | current => exact under_keeps inv alive (own rfl) rfl fun _ => stale rfl
  | refused => exact under_keeps inv alive (own rfl) rfl (fun h => nomatch h)

private theorem read_keeps (inv : Inv pid s) {a : Agent} (alive : s.Alive pid a) {level : Nat}
    {l : Look} (own : l.breaking = true → s.Owns a (level + 1)) : Inv pid (s.read a level l) := by
  unfold State.read
  split
  · exact free_keeps inv alive own
  · next there => exact gone_keeps inv alive own fun _ => ⟨_, there, .inl rfl⟩
  · cases l with
    | first => exact before_keeps inv alive rfl rfl
    | again => exact before_keeps inv alive rfl rfl
    | current => exact under_keeps inv alive (own rfl) rfl (fun h => nomatch h)
    | refused => exact under_keeps inv alive (own rfl) rfl (fun h => nomatch h)

private theorem probe_keeps (inv : Inv pid s) {a : Agent} (alive : s.Alive pid a) {level : Nat}
    {l : Look} {p : Pid} (own : l.breaking = true → s.Owns a (level + 1))
    (still : l = .current → s.dead p = true → s.files level = some (.pid p)) :
    Inv pid (s.probe a level l p) := by
  unfold State.probe
  split
  · next dead =>
    exact gone_keeps inv alive own fun current => ⟨_, still current dead, .inr ⟨p, rfl, dead⟩⟩
  · exact live_keeps inv alive own

private theorem unlinkStale_keeps (inv : Inv pid s) {a : Agent} (alive : s.Alive pid a) {level : Nat}
    (at_ : s.control a = .acquiring level .unlinkStale) :
    Inv pid ((s.write level none).goto a (.acquiring level (.link .replacing))) := by
  have own : s.Owns a (level + 1) := .inr (by
    rw [at_]
    exact .inl ⟨rfl, rfl⟩)
  obtain ⟨c, there, stale⟩ := inv.stale a level alive at_
  have local_ : Local pid s ((s.write level none).goto a (.acquiring level (.link .replacing))) a := by
    refine ⟨rfl, fun b other => if_neg other, fun _ _ => rfl, fun d => ?_⟩
    by_cases same : d = level
    · exact .inr (.inr (.inr (same ▸ own)))
    · exact .inl (if_neg same)
  refine inv.of_local alive local_ ?_ (fun l h => ?_) (fun h => ?_)
  · refine inv.safe.sweep (k := level) (fun b r living found => ?_) (fun _ => rfl) (fun _ h => h)
      fun b d h => ?_
    · have same : r = c := Option.some.inj (found.symm.trans there)
      exact same ▸ State.Stale.not_names stale living
    · rcases goto_owns h with old | ⟨same, ⟨-, above⟩ | ⟨took, -⟩⟩
      · exact old
      · exact same ▸ above ▸ own
      · cases took
  · rw [goto_control] at h
    cases h
  · rw [goto_control] at h
    rcases h with h | h <;> cases h

omit [DecidableEq Agent] in
private theorem drop_keeps (inv : Inv pid s) {a : Agent} (alive : s.Alive pid a) {level : Nat}
    (own : s.Owns a level) (here : Local pid (s.write level none) t a)
    (files : t.files = (s.write level none).files)
    (owns : ∀ b d, t.Owns b d → s.Owns b d ∧ ¬ (b = a ∧ d = level))
    (stale : ∀ l, t.control a ≠ .acquiring l .unlinkStale)
    (releasing : t.control a ≠ .releaseRead ∧ t.control a ≠ .releaseUnlink) : Inv pid t := by
  have local_ : Local pid s t a := ⟨here.dead, here.control, here.held, fun d => by
    by_cases same : d = level
    · exact .inr (.inr (.inl (same ▸ own)))
    · left
      rw [files]
      exact if_neg same⟩
  refine inv.of_local alive local_ ?_ (fun l at_ => absurd at_ (stale l))
    (fun at_ => (at_.elim (fun h => absurd h releasing.1) fun h => absurd h releasing.2))
  refine inv.safe.release alive own (fun d => ?_) (fun b h => ?_) owns
  · change t.files d = _
    rw [files]
    rfl
  · have living : t.dead (pid b) = false := h
    rwa [here.dead] at living

private theorem releaseUnlink_keeps (inv : Inv pid s) {a : Agent} (alive : s.Alive pid a)
    {level : Nat} {ok : Bool} (at_ : s.control a = .acquiring level (.releaseUnlink ok)) :
    Inv pid ((s.write (level + 1) none).result a level ok) := by
  have own : s.Owns a (level + 1) := .inr (by
    rw [at_]
    exact .inl ⟨rfl, rfl⟩)
  have other {b : Agent} {d : Nat} (h : b ≠ a ∧ s.Owns b d) :
      s.Owns b d ∧ ¬ (b = a ∧ d = level + 1) := ⟨h.2, fun same => h.1 same.1⟩
  have zero {b : Agent} {d : Nat} (same : b = a) (h : s.held a = true ∧ d = 0) :
      s.Owns b d ∧ ¬ (b = a ∧ d = level + 1) := ⟨.inl (same ▸ h), fun above => by omega⟩
  unfold State.result
  split
  · next yes =>
    have kept : s.Owns a level := .inr (by
      rw [at_]
      exact .inr ⟨yes, rfl⟩)
    refine drop_keeps inv alive own (taken_local _ a level) (by cases level <;> rfl)
      (fun b d h => ?_) taken_control.1 taken_control.2
    cases level with
    | zero =>
      rcases goto_owns_of h with ⟨differs, old⟩ | ⟨same, held | idle⟩
      · rcases setHeld_owns old with older | ⟨same, -⟩
        · exact other ⟨differs, older⟩
        · exact absurd same differs
      · exact ⟨same ▸ held.2 ▸ kept, fun above => by omega⟩
      · exact idle.elim
    | succ level =>
      rcases goto_owns_of h with old | ⟨same, held | ⟨-, here⟩ | ⟨took, -⟩⟩
      · exact other old
      · exact zero same held
      · exact ⟨same ▸ here ▸ kept, fun above => by omega⟩
      · cases took
  · refine drop_keeps inv alive own
      ⟨rfl, fun b differs => if_neg differs, fun _ _ => rfl, fun _ => .inl rfl⟩ rfl
      (fun b d h => ?_) (by simp [State.refused, State.goto]) (by simp [State.refused, State.goto])
    rcases goto_owns_of h with old | ⟨same, held | idle⟩
    · exact other old
    · exact zero same held
    · exact idle.elim

theorem tryAcquire_keeps (inv : Inv pid s) {a : Agent} (alive : s.Alive pid a) {level : Nat}
    {op : Op} (at_ : s.control a = .acquiring level op)
    (still : ∀ p, op = .probe .current p → s.dead p = true → s.files level = some (.pid p)) :
    Inv pid (s.tryAcquire pid a level op) := by
  have under (breaking : op.breaking = true) : s.Owns a (level + 1) := .inr (by
    rw [at_]
    exact .inl ⟨breaking, rfl⟩)
  cases op with
  | link c => exact link_keeps inv alive at_
  | read l => exact read_keeps inv alive fun breaking => under (by cases l <;> trivial)
  | probe l p =>
    exact probe_keeps inv alive (fun breaking => under (by cases l <;> trivial))
      fun current => still p (current ▸ rfl)
  | unlinkStale => exact unlinkStale_keeps inv alive at_
  | releaseRead ok =>
    have kept (yes : ok = true) : s.Owns a level := .inr (by
      rw [at_]
      exact .inr ⟨yes, rfl⟩)
    simp only [State.tryAcquire]
    split
    · refine goto_keeps inv alive (fun d h => ?_) (fun _ h => nomatch h)
        (fun h => by rcases h with h | h <;> cases h)
      rcases h with ⟨-, rfl⟩ | ⟨took, rfl⟩
      · exact under rfl
      · exact kept took
    · exact result_keeps inv alive kept
  | releaseUnlink ok => exact releaseUnlink_keeps inv alive at_

theorem operation_keeps (inv : Inv pid s) {a : Agent} (alive : s.Alive pid a)
    (still : ∀ level p, s.control a = .acquiring level (.probe .current p) → s.dead p = true →
      s.files level = some (.pid p))
    (taken : s.operation pid a (s.control a) = some t) : Inv pid t := by
  cases at_ : s.control a with
  | idle =>
    rw [at_] at taken
    cases taken
  | acquiring level op =>
    rw [at_] at taken
    cases taken
    exact tryAcquire_keeps inv alive at_ fun p probes => still level p (probes ▸ at_)
  | releaseRead =>
    rw [at_] at taken
    have held := inv.releasing a (.inl at_)
    simp only [State.operation] at taken
    split at taken
    · cases taken
      exact goto_keeps inv alive (fun _ h => h.elim) (fun _ h => nomatch h) fun _ => held
    · next lost =>
      exact absurd (inv.recorded alive (.inl ⟨held, rfl⟩)) lost
  | releaseUnlink =>
    rw [at_] at taken
    cases taken
    have held := inv.releasing a (.inr at_)
    refine drop_keeps inv alive (.inl ⟨held, rfl⟩)
      ⟨rfl, fun b other => if_neg other, fun b other => if_neg other, fun _ => .inl rfl⟩ rfl
      (fun b d h => ?_) (by simp [State.goto]) (by simp [State.goto])
    rcases goto_owns_of h with ⟨differs, old⟩ | ⟨-, held | idle⟩
    · rcases setHeld_owns old with older | ⟨same, -⟩
      · exact ⟨older, fun here => differs here.1⟩
      · exact absurd same differs
    · simp [State.setHeld] at held
    · exact idle.elim

/-- A process that holds the break lock and finds dead what it has read finds it recorded still. -/
def Undisturbed (s : State Agent) : Event Agent → Prop
  | .operation a =>
    match s.control a with
    | .acquiring level (.probe .current p) => s.dead p = true → s.files level = some (.pid p)
    | _ => True
  | _ => True

instance (s : State Agent) (e : Event Agent) : Decidable (Undisturbed s e) := by
  unfold Undisturbed
  split
  · split <;> infer_instance
  · infer_instance

theorem step_keeps (inv : Inv pid s) {e : Event Agent} (fine : Undisturbed s e)
    (taken : s.step pid e = some t) : Inv pid t := by
  cases e with
  | acquire a =>
    obtain ⟨allowed, same⟩ := Option.ite_none_left_eq_some.mp taken
    cases same
    rw [not_or] at allowed
    exact before_keeps inv ((Bool.not_eq_true _).mp allowed.1) rfl rfl
  | release a =>
    obtain ⟨allowed, same⟩ := Option.ite_none_left_eq_some.mp taken
    rw [not_or] at allowed
    split at same
    · next held =>
      cases same
      exact goto_keeps inv ((Bool.not_eq_true _).mp allowed.1) (fun _ h => h.elim)
        (fun _ h => nomatch h) fun _ => held
    · cases same
      exact inv
  | operation a =>
    obtain ⟨allowed, same⟩ := Option.ite_none_left_eq_some.mp taken
    refine operation_keeps inv ((Bool.not_eq_true _).mp allowed) (fun level p at_ => ?_) same
    simpa only [Undisturbed, at_] using fine
  | crash p =>
    cases taken
    have alive {b : Agent} (h : (if pid b = p then true else s.dead (pid b)) = false) :
        s.dead (pid b) = false := by
      split at h
      · cases h
      · exact h
    refine ⟨inv.safe.quiet rfl (fun b h => alive h) (fun _ _ h => h), fun a level living at_ => ?_,
      inv.releasing⟩
    obtain ⟨c, there, stale⟩ := inv.stale a level (alive living) at_
    refine ⟨c, there, stale.imp_right fun ⟨q, same, dead⟩ => ⟨q, same, ?_⟩⟩
    by_cases crashed : q = p <;> simp [crashed, dead]

omit [DecidableEq Agent] in
theorem start_inv {left : Nat → Option Content} {dead : Pid → Bool} :
    Inv pid (start left dead : State Agent) where
  safe := ⟨fun _ _ _ own => by rcases own with ⟨held, -⟩ | at_ <;> contradiction,
    fun _ _ _ _ _ own => by rcases own with ⟨held, -⟩ | at_ <;> contradiction⟩
  stale := fun _ _ _ at_ => nomatch at_
  releasing := fun _ at_ => by rcases at_ with at_ | at_ <;> contradiction

/-! ### The promise -/

abbrev Reachable (pid : Agent → Pid) (left : Nat → Option Content) (dead : Pid → Bool) :
    State Agent → Prop :=
  Transitions.ReachableWhen Undisturbed (start left dead) (State.step pid)

def OwnRelease (pid : Agent → Pid) (s : State Agent) (e : Event Agent) (d : Nat) (p : Pid) : Prop :=
  ∃ a, e = .operation a ∧ pid a = p ∧ s.Owns a d ∧
    (d = 0 ∧ s.control a = .releaseUnlink ∨
      ∃ level ok, d = level + 1 ∧ s.control a = .acquiring level (.releaseUnlink ok))

structure Contract (pid : Agent → Pid) (s : State Agent) : Prop where
  exclusive : ∀ a b, s.Alive pid a → s.Alive pid b → s.held a = true → s.held b = true → a = b
  /-- The break locks exclude too. -/
  levels : ∀ a b d, s.Alive pid a → s.Alive pid b → s.Owns a d → s.Owns b d → a = b
  removed : ∀ e t, Undisturbed s e → s.step pid e = some t → ∀ d p, s.files d = some (.pid p) →
    s.dead p = false → t.files d = s.files d ∨ OwnRelease pid s e d p
  /-- No step of an acquire, refused or not, touches the lock file of a living process, or another
  instance. -/
  refused : ∀ a level op t, s.control a = .acquiring level op → Undisturbed s (.operation a) →
    s.step pid (.operation a) = some t →
    (∀ p, s.files 0 = some (.pid p) → s.dead p = false → t.files 0 = s.files 0) ∧
      ∀ b, b ≠ a → t.held b = s.held b ∧ t.control b = s.control b

private theorem taken_files (s : State Agent) (a : Agent) (level : Nat) :
    (s.taken a level).files = s.files := by
  cases level <;> rfl

private theorem result_files (s : State Agent) (a : Agent) (level : Nat) (ok : Bool) :
    (s.result a level ok).files = s.files := by
  unfold State.result
  split
  · exact taken_files s a level
  · rfl

private theorem gone_files (s : State Agent) (a : Agent) (level : Nat) (l : Look) :
    (s.gone a level l).files = s.files := by
  have stale : (s.stale a level).files = s.files := by
    unfold State.stale
    split <;> rfl
  cases l with
  | first => exact stale
  | again => exact stale
  | current => rfl
  | refused => rfl

private theorem tryAcquire_files (inv : Inv pid s) {a : Agent} (alive : s.Alive pid a) {level : Nat}
    {op : Op} (at_ : s.control a = .acquiring level op) {d : Nat} {p : Pid}
    (there : s.files d = some (.pid p)) (living : s.dead p = false) :
    (s.tryAcquire pid a level op).files d = s.files d ∨
      OwnRelease pid s (.operation a) d p ∧ d ≠ 0 := by
  cases op with
  | link c =>
    left
    simp only [State.tryAcquire, State.link]
    cases found : s.files level with
    | none =>
      have other : d ≠ level := by
        rintro rfl
        rw [found] at there
        cases there
      cases c with
      | first => exact (congrFun (taken_files _ a level) d).trans (if_neg other)
      | again => exact (congrFun (taken_files _ a level) d).trans (if_neg other)
      | replacing => exact if_neg other
    | some r => cases c <;> rfl
  | read l =>
    left
    simp only [State.tryAcquire, State.read]
    split
    · cases l <;> rfl
    · exact congrFun (gone_files s a level l) d
    · rfl
  | probe l q =>
    left
    simp only [State.tryAcquire, State.probe]
    split
    · exact congrFun (gone_files s a level l) d
    · cases l <;> rfl
  | unlinkStale =>
    left
    refine if_neg ?_
    rintro rfl
    -- What is unlinked as stale names nobody alive.
    obtain ⟨c, found, stale⟩ := inv.stale a d alive at_
    cases Option.some.inj (there.symm.trans found)
    rcases stale with bad | ⟨q, same, dead⟩
    · cases bad
    · cases same
      rw [living] at dead
      cases dead
  | releaseRead ok =>
    left
    simp only [State.tryAcquire]
    split
    · rfl
    · exact congrFun (result_files s a level ok) d
  | releaseUnlink ok =>
    by_cases same : d = level + 1
    · right
      subst same
      have own : s.Owns a (level + 1) := .inr (by
        rw [at_]
        exact .inl ⟨rfl, rfl⟩)
      have recorded := Content.pid.inj (Option.some.inj ((inv.recorded alive own).symm.trans there))
      exact ⟨⟨a, rfl, recorded, own, .inr ⟨level, ok, rfl, at_⟩⟩, Nat.succ_ne_zero level⟩
    · left
      exact (congrFun (result_files _ a level ok) d).trans (if_neg same)

private theorem step_files (inv : Inv pid s) {e : Event Agent} (taken : s.step pid e = some t)
    {d : Nat} {p : Pid} (there : s.files d = some (.pid p)) (living : s.dead p = false) :
    t.files d = s.files d ∨ OwnRelease pid s e d p := by
  cases e with
  | acquire a =>
    obtain ⟨-, same⟩ := Option.ite_none_left_eq_some.mp taken
    cases same
    exact .inl rfl
  | release a =>
    obtain ⟨-, same⟩ := Option.ite_none_left_eq_some.mp taken
    split at same <;> cases same <;> exact .inl rfl
  | crash q =>
    cases taken
    exact .inl rfl
  | operation a =>
    obtain ⟨allowed, same⟩ := Option.ite_none_left_eq_some.mp taken
    have alive : s.Alive pid a := (Bool.not_eq_true _).mp allowed
    cases at_ : s.control a with
    | idle =>
      rw [at_] at same
      cases same
    | acquiring level op =>
      rw [at_] at same
      cases same
      exact (tryAcquire_files inv alive at_ there living).imp_right And.left
    | releaseRead =>
      rw [at_] at same
      simp only [State.operation] at same
      split at same <;> cases same <;> exact .inl rfl
    | releaseUnlink =>
      rw [at_] at same
      cases same
      by_cases zero : d = 0
      · right
        have own : s.Owns a d := .inl ⟨inv.releasing a (.inr at_), zero⟩
        have recorded := Content.pid.inj (Option.some.inj ((inv.recorded alive own).symm.trans there))
        exact ⟨a, rfl, recorded, own, .inl ⟨zero, at_⟩⟩
      · exact .inl (if_neg zero)

private theorem tryAcquire_others (s : State Agent) (a b : Agent) (level : Nat) (op : Op)
    (other : b ≠ a) : (s.tryAcquire pid a level op).held b = s.held b ∧
      (s.tryAcquire pid a level op).control b = s.control b := by
  have goto (u : State Agent) (c : Control) :
      (u.goto a c).held b = u.held b ∧ (u.goto a c).control b = u.control b := ⟨rfl, if_neg other⟩
  have taken (u : State Agent) (level : Nat) :
      (u.taken a level).held b = u.held b ∧ (u.taken a level).control b = u.control b := by
    cases level with
    | zero => exact ⟨if_neg other, if_neg other⟩
    | succ level => exact goto u _
  have result (u : State Agent) (ok : Bool) :
      (u.result a level ok).held b = u.held b ∧ (u.result a level ok).control b = u.control b := by
    unfold State.result
    split
    · exact taken u level
    · exact goto u _
  have gone (l : Look) :
      (s.gone a level l).held b = s.held b ∧ (s.gone a level l).control b = s.control b := by
    have stale : (s.stale a level).held b = s.held b ∧ (s.stale a level).control b = s.control b := by
      unfold State.stale
      split <;> exact goto s _
    cases l with
    | first => exact stale
    | again => exact stale
    | current => exact goto s _
    | refused => exact goto s _
  cases op with
  | link c =>
    simp only [State.tryAcquire, State.link]
    cases s.files level with
    | none =>
      cases c with
      | first => exact taken _ level
      | again => exact taken _ level
      | replacing => exact goto _ _
    | some r => cases c <;> exact goto s _
  | read l =>
    simp only [State.tryAcquire, State.read]
    split
    · cases l <;> exact goto s _
    · exact gone l
    · exact goto s _
  | probe l q =>
    simp only [State.tryAcquire, State.probe]
    split
    · exact gone l
    · cases l <;> exact goto s _
  | unlinkStale => exact goto _ _
  | releaseRead ok =>
    simp only [State.tryAcquire]
    split
    · exact goto s _
    · exact result s ok
  | releaseUnlink ok => exact result _ ok

/-- The lock excludes in every run in which no process that holds the break lock is disturbed. -/
theorem file_lock_contract {left : Nat → Option Content} {dead : Pid → Bool}
    (reached : Reachable pid left dead s) : Contract pid s := by
  have inv : Inv pid s :=
    reached.invariant start_inv fun _ _ _ inv fine taken => step_keeps inv fine taken
  refine ⟨fun a b ha hb h h' => ?_, inv.safe.single, ?_, ?_⟩
  · exact inv.safe.single a b 0 ha hb (.inl ⟨h, rfl⟩) (.inl ⟨h', rfl⟩)
  · exact fun e t _ taken d p there living => step_files inv taken there living
  · intro a level op t at_ _ taken
    obtain ⟨allowed, same⟩ := Option.ite_none_left_eq_some.mp taken
    rw [at_] at same
    cases same
    refine ⟨fun p there living => ?_, fun b other => tryAcquire_others s a b level op other⟩
    rcases tryAcquire_files inv ((Bool.not_eq_true _).mp allowed) at_ there living with
      kept | ⟨-, zero⟩
    · exact kept
    · exact absurd rfl zero

def leftBy (p : Pid) : Nat → Option Content
  | 0 => some (.pid p)
  | _ => none

def replaceRun : List (Event Nat) :=
  [.acquire 1, .operation 1, .operation 1, .operation 1, .operation 1, .acquire 2, .operation 2,
    .operation 2, .operation 2, .operation 2, .operation 2, .operation 2] ++
  List.replicate 6 (.operation 1)

theorem file_lock_contract_replace : ∃ s,
    Transitions.run (Transitions.guarded Undisturbed (State.step fun a => a))
        (start (leftBy 9) (· == 9)) replaceRun = some s ∧
      s.held 1 = true ∧ s.files 0 = some (.pid 1) ∧ s.held 2 = false ∧ s.control 2 = .idle ∧
      Contract (fun a : Nat => a) s := by
  have seen : (Transitions.run (Transitions.guarded Undisturbed (State.step fun a => a))
      (start (leftBy 9) (· == 9)) replaceRun).map
        (fun s => (s.held 1, s.files 0, s.held 2, s.control 2)) =
          some (true, some (.pid 1), false, .idle) := by decide +kernel
  obtain ⟨s, done, view⟩ := Option.map_eq_some_iff.mp seen
  obtain ⟨one, file, two, idle⟩ : _ ∧ _ ∧ _ ∧ _ := by simpa only [Prod.mk.injEq] using view
  exact ⟨s, done, one, file, two, idle,
    file_lock_contract (Transitions.run_reachableWhen replaceRun .start done)⟩

/-- Process `1` reads the lock of process `2` under the break lock. Before it probes, `2` releases the
lock and dies, and `3` takes it. -/
def disturbedRun : List (Event Nat) :=
  [.acquire 1, .operation 1, .operation 1, .operation 1] ++
  .acquire 2 :: List.replicate 10 (.operation 2) ++
  [.operation 1, .operation 1] ++
  [.release 2, .operation 2, .operation 2, .crash 2] ++
  [.acquire 3, .operation 3] ++
  List.replicate 5 (.operation 1)

/-- Two living processes hold the lock. -/
theorem file_lock_not_exclusive : ∃ s,
    Transitions.run (State.step fun a => a) (start (leftBy 9) (· == 9)) disturbedRun = some s ∧
      ¬ ∀ a b : Nat, s.Alive (fun a => a) a → s.Alive (fun a => a) b → s.held a = true →
        s.held b = true → a = b := by
  have seen : (Transitions.run (State.step fun a => a) (start (leftBy 9) (· == 9))
      disturbedRun).map (fun s => (s.dead 1, s.dead 3, s.held 1, s.held 3)) =
        some (false, false, true, true) := by decide +kernel
  obtain ⟨s, done, view⟩ := Option.map_eq_some_iff.mp seen
  obtain ⟨alive, alive', held, held'⟩ : _ ∧ _ ∧ _ ∧ _ := by simpa only [Prod.mk.injEq] using view
  exact ⟨s, done, fun exclusive => absurd (exclusive 1 3 alive alive' held held') (by decide)⟩

end CodeGraph.Utils.FileLock
