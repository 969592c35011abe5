import CodeGraph.Foundation.Decisions

/-! Strongly connected components, and the stack with low links that a depth-first search finds them
with. -/
namespace CodeGraph.LowLink

open Relation

section Components

variable {α : Type} {R : α → α → Prop} {a b c : α}

def Mutual (R : α → α → Prop) (a b : α) : Prop := ReflTransGen R a b ∧ ReflTransGen R b a

theorem Mutual.symm (mutual_ : Mutual R a b) : Mutual R b a := ⟨mutual_.2, mutual_.1⟩

theorem Mutual.trans (first : Mutual R a b) (second : Mutual R b c) : Mutual R a c :=
  ⟨first.1.trans second.1, second.2.trans first.2⟩

structure Component (R : α → α → Prop) (members : List α) : Prop where
  nonempty : members ≠ []
  distinct : members.Nodup
  whole : ∀ a ∈ members, ∀ b, b ∈ members ↔ Mutual R a b

theorem reach_closed (inside : α → Prop) (closed : ∀ a, inside a → ∀ b, R a b → inside b)
    (start : inside a) (reached : ReflTransGen R a b) : inside b := by
  induction reached with
  | refl => exact start
  | tail _ step ih => exact closed _ ih _ step

/-- Members that reach a root and are reached from it are its component if steps lead from them only
to each other and to what is closed without the root. -/
theorem component_of_root {members : List α} (done : α → Prop) {root : α} (member : root ∈ members)
    (distinct : members.Nodup) (below : ∀ a ∈ members, Mutual R root a) (open_ : ¬done root)
    (settled : ∀ a, done a → ∀ b, R a b → done b)
    (closed : ∀ a ∈ members, ∀ b, R a b → done b ∨ b ∈ members) : Component R members := by
  refine ⟨List.ne_nil_of_mem member, distinct, fun a listed b => ⟨fun other => ?_, fun mutual_ => ?_⟩⟩
  · exact (below a listed).symm.trans (below b other)
  · have step : ∀ x, done x ∨ x ∈ members → ∀ y, R x y → done y ∨ y ∈ members := by
      rintro x (done_ | listed) y step
      · exact .inl (settled x done_ y step)
      · exact closed x listed y step
    have inside : done b ∨ b ∈ members :=
      reach_closed (fun x => done x ∨ x ∈ members) step (.inr listed) mutual_.1
    refine inside.resolve_left fun done_ => open_ ?_
    exact reach_closed done settled done_ (mutual_.2.trans (below a listed).2)

end Components

/-! ### The stack -/

variable {α : Type} {next : α → List α}

def Step (next : α → List α) (a b : α) : Prop := b ∈ next a

abbrev Reach (next : α → List α) : α → α → Prop := ReflTransGen (Step next)

/-- The components found, an index and a low link for each element, the elements that are not in a
component yet, the frames of the search, and the steps that are left of each. -/
structure Linked (next : α → List α) (out : List (List α)) (index low : α → Nat)
    (stack frames : List α) (left : α → α → Prop) : Prop where
  components : ∀ c ∈ out, Component (Step next) c
  once : out.flatten.Nodup
  closed : ∀ u ∈ out.flatten, ∀ v ∈ next u, v ∈ out.flatten
  apart : ∀ u ∈ stack, u ∉ out.flatten
  stackOrder : stack.Pairwise fun a b => index b < index a
  frameOrder : frames.Pairwise fun a b => index b < index a
  frameListed : ∀ f ∈ frames, f ∈ stack
  leftFrame : ∀ u v, left u v → u ∈ frames ∧ v ∈ next u
  /-- Every element of the stack lies above a frame. -/
  covered : ∀ u ∈ stack, ∃ f ∈ frames, index f ≤ index u
  /-- A frame reaches all that lies above it. -/
  reaches : ∀ f ∈ frames, ∀ u ∈ stack, index f ≤ index u → Reach next f u
  lowLe : ∀ u ∈ stack, low u ≤ index u
  /-- The low link is the index of an element that is reached. -/
  lowest : ∀ u ∈ stack, ∃ w ∈ stack, index w = low u ∧ Reach next u w
  /-- A frame has the low links of all that lies between it and the next frame. -/
  handed : ∀ f ∈ frames, ∀ u ∈ stack, index f ≤ index u →
    (∀ g ∈ frames, index f < index g → index u < index g) → low f ≤ low u
  /-- What has no frame any more is not the root of a component. -/
  finished : ∀ u ∈ stack, u ∉ frames → low u < index u
  /-- A step is left, or leads to a component or to something no lower than the low link. -/
  scanned : ∀ u ∈ stack, ∀ v ∈ next u,
    left u v ∨ v ∈ out.flatten ∨ v ∈ stack ∧ low u ≤ index v

namespace Linked

variable {out : List (List α)} {index low index' low' : α → Nat} {stack frames : List α}
  {left left' : α → α → Prop} {u v : α}

theorem start (next : α → List α) (index low : α → Nat) (left : α → α → Prop)
    (nothing : ∀ u v, ¬left u v) : Linked next [] index low [] [] left := by
  constructor <;> simp [nothing]

theorem stack_nil (linked : Linked next out index low stack [] left) : stack = [] := by
  refine List.eq_nil_iff_forall_not_mem.mpr fun u member => ?_
  obtain ⟨f, none_, -⟩ := linked.covered u member
  cases none_

theorem stack_nodup (linked : Linked next out index low stack frames left) : stack.Nodup :=
  linked.stackOrder.imp fun {a b} less same => by
    subst same
    omega

theorem index_inj (linked : Linked next out index low stack frames left) (hu : u ∈ stack)
    (hv : v ∈ stack) (same : index u = index v) : u = v := by
  by_contra other
  have differ : stack.Pairwise fun a b => index a ≠ index b :=
    linked.stackOrder.imp fun {a b} less => by omega
  have symmetric : Std.Symm fun a b => index a ≠ index b := ⟨fun _ _ h => h.symm⟩
  exact differ.forall hu hv other same

/-- A step that leads to a component, or to something no lower than the low link, needs not be left. -/
theorem consume (linked : Linked next out index low stack frames left)
    (fewer : ∀ u v, left' u v → left u v)
    (settled : ∀ u v, left u v → left' u v ∨ v ∈ out.flatten ∨ v ∈ stack ∧ low u ≤ index v) :
    Linked next out index low stack frames left' :=
  { linked with
    leftFrame := fun u v still => linked.leftFrame u v (fewer u v still)
    scanned := fun u listed v step =>
      (linked.scanned u listed v step).elim (settled u v) fun done => .inr done }

variable (index' low') in
theorem enter (linked : Linked next out index low stack frames left) {a : α}
    (unknown : a ∉ out.flatten) (unlisted : a ∉ stack) (above : ∀ u ∈ stack, index u < index' a)
    (reached : ∀ f ∈ frames, Reach next f a) (own : low' a = index' a)
    (index_old : ∀ u ∈ stack, index' u = index u) (low_old : ∀ u ∈ stack, low' u = low u)
    (steps : ∀ u v, left' u v ↔ u = a ∧ v ∈ next a ∨ left u v) :
    Linked next out index' low' (a :: stack) (a :: frames) left' := by
  have frame_old : ∀ f ∈ frames, index' f = index f :=
    fun f h => index_old f (linked.frameListed f h)
  refine ⟨linked.components, linked.once, linked.closed, ?_, ?_, ?_, ?_, ?_, ?_, ?_, ?_, ?_, ?_, ?_, ?_⟩
  · intro u member
    rcases List.mem_cons.mp member with rfl | member
    · exact unknown
    · exact linked.apart u member
  · refine List.pairwise_cons.mpr ⟨fun u member => ?_, ?_⟩
    · rw [index_old u member]
      exact above u member
    · refine linked.stackOrder.imp_of_mem fun {x y} hx hy less => ?_
      rwa [index_old x hx, index_old y hy]
  · refine List.pairwise_cons.mpr ⟨fun u member => ?_, ?_⟩
    · rw [frame_old u member]
      exact above u (linked.frameListed u member)
    · refine linked.frameOrder.imp_of_mem fun {x y} hx hy less => ?_
      rwa [frame_old x hx, frame_old y hy]
  · intro f member
    rcases List.mem_cons.mp member with rfl | member
    · exact List.mem_cons_self
    · exact List.mem_cons_of_mem a (linked.frameListed f member)
  · intro u v still
    rcases (steps u v).mp still with ⟨rfl, step⟩ | old
    · exact ⟨List.mem_cons_self, step⟩
    · exact (linked.leftFrame u v old).imp_left fun h => List.mem_cons_of_mem a h
  · intro u member
    rcases List.mem_cons.mp member with rfl | member
    · exact ⟨u, List.mem_cons_self, Nat.le_refl _⟩
    · obtain ⟨f, frame, le⟩ := linked.covered u member
      refine ⟨f, List.mem_cons_of_mem a frame, ?_⟩
      rwa [frame_old f frame, index_old u member]
  · intro f listed u member le
    rcases List.mem_cons.mp listed with rfl | frame
    · rcases List.mem_cons.mp member with rfl | member
      · exact .refl
      · have less := above u member
        rw [index_old u member] at le
        omega
    · rcases List.mem_cons.mp member with rfl | member
      · exact reached f frame
      · rw [frame_old f frame, index_old u member] at le
        exact linked.reaches f frame u member le
  · intro u member
    rcases List.mem_cons.mp member with rfl | member
    · exact Nat.le_of_eq own
    · rw [low_old u member, index_old u member]
      exact linked.lowLe u member
  · intro u member
    rcases List.mem_cons.mp member with rfl | member
    · exact ⟨u, List.mem_cons_self, own.symm, .refl⟩
    · obtain ⟨w, listed, same, path⟩ := linked.lowest u member
      refine ⟨w, List.mem_cons_of_mem a listed, ?_, path⟩
      rw [index_old w listed, low_old u member, same]
  · intro f listed u member le between
    rcases List.mem_cons.mp listed with rfl | frame
    · rcases List.mem_cons.mp member with rfl | member
      · exact Nat.le_refl _
      · have less := above u member
        rw [index_old u member] at le
        omega
    · have under := above f (linked.frameListed f frame)
      rcases List.mem_cons.mp member with rfl | older
      · have less := between u List.mem_cons_self (by rw [frame_old f frame]; exact under)
        omega
      · rw [low_old f (linked.frameListed f frame), low_old u older]
        rw [frame_old f frame] at le between
        rw [index_old u older] at le between
        refine linked.handed f frame u older le fun g other less => ?_
        rw [← frame_old g other] at less ⊢
        exact between g (List.mem_cons_of_mem a other) less
  · intro u member frameless
    rcases List.mem_cons.mp member with rfl | member
    · exact absurd List.mem_cons_self frameless
    · rw [low_old u member, index_old u member]
      exact linked.finished u member fun frame => frameless (List.mem_cons_of_mem a frame)
  · intro u member v step
    rcases List.mem_cons.mp member with rfl | member
    · exact .inl ((steps u v).mpr (.inl ⟨rfl, step⟩))
    · rcases linked.scanned u member v step with still | done | ⟨listed, le⟩
      · exact .inl ((steps u v).mpr (.inr still))
      · exact .inr (.inl done)
      · refine .inr (.inr ⟨List.mem_cons_of_mem a listed, ?_⟩)
        rwa [low_old u member, index_old v listed]

variable (low') in
/-- The low link of a frame may become the index of anything that the frame reaches. -/
theorem lower (linked : Linked next out index low stack frames left) (frame : u ∈ frames)
    (target : ∃ w ∈ stack, index w = low' u ∧ Reach next u w) (less : low' u ≤ low u)
    (low_old : ∀ x, x ≠ u → low' x = low x) : Linked next out index low' stack frames left := by
  have down : ∀ x, low' x ≤ low x := by
    intro x
    by_cases here : x = u
    · rw [here]
      exact less
    · exact Nat.le_of_eq (low_old x here)
  refine { linked with lowLe := ?_, lowest := ?_, handed := ?_, finished := ?_, scanned := ?_ }
  · intro x listed
    exact Nat.le_trans (down x) (linked.lowLe x listed)
  · intro x listed
    by_cases here : x = u
    · rw [here]
      exact target
    · rw [low_old x here]
      exact linked.lowest x listed
  · intro f frame' x listed le between
    by_cases here : x = u
    · subst here
      by_cases same : f = x
      · exact Nat.le_of_eq (congrArg low' same)
      · -- the frame of `x` is nearer to it than any other
        have other : index f ≠ index x := fun equal =>
          same (linked.index_inj (linked.frameListed f frame') listed equal)
        have nearer := between x frame (by omega)
        omega
    · rw [low_old x here]
      exact Nat.le_trans (down f) (linked.handed f frame' x listed le between)
  · intro x listed frameless
    exact Nat.lt_of_le_of_lt (down x) (linked.finished x listed frameless)
  · intro x listed y step
    rcases linked.scanned x listed y step with still | done | ⟨there, le⟩
    · exact .inl still
    · exact .inr (.inl done)
    · exact .inr (.inr ⟨there, Nat.le_trans (down x) le⟩)

theorem top_frame (linked : Linked next out index low stack (v :: frames) left) {g : α}
    (frame : g ∈ v :: frames) : index g ≤ index v := by
  rcases List.mem_cons.mp frame with rfl | frame
  · exact Nat.le_refl _
  · exact Nat.le_of_lt ((List.pairwise_cons.mp linked.frameOrder).1 g frame)

private theorem handed_top (linked : Linked next out index low stack (v :: frames) left)
    (listed : u ∈ stack) (le : index v ≤ index u) : low v ≤ low u := by
  refine linked.handed v List.mem_cons_self u listed le fun g frame less => ?_
  have most := linked.top_frame frame
  omega

/-- Only frames have steps left, so there are none of a frame that is gone. -/
private theorem leftFrame_tail (linked : Linked next out index low stack (v :: frames) left)
    (nothing : ∀ x, ¬left v x) (a b : α) (still : left a b) : a ∈ frames ∧ b ∈ next a := by
  obtain ⟨frame, step⟩ := linked.leftFrame a b still
  rcases List.mem_cons.mp frame with rfl | frame
  · exact absurd still (nothing b)
  · exact ⟨frame, step⟩

/-- The top frame goes, and its element stays on the stack: it is not the root of a component. -/
theorem leave {p : α} (linked : Linked next out index low stack (v :: p :: frames) left)
    (nothing : ∀ x, ¬left v x) (smaller : low v < index v) (passed : low p ≤ low v) :
    Linked next out index low stack (p :: frames) left := by
  obtain ⟨above, order⟩ := List.pairwise_cons.mp linked.frameOrder
  have parent : index p < index v := above p List.mem_cons_self
  refine { linked with
    frameOrder := order
    frameListed := fun f frame => linked.frameListed f (List.mem_cons_of_mem v frame)
    leftFrame := linked.leftFrame_tail nothing
    covered := ?_
    reaches := fun f frame => linked.reaches f (List.mem_cons_of_mem v frame)
    handed := ?_
    finished := ?_ }
  · intro u listed
    obtain ⟨f, frame, le⟩ := linked.covered u listed
    rcases List.mem_cons.mp frame with rfl | frame
    · exact ⟨p, List.mem_cons_self, by omega⟩
    · exact ⟨f, frame, le⟩
  · intro f frame u listed le between
    by_cases under : index u < index v
    · refine linked.handed f (List.mem_cons_of_mem v frame) u listed le fun g other less => ?_
      rcases List.mem_cons.mp other with rfl | other
      · exact under
      · exact between g other less
    · rcases List.mem_cons.mp frame with rfl | lower_
      · exact Nat.le_trans passed (linked.handed_top listed (by omega))
      · have below := (List.pairwise_cons.mp order).1 f lower_
        have nearer := between p List.mem_cons_self below
        omega
  · intro u listed frameless
    by_cases here : u = v
    · rw [here]
      exact smaller
    · refine linked.finished u listed fun frame => ?_
      exact (List.mem_cons.mp frame).elim here frameless

variable {segment below : List α}

private theorem mem_above (linked : Linked next out index low (segment ++ v :: below) frames left)
    (x : α) : x ∈ segment ++ [v] ↔ x ∈ segment ++ v :: below ∧ index v ≤ index x := by
  have order := linked.stackOrder
  rw [List.pairwise_append, List.pairwise_cons] at order
  obtain ⟨-, ⟨under, -⟩, between⟩ := order
  rw [List.mem_append, List.mem_singleton, List.mem_append, List.mem_cons]
  constructor
  · rintro (h | rfl)
    · exact ⟨.inl h, Nat.le_of_lt (between x h v List.mem_cons_self)⟩
    · exact ⟨.inr (.inl rfl), Nat.le_refl _⟩
  · rintro ⟨h | h | h, le⟩
    · exact .inl h
    · exact .inr h
    · have less := under x h
      omega

private theorem reach_top
    (linked : Linked next out index low (segment ++ v :: below) (v :: frames) left)
    (root : low v = index v) {n : Nat} {x : α} (inside : x ∈ segment ++ [v]) (level : index x = n) :
    Reach next x v := by
  induction n using Nat.strongRecOn generalizing x with
  | ind n ih =>
    have listed : v ∈ segment ++ v :: below := List.mem_append_right _ List.mem_cons_self
    obtain ⟨there, le⟩ := (linked.mem_above x).mp inside
    by_cases here : x = v
    · rw [here]
    · have frameless : x ∉ v :: frames := by
        intro frame
        have most := linked.top_frame frame
        exact here (linked.index_inj there listed (by omega))
      have less := linked.finished x there frameless
      obtain ⟨w, there', same, path⟩ := linked.lowest x there
      have high := linked.handed_top there le
      have inside' := (linked.mem_above w).mpr ⟨there', by omega⟩
      exact path.trans (ih (index w) (by omega) inside' rfl)

private theorem above_settled
    (linked : Linked next out index low (segment ++ v :: below) (v :: frames) left)
    (nothing : ∀ x, ¬left v x) (root : low v = index v) (x : α) (inside : x ∈ segment ++ [v]) (y : α)
    (step : y ∈ next x) : y ∈ out.flatten ∨ y ∈ segment ++ [v] := by
  have listed : v ∈ segment ++ v :: below := List.mem_append_right _ List.mem_cons_self
  obtain ⟨there, le⟩ := (linked.mem_above x).mp inside
  rcases linked.scanned x there y step with still | done | ⟨there', le'⟩
  · obtain ⟨frame, -⟩ := linked.leftFrame x y still
    have most := linked.top_frame frame
    rw [linked.index_inj there listed (by omega)] at still
    exact absurd still (nothing y)
  · exact .inl done
  · have high := linked.handed_top there le
    exact .inr ((linked.mem_above y).mpr ⟨there', by omega⟩)

private theorem above_component
    (linked : Linked next out index low (segment ++ v :: below) (v :: frames) left)
    (nothing : ∀ x, ¬left v x) (root : low v = index v) : Component (Step next) (segment ++ [v]) := by
  have listed : v ∈ segment ++ v :: below := List.mem_append_right _ List.mem_cons_self
  have nodup := linked.stack_nodup
  rw [List.append_cons] at nodup
  refine component_of_root (fun x => x ∈ out.flatten)
    ((linked.mem_above v).mpr ⟨listed, Nat.le_refl _⟩) nodup.of_append_left (fun x inside => ?_)
    (linked.apart v listed) linked.closed (linked.above_settled nothing root)
  obtain ⟨there, le⟩ := (linked.mem_above x).mp inside
  exact ⟨linked.reaches v List.mem_cons_self x there le, linked.reach_top root inside rfl⟩

theorem close (linked : Linked next out index low (segment ++ v :: below) (v :: frames) left)
    (nothing : ∀ x, ¬left v x) (root : low v = index v) :
    Linked next (out ++ [segment ++ [v]]) index low below frames left := by
  have component := linked.above_component nothing root
  obtain ⟨-, orderBelow, -⟩ := List.pairwise_append.mp linked.stackOrder
  obtain ⟨under, orderBelow⟩ := List.pairwise_cons.mp orderBelow
  obtain ⟨aboveFrames, orderFrames⟩ := List.pairwise_cons.mp linked.frameOrder
  have sub : ∀ u ∈ below, u ∈ segment ++ v :: below :=
    fun u h => List.mem_append_right _ (List.mem_cons_of_mem v h)
  have inside_or : ∀ u ∈ segment ++ v :: below, u ∈ segment ++ [v] ∨ u ∈ below := by
    intro u h
    rw [List.append_cons] at h
    exact List.mem_append.mp h
  have stays : ∀ u ∈ segment ++ v :: below, index u < index v → u ∈ below := by
    intro u h less
    refine (inside_or u h).resolve_left fun inside => ?_
    have le := ((linked.mem_above u).mp inside).2
    omega
  have flat : ∀ u, u ∈ (out ++ [segment ++ [v]]).flatten ↔ u ∈ out.flatten ∨ u ∈ segment ++ [v] := by
    intro u
    rw [List.flatten_append, List.mem_append, List.flatten_singleton]
  constructor
  · exact forall_snoc linked.components component
  · rw [List.flatten_append, List.flatten_singleton, List.nodup_append]
    refine ⟨linked.once, component.distinct, fun x done y inside same => ?_⟩
    rw [same] at done
    exact linked.apart y ((linked.mem_above y).mp inside).1 done
  · intro u done w step
    rw [flat] at done ⊢
    rcases done with done | inside
    · exact .inl (linked.closed u done w step)
    · exact linked.above_settled nothing root u inside w step
  · intro u listed
    rw [flat, not_or]
    refine ⟨linked.apart u (sub u listed), fun inside => ?_⟩
    have le := ((linked.mem_above u).mp inside).2
    have less := under u listed
    omega
  · exact orderBelow
  · exact orderFrames
  · intro f frame
    exact stays f (linked.frameListed f (List.mem_cons_of_mem v frame)) (aboveFrames f frame)
  · exact linked.leftFrame_tail nothing
  · intro u listed
    obtain ⟨f, frame, le⟩ := linked.covered u (sub u listed)
    have less := under u listed
    rcases List.mem_cons.mp frame with rfl | frame
    · omega
    · exact ⟨f, frame, le⟩
  · intro f frame u listed
    exact linked.reaches f (List.mem_cons_of_mem v frame) u (sub u listed)
  · intro u listed
    exact linked.lowLe u (sub u listed)
  · intro u listed
    obtain ⟨w, there, same, path⟩ := linked.lowest u (sub u listed)
    have le := linked.lowLe u (sub u listed)
    have less := under u listed
    exact ⟨w, stays w there (by omega), same, path⟩
  · intro f frame u listed le between
    refine linked.handed f (List.mem_cons_of_mem v frame) u (sub u listed) le fun g other less => ?_
    rcases List.mem_cons.mp other with rfl | other
    · exact under u listed
    · exact between g other less
  · intro u listed frameless
    refine linked.finished u (sub u listed) fun frame => ?_
    rcases List.mem_cons.mp frame with rfl | frame
    · exact absurd (under u listed) (Nat.lt_irrefl _)
    · exact frameless frame
  · intro u listed w step
    rcases linked.scanned u (sub u listed) w step with still | done | ⟨there, le⟩
    · exact .inl still
    · exact .inr (.inl ((flat w).mpr (.inl done)))
    · rcases inside_or w there with inside | there
      · exact .inr (.inl ((flat w).mpr (.inr inside)))
      · exact .inr (.inr ⟨there, le⟩)

end Linked

end CodeGraph.LowLink
