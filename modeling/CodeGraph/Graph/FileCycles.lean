import CodeGraph.Foundation.InsertionMap
import CodeGraph.Foundation.LowLink
import CodeGraph.Foundation.Text
import CodeGraph.Foundation.Transitions

/-! Circular imports between files. -/
namespace CodeGraph.Graph.FileCycles

open Text InsertionMap LowLink

structure ImportPair where
  source : JsString
  target : JsString
  deriving DecidableEq, Repr

/-- A file of the walk with its edges from `at` on. -/
structure Frame where
  id : JsString
  edges : List JsString

structure Tarjan where
  index : JsString → Option Nat
  low : JsString → Option Nat
  onStack : List JsString
  stack : List JsString
  out : List (List JsString)
  counter : Nat
  work : List Frame

def set (map : JsString → Option Nat) (key : JsString) (value : Nat) : JsString → Option Nat :=
  fun id => if id = key then some value else map id

def visit (edgesOf : JsString → List JsString) (id : JsString) (s : Tarjan) : Tarjan :=
  { s with
    index := set s.index id s.counter
    low := set s.low id s.counter
    counter := s.counter + 1
    stack := id :: s.stack
    onStack := id :: s.onStack
    work := ⟨id, edgesOf id⟩ :: s.work }

def lowered (s : Tarjan) (id : JsString) (value : Option Nat) : Tarjan :=
  { s with low := set s.low id (min ((s.low id).getD 0) (value.getD 0)) }

def followEdge (edgesOf : JsString → List JsString) (id next : JsString) (s : Tarjan) : Tarjan :=
  if (s.index next).isNone then visit edgesOf next s
  else if next ∈ s.onStack then lowered s id (s.index next)
  else s

/-- The files above `id` on the stack, with it, in the order they are popped. -/
def popComponent (id : JsString) :
    List JsString → List JsString → List JsString → List JsString × List JsString × List JsString
  | [], onStack, component => ([], onStack, component)
  | popped :: stack, onStack, component =>
    if popped = id then (stack, onStack.filter (· ≠ popped), component ++ [popped])
    else popComponent id stack (onStack.filter (· ≠ popped)) (component ++ [popped])

def closeComponent (id : JsString) (s : Tarjan) : Tarjan :=
  let popped := popComponent id s.stack s.onStack []
  { s with stack := popped.1, onStack := popped.2.1, out := s.out ++ [popped.2.2] }

def finishFrame (frame : Frame) (s : Tarjan) : Tarjan :=
  let s := if s.low frame.id = s.index frame.id then closeComponent frame.id s else s
  match s.work with
  | [] => s
  | parent :: _ => lowered s parent.id (s.low frame.id)

def tarjanStep (edgesOf : JsString → List JsString) (frame : Frame) (work : List Frame)
    (s : Tarjan) : Tarjan :=
  match frame.edges with
  | next :: edges => followEdge edgesOf frame.id next { s with work := { frame with edges } :: work }
  | [] => finishFrame frame { s with work }

/-- The loop over the work; `none` stands for running out of fuel. -/
def tarjanLoop (edgesOf : JsString → List JsString) : Nat → Tarjan → Option Tarjan
  | 0, _ => none
  | fuel + 1, s =>
    match s.work with
    | [] => some s
    | frame :: work => tarjanLoop edgesOf fuel (tarjanStep edgesOf frame work s)

def tarjanStart (edgesOf : JsString → List JsString) (fuel : Nat) (s : Tarjan) (start : JsString) :
    Option Tarjan :=
  if (s.index start).isSome then some s
  else tarjanLoop edgesOf fuel (visit edgesOf start { s with work := [] })

def rounds (edgesOf : JsString → List JsString) (nodes : List JsString) : Nat :=
  (nodes.map fun id => (edgesOf id).length + 1).sum

def tarjan (nodes : List JsString) (edgesOf : JsString → List JsString) :
    Option (List (List JsString)) :=
  (nodes.foldlM (tarjanStart edgesOf (rounds edgesOf nodes + 1))
    ⟨fun _ => none, fun _ => none, [], [], [], 0, []⟩).map Tarjan.out

/-- By UTF-16 units. -/
def sort (ids : List JsString) : List JsString := ids.insertionSort (· ≤ ·)

def adjacencyOf (pairs : List ImportPair) : List (JsString × List JsString) :=
  pairs.foldl (fun m pair => assign m pair.source ((lookup m pair.source).getD [] ++ [pair.target])) []

def compareGroups (localeCompare : JsString → JsString → Int) (a b : List JsString) : Int :=
  if (a.length : Int) - b.length ≠ 0 then (a.length : Int) - b.length
  else localeCompare (a.headD []) (b.headD [])

def findFileCycles (localeCompare : JsString → JsString → Int) (pairs : List ImportPair) :
    Option (List (List JsString)) :=
  let adjacency := adjacencyOf pairs
  let nodes := sort (adjacency.map Prod.fst ++ (adjacency.map Prod.snd).flatten).dedup
  let sorted := adjacency.map fun e => (e.1, sort e.2)
  (tarjan nodes fun id => (lookup sorted id).getD []).map fun components =>
    ((components.filter (1 < ·.length)).map sort).insertionSort
      fun a b => compareGroups localeCompare a b ≤ 0

/-!
### Cycles are components

File cycles are the strongly connected components of more than one file.
-/

open Relation

variable {edgesOf : JsString → List JsString} {s : Tarjan} {frame : Frame} {work : List Frame}
  {id next : JsString} {edges : List JsString}

/-! ### The state of the walk -/

def Left (work : List Frame) (u v : JsString) : Prop := ∃ f ∈ work, f.id = u ∧ v ∈ f.edges

def indexOf (s : Tarjan) (id : JsString) : Nat := (s.index id).getD 0

def lowOf (s : Tarjan) (id : JsString) : Nat := (s.low id).getD 0

structure Walked (edgesOf : JsString → List JsString) (s : Tarjan) : Prop where
  linked : Linked edgesOf s.out (indexOf s) (lowOf s) s.stack (s.work.map Frame.id) (Left s.work)
  onStack : ∀ x, x ∈ s.onStack ↔ x ∈ s.stack
  indexed : ∀ x, (s.index x).isSome ↔ x ∈ s.stack ∨ x ∈ s.out.flatten
  low : ∀ x, (s.low x).isSome ↔ (s.index x).isSome
  counter : ∀ x i, s.index x = some i → i < s.counter

theorem set_self (map : JsString → Option Nat) (value : Nat) : set map id value id = some value :=
  if_pos rfl

theorem set_other {map : JsString → Option Nat} {value : Nat} {x : JsString} (other : x ≠ id) :
    set map id value x = map x := if_neg other

theorem set_isSome {map : JsString → Option Nat} {value : Nat} {x : JsString} :
    (set map id value x).isSome ↔ x = id ∨ (map x).isSome := by
  by_cases here : x = id
  · simp [set, here]
  · simp [set, here]

theorem Walked.apart (walked : Walked edgesOf s) (top : s.work = frame :: work) {f : Frame}
    (below : f ∈ work) : f.id ≠ frame.id := by
  have order := walked.linked.frameOrder
  rw [top, List.map_cons, List.pairwise_cons] at order
  intro same
  have less := order.1 f.id (List.mem_map_of_mem below)
  rw [same] at less
  exact Nat.lt_irrefl _ less

theorem Walked.top_listed (walked : Walked edgesOf s) (top : s.work = frame :: work) :
    frame.id ∈ s.stack := by
  refine walked.linked.frameListed frame.id ?_
  rw [top]
  exact List.mem_cons_self

theorem Walked.index_lt (walked : Walked edgesOf s) (listed : id ∈ s.stack) :
    indexOf s id < s.counter := by
  obtain ⟨i, found⟩ := Option.isSome_iff_exists.mp ((walked.indexed id).mpr (.inl listed))
  rw [indexOf, found]
  exact walked.counter id i found

theorem Walked.unindexed (walked : Walked edgesOf s) (new : (s.index id).isNone) :
    id ∉ s.stack ∧ id ∉ s.out.flatten := by
  rw [← not_or, ← walked.indexed id]
  simpa using new

theorem visit_walked (walked : Walked edgesOf s) (new : (s.index id).isNone)
    (reached : ∀ f ∈ s.work.map Frame.id, Reach edgesOf f id) :
    Walked edgesOf (visit edgesOf id s) := by
  obtain ⟨unlisted, unknown⟩ := walked.unindexed new
  have other : ∀ u ∈ s.stack, u ≠ id := fun u listed same => unlisted (same ▸ listed)
  refine ⟨?_, fun x => ?_, fun x => ?_, fun x => ?_, fun x i found => ?_⟩
  · refine walked.linked.enter (indexOf (visit edgesOf id s))
      (lowOf (visit edgesOf id s)) unknown unlisted (fun u listed => ?_) reached ?_
      (fun u listed => ?_) (fun u listed => ?_) fun u v => ?_
    · have own : indexOf (visit edgesOf id s) id = s.counter := by simp [indexOf, visit, set]
      rw [own]
      exact walked.index_lt listed
    · simp [indexOf, lowOf, visit, set]
    · simp [indexOf, visit, set_other (other u listed)]
    · simp [lowOf, visit, set_other (other u listed)]
    · simp only [Left, visit, List.mem_cons, exists_eq_or_imp]
      exact or_congr_left ⟨fun ⟨same, member⟩ => ⟨same.symm, member⟩,
        fun ⟨same, member⟩ => ⟨same.symm, member⟩⟩
  · simp only [visit, List.mem_cons, walked.onStack]
  · simp only [visit, set_isSome, walked.indexed, List.mem_cons, or_assoc]
  · simp only [visit, set_isSome, walked.low]
  · simp only [visit] at found ⊢
    by_cases here : x = id
    · rw [here, set_self] at found
      cases found
      exact Nat.lt_succ_self _
    · rw [set_other here] at found
      exact Nat.lt_succ_of_lt (walked.counter x i found)

variable (s) in
/-- A frame is through with an edge to a component, or to a file no lower than its low link. -/
theorem consume_walked (above : List Frame)
    (walked : Walked edgesOf { s with work := above ++ ⟨id, next :: edges⟩ :: work })
    (settled : next ∈ s.out.flatten ∨ next ∈ s.stack ∧ lowOf s id ≤ indexOf s next) :
    Walked edgesOf { s with work := above ++ ⟨id, edges⟩ :: work } := by
  have ids : (above ++ Frame.mk id edges :: work).map Frame.id =
      (above ++ Frame.mk id (next :: edges) :: work).map Frame.id := by simp
  refine ⟨?_, walked.onStack, walked.indexed, walked.low, walked.counter⟩
  simp only [ids]
  refine walked.linked.consume ?_ ?_
  · rintro u v ⟨f, member, rfl, left⟩
    rcases List.mem_append.mp member with h | h
    · exact ⟨f, List.mem_append_left _ h, rfl, left⟩
    · rcases List.mem_cons.mp h with rfl | h
      · exact ⟨_, List.mem_append_right _ List.mem_cons_self, rfl, List.mem_cons_of_mem next left⟩
      · exact ⟨f, List.mem_append_right _ (List.mem_cons_of_mem _ h), rfl, left⟩
  · rintro u v ⟨f, member, rfl, left⟩
    rcases List.mem_append.mp member with h | h
    · exact .inl ⟨f, List.mem_append_left _ h, rfl, left⟩
    · rcases List.mem_cons.mp h with rfl | h
      · rcases List.mem_cons.mp left with rfl | left
        · exact .inr settled
        · exact .inl ⟨_, List.mem_append_right _ List.mem_cons_self, rfl, left⟩
      · exact .inl ⟨f, List.mem_append_right _ (List.mem_cons_of_mem _ h), rfl, left⟩

/-- A frame's low link becomes the smaller of it and of the index of something it reaches. -/
theorem lowered_walked (walked : Walked edgesOf s) (isFrame : id ∈ s.work.map Frame.id)
    (value : Option Nat)
    (target : ∃ w ∈ s.stack, indexOf s w = value.getD 0 ∧ Reach edgesOf id w) :
    Walked edgesOf (lowered s id value) := by
  have listed := walked.linked.frameListed id isFrame
  refine ⟨?_, walked.onStack, walked.indexed, fun x => ?_, walked.counter⟩
  · refine walked.linked.lower (lowOf (lowered s id value)) isFrame ?_ ?_ fun x other => ?_
    · simp only [lowOf, lowered, set_self, Option.getD_some]
      by_cases le : (s.low id).getD 0 ≤ value.getD 0
      · rw [Nat.min_eq_left le]
        exact walked.linked.lowest id listed
      · rw [Nat.min_eq_right (by omega)]
        exact target
    · simp only [lowOf, lowered, set_self, Option.getD_some]
      exact Nat.min_le_left _ _
    · simp only [lowOf, lowered, set_other other]
  · have some_ := (walked.indexed id).mpr (.inl listed)
    simp only [lowered, set_isSome, walked.low]
    exact ⟨fun h => h.elim (fun same => same ▸ some_) fun h => h, .inr⟩

theorem followEdge_walked (walked : Walked edgesOf s) (top : s.work = ⟨id, next :: edges⟩ :: work) :
    Walked edgesOf (followEdge edgesOf id next { s with work := ⟨id, edges⟩ :: work }) := by
  obtain ⟨index, low, onStack, stack, out, counter, work'⟩ := s
  subst top
  have listed : id ∈ stack := walked.top_listed rfl
  have step : next ∈ edgesOf id :=
    (walked.linked.leftFrame id next ⟨_, List.mem_cons_self, rfl, List.mem_cons_self⟩).2
  rw [followEdge]
  split
  · next new =>
    have under : ∀ f ∈ (Frame.mk id (next :: edges) :: work).map Frame.id, Reach edgesOf f next :=
      fun f isFrame =>
        (walked.linked.reaches f isFrame id listed (walked.linked.top_frame isFrame)).tail step
    have other : id ≠ next := fun same => (walked.unindexed new).1 (same ▸ listed)
    refine consume_walked (visit edgesOf next ⟨index, low, onStack, stack, out, counter, work⟩)
      [⟨next, edgesOf next⟩] (visit_walked walked new under)
      (.inr ⟨List.mem_cons_self, ?_⟩)
    have le := walked.linked.lowLe id listed
    have less := walked.index_lt listed
    simp only [lowOf, indexOf, visit, set_other other, set_self, Option.getD_some] at le less ⊢
    omega
  next old =>
  split
  · next there =>
    have member : next ∈ stack := (walked.onStack next).mp there
    have low' := lowered_walked walked List.mem_cons_self (index next)
      ⟨next, member, rfl, .single step⟩
    refine consume_walked (lowered ⟨index, low, onStack, stack, out, counter, work⟩ id (index next))
      [] low' (.inr ⟨member, ?_⟩)
    simp only [lowOf, lowered, set_self, Option.getD_some]
    exact Nat.min_le_right _ _
  · next absent =>
    have known : next ∈ stack ∨ next ∈ out.flatten := by
      refine (walked.indexed next).mp ?_
      simpa [Option.isSome_iff_ne_none] using old
    refine consume_walked ⟨index, low, onStack, stack, out, counter, work⟩ [] walked
      (.inl (known.resolve_left fun member => absent ((walked.onStack next).mpr member)))

/-! ### The end of a frame -/

theorem popComponent_segment {segment below : List JsString} (unlisted : id ∉ segment)
    (onStack component : List JsString) :
    popComponent id (segment ++ id :: below) onStack component =
      (below, onStack.filter (· ∉ segment ++ [id]), component ++ (segment ++ [id])) := by
  induction segment generalizing onStack component with
  | nil => simp [popComponent]
  | cons popped segment ih =>
    have other : popped ≠ id := fun same => unlisted (same ▸ List.mem_cons_self)
    rw [List.cons_append, popComponent, if_neg other,
      ih (fun listed => unlisted (List.mem_cons_of_mem popped listed)), List.filter_filter]
    refine Prod.ext rfl (Prod.ext ?_ ?_)
    · refine List.filter_congr fun x _ => ?_
      by_cases here : x = popped <;> simp [here]
    · simp

/-- A frame without edges has none left. -/
theorem Walked.left_nothing (walked : Walked edgesOf s) (top : s.work = ⟨id, []⟩ :: work)
    (x : JsString) : ¬Left s.work id x := by
  rw [top]
  rintro ⟨f, member, same, left⟩
  rcases List.mem_cons.mp member with rfl | member
  · cases left
  · exact walked.apart top member same

theorem closeComponent_walked (walked : Walked edgesOf s) (top : s.work = ⟨id, []⟩ :: work)
    (root : s.low id = s.index id) : Walked edgesOf (closeComponent id { s with work }) := by
  have nothing := walked.left_nothing top
  obtain ⟨index, low, onStack, stack, out, counter, work'⟩ := s
  subst top
  obtain ⟨segment, below, rfl⟩ := List.append_of_mem (walked.top_listed rfl)
  have apart := (List.nodup_append.mp walked.linked.stack_nodup).2.2
  have unlisted : id ∉ segment := fun listed => apart id listed id List.mem_cons_self rfl
  have linked := walked.linked.close nothing (congrArg (Option.getD · 0) root)
  have parts := List.append_cons segment id below
  have unlisted' : ∀ x ∈ below, x ∉ segment ++ [id] := by
    intro x under above
    have nodup := walked.linked.stack_nodup
    rw [parts] at nodup
    exact (List.nodup_append.mp nodup).2.2 x above x under rfl
  simp only [closeComponent, popComponent_segment unlisted, List.nil_append]
  refine ⟨?_, fun x => ?_, fun x => ?_, walked.low, walked.counter⟩
  · refine linked.consume ?_ ?_
    · rintro u v ⟨f, member, same, left⟩
      exact ⟨f, List.mem_cons_of_mem _ member, same, left⟩
    · rintro u v ⟨f, member, rfl, left⟩
      rcases List.mem_cons.mp member with rfl | member
      · cases left
      · exact .inl ⟨f, member, rfl, left⟩
  · rw [List.mem_filter, walked.onStack, decide_eq_true_eq, parts, List.mem_append]
    exact ⟨fun h => h.1.resolve_left h.2, fun h => ⟨.inr h, unlisted' x h⟩⟩
  · rw [walked.indexed, parts, List.mem_append, List.flatten_append, List.flatten_singleton,
      List.mem_append (t := segment ++ [id])]
    tauto

/-- A frame goes whose file is not the root of a component. -/
theorem leave_walked {parent : Frame} (walked : Walked edgesOf s)
    (top : s.work = ⟨id, []⟩ :: parent :: work) (smaller : lowOf s id < indexOf s id)
    (passed : lowOf s parent.id ≤ lowOf s id) : Walked edgesOf { s with work := parent :: work } := by
  have nothing := walked.left_nothing top
  obtain ⟨index, low, onStack, stack, out, counter, work'⟩ := s
  subst top
  have linked := walked.linked.leave nothing smaller passed
  refine ⟨?_, walked.onStack, walked.indexed, walked.low, walked.counter⟩
  refine linked.consume ?_ ?_
  · rintro u v ⟨f, member, same, left⟩
    exact ⟨f, List.mem_cons_of_mem _ member, same, left⟩
  · rintro u v ⟨f, member, rfl, left⟩
    rcases List.mem_cons.mp member with rfl | member
    · cases left
    · exact .inl ⟨f, member, rfl, left⟩

variable (s id) in
theorem lowered_same (value : Option Nat) (known : (s.low id).isSome)
    (le : lowOf s id ≤ value.getD 0) : lowered s id value = s := by
  obtain ⟨l, found⟩ := Option.isSome_iff_exists.mp known
  rw [lowOf, found, Option.getD_some] at le
  have same : set s.low id (min ((s.low id).getD 0) (value.getD 0)) = s.low := by
    funext x
    by_cases here : x = id
    · rw [here, set_self, found, Option.getD_some, Nat.min_eq_left le]
    · exact set_other here
  rw [lowered, same]

theorem Walked.parent_index {parent : Frame} (walked : Walked edgesOf s)
    (top : s.work = frame :: parent :: work) : indexOf s parent.id < indexOf s frame.id := by
  have order := walked.linked.frameOrder
  rw [top, List.map_cons, List.pairwise_cons] at order
  exact order.1 parent.id List.mem_cons_self

theorem Walked.last_root (walked : Walked edgesOf s) (top : s.work = [frame]) :
    indexOf s frame.id ≤ lowOf s frame.id := by
  obtain ⟨w, listed, same, -⟩ := walked.linked.lowest frame.id (walked.top_listed top)
  obtain ⟨f, isFrame, le⟩ := walked.linked.covered w listed
  rw [top] at isFrame
  rw [List.mem_singleton.mp isFrame, same] at le
  exact le

theorem finishFrame_walked (walked : Walked edgesOf s) (top : s.work = ⟨id, []⟩ :: work) :
    Walked edgesOf (finishFrame ⟨id, []⟩ { s with work }) := by
  have listed : id ∈ s.stack := walked.top_listed top
  have le := walked.linked.lowLe id listed
  by_cases root : s.low id = s.index id
  · have closed := closeComponent_walked walked top root
    simp only [finishFrame, if_pos root]
    cases work with
    | nil => exact closed
    | cons parent work =>
      have held : parent.id ∈ s.stack := by
        refine walked.linked.frameListed parent.id ?_
        rw [top]
        exact List.mem_cons_of_mem _ List.mem_cons_self
      have known := (walked.low parent.id).mpr ((walked.indexed parent.id).mpr (.inl held))
      have under : indexOf s parent.id < indexOf s id := walked.parent_index top
      have most := walked.linked.lowLe parent.id held
      have equal : lowOf s id = indexOf s id := congrArg (Option.getD · 0) root
      have same := lowered_same (closeComponent id { s with work := parent :: work }) parent.id
        (s.low id) known (by
          change lowOf s parent.id ≤ lowOf s id
          omega)
      simp only [closeComponent] at same ⊢
      rw [same]
      exact closed
  · simp only [finishFrame, if_neg root]
    have known := (walked.indexed id).mpr (.inl listed)
    obtain ⟨i, index⟩ := Option.isSome_iff_exists.mp known
    obtain ⟨l, low⟩ := Option.isSome_iff_exists.mp ((walked.low id).mpr known)
    have smaller : lowOf s id < indexOf s id := by
      have differ : l ≠ i := fun same => root (by rw [index, low, same])
      simp only [lowOf, indexOf, index, low, Option.getD_some] at le ⊢
      omega
    cases work with
    | nil =>
      have last := walked.last_root top
      simp only at last
      omega
    | cons parent work =>
      have isFrame : parent.id ∈ s.work.map Frame.id := by
        rw [top]
        exact List.mem_cons_of_mem _ List.mem_cons_self
      have under : indexOf s parent.id < indexOf s id := walked.parent_index top
      have down := walked.linked.reaches parent.id isFrame id listed (Nat.le_of_lt under)
      obtain ⟨w, there, same, path⟩ := walked.linked.lowest id listed
      have low' := lowered_walked walked isFrame (s.low id) ⟨w, there, same, down.trans path⟩
      have other : id ≠ parent.id := fun same => by
        rw [← same] at under
        exact Nat.lt_irrefl _ under
      have kept : lowOf (lowered s parent.id (s.low id)) id = lowOf s id := by
        simp only [lowOf, lowered, set_other other]
      refine leave_walked low' top ?_ ?_
      · rw [kept]
        exact smaller
      · rw [kept]
        simp only [lowOf, lowered, set_self, Option.getD_some]
        exact Nat.min_le_right _ _

theorem tarjanStep_walked (walked : Walked edgesOf s) (top : s.work = frame :: work) :
    Walked edgesOf (tarjanStep edgesOf frame work s) := by
  obtain ⟨id, edges⟩ := frame
  cases edges with
  | nil => exact finishFrame_walked walked top
  | cons next edges => exact followEdge_walked walked top

/-! ### The walk ends -/

variable {nodes : List JsString}

def unindexed (nodes : List JsString) (s : Tarjan) : List JsString :=
  nodes.filter fun id => (s.index id).isNone

def roundsLeft (edgesOf : JsString → List JsString) (nodes : List JsString) (s : Tarjan) : Nat :=
  rounds edgesOf (unindexed nodes s) + (s.work.map fun f => f.edges.length + 1).sum

theorem visit_rounds (distinct : nodes.Nodup) (member : id ∈ nodes) (new : (s.index id).isNone) :
    roundsLeft edgesOf nodes (visit edgesOf id s) = roundsLeft edgesOf nodes s := by
  have without : unindexed nodes (visit edgesOf id s) = (unindexed nodes s).erase id := by
    simp only [unindexed]
    rw [(distinct.filter _).erase_eq_filter, List.filter_filter]
    refine List.filter_congr fun x _ => ?_
    by_cases here : x = id
    · simp [visit, set, here]
    · simp [visit, set, here]
  have listed : id ∈ unindexed nodes s := List.mem_filter.mpr ⟨member, new⟩
  have perm := (List.perm_cons_erase listed).map fun x => (edgesOf x).length + 1
  have total := perm.sum_nat
  rw [List.map_cons, List.sum_cons] at total
  simp only [roundsLeft, rounds, without, total]
  simp only [visit, List.map_cons, List.sum_cons]
  omega

theorem followEdge_rounds (distinct : nodes.Nodup) (member : next ∈ nodes)
    (top : s.work = ⟨id, next :: edges⟩ :: work) :
    roundsLeft edgesOf nodes (followEdge edgesOf id next { s with work := ⟨id, edges⟩ :: work }) + 1 =
      roundsLeft edgesOf nodes s := by
  have less : roundsLeft edgesOf nodes { s with work := ⟨id, edges⟩ :: work } + 1 =
      roundsLeft edgesOf nodes s := by
    simp only [roundsLeft, unindexed, top, List.map_cons, List.sum_cons, List.length_cons]
    omega
  rw [followEdge]
  split
  · next new => rw [visit_rounds distinct member new, less]
  · split <;> exact less

theorem finishFrame_rounds (top : s.work = ⟨id, []⟩ :: work) :
    roundsLeft edgesOf nodes (finishFrame ⟨id, []⟩ { s with work }) + 1 =
      roundsLeft edgesOf nodes s := by
  have less : roundsLeft edgesOf nodes { s with work } + 1 = roundsLeft edgesOf nodes s := by
    simp only [roundsLeft, unindexed, top, List.map_cons, List.sum_cons, List.length_nil]
    omega
  by_cases root : s.low id = s.index id
  · simp only [finishFrame, if_pos root]
    cases work <;> exact less
  · simp only [finishFrame, if_neg root]
    cases work <;> exact less

theorem tarjanStep_rounds (distinct : nodes.Nodup) (targets : ∀ a, ∀ b ∈ edgesOf a, b ∈ nodes)
    (walked : Walked edgesOf s) (top : s.work = frame :: work) :
    roundsLeft edgesOf nodes (tarjanStep edgesOf frame work s) + 1 = roundsLeft edgesOf nodes s := by
  obtain ⟨id, edges⟩ := frame
  cases edges with
  | nil => exact finishFrame_rounds top
  | cons next edges =>
    have left : Left s.work id next :=
      ⟨⟨id, next :: edges⟩, by rw [top]; exact List.mem_cons_self, rfl, List.mem_cons_self⟩
    exact followEdge_rounds distinct (targets id next (walked.linked.leftFrame id next left).2) top

theorem tarjanStep_index {x : JsString} (known : (s.index x).isSome) :
    ((tarjanStep edgesOf frame work s).index x).isSome := by
  have followed : ∀ next edges,
      ((followEdge edgesOf frame.id next { s with work := ⟨frame.id, edges⟩ :: work }).index x).isSome := by
    intro next edges
    rw [followEdge]
    split
    · simp only [visit, set_isSome, known, or_true]
    · split <;> exact known
  have done : ((finishFrame frame { s with work }).index x).isSome := by
    simp only [finishFrame]
    split <;> split <;> exact known
  rw [tarjanStep]
  cases frame.edges with
  | nil => exact done
  | cons next edges => exact followed next edges

theorem tarjanLoop_walked (distinct : nodes.Nodup) (targets : ∀ a, ∀ b ∈ edgesOf a, b ∈ nodes)
    {fuel : Nat} (walked : Walked edgesOf s) (enough : roundsLeft edgesOf nodes s < fuel) :
    ∃ t, tarjanLoop edgesOf fuel s = some t ∧ Walked edgesOf t ∧ t.work = [] ∧
      ∀ x, (s.index x).isSome → (t.index x).isSome := by
  induction fuel generalizing s with
  | zero => omega
  | succ fuel ih =>
    rw [tarjanLoop]
    cases top : s.work with
    | nil => exact ⟨s, rfl, walked, top, fun _ known => known⟩
    | cons frame work =>
      have less := tarjanStep_rounds distinct targets walked top
      obtain ⟨t, run, walked', done, grown⟩ := ih (tarjanStep_walked walked top) (by omega)
      exact ⟨t, run, walked', done, fun x known => grown x (tarjanStep_index known)⟩

structure Between (edgesOf : JsString → List JsString) (s : Tarjan) : Prop where
  walked : Walked edgesOf s
  done : s.work = []

theorem tarjanStart_between (distinct : nodes.Nodup) (targets : ∀ a, ∀ b ∈ edgesOf a, b ∈ nodes)
    {start : JsString} (member : start ∈ nodes) (between : Between edgesOf s) :
    ∃ t, tarjanStart edgesOf (rounds edgesOf nodes + 1) s start = some t ∧ Between edgesOf t ∧
      (t.index start).isSome ∧ ∀ x, (s.index x).isSome → (t.index x).isSome := by
  rw [tarjanStart]
  split
  · next known => exact ⟨s, rfl, between, known, fun _ h => h⟩
  next new =>
  have idle : { s with work := [] } = s := by
    rw [← between.done]
  rw [idle]
  have new' : (s.index start).isNone := by simpa [Option.isNone_iff_eq_none] using new
  have visited := visit_walked between.walked new' (by simp [between.done])
  have few : roundsLeft edgesOf nodes (visit edgesOf start s) ≤ rounds edgesOf nodes := by
    rw [visit_rounds distinct member new', roundsLeft, between.done]
    exact (List.filter_sublist.map _).sum_le_sum (by simp)
  obtain ⟨t, run, walked, done, grown⟩ :=
    tarjanLoop_walked distinct targets visited (Nat.lt_succ_of_le few)
  refine ⟨t, run, ⟨walked, done⟩, grown start ?_, fun x known => grown x ?_⟩
  · simp only [visit, set_self, Option.isSome_some]
  · simp only [visit, set_isSome, known, or_true]

theorem tarjanStarts_between (distinct : nodes.Nodup) (targets : ∀ a, ∀ b ∈ edgesOf a, b ∈ nodes)
    {starts : List JsString} (sub : starts ⊆ nodes) (between : Between edgesOf s) :
    ∃ t, starts.foldlM (tarjanStart edgesOf (rounds edgesOf nodes + 1)) s = some t ∧
      Between edgesOf t ∧ (∀ x, (s.index x).isSome → (t.index x).isSome) ∧
      ∀ x ∈ starts, (t.index x).isSome := by
  induction starts generalizing s with
  | nil => exact ⟨s, rfl, between, fun _ known => known, fun _ none_ => nomatch none_⟩
  | cons start starts ih =>
    obtain ⟨m, run, between', here, grown⟩ :=
      tarjanStart_between distinct targets (sub List.mem_cons_self) between
    obtain ⟨t, runs, between'', grown', all⟩ :=
      ih (fun x h => sub (List.mem_cons_of_mem start h)) between'
    refine ⟨t, ?_, between'', fun x known => grown' x (grown x known), fun x member => ?_⟩
    · rw [List.foldlM_cons, run]
      exact runs
    · rcases List.mem_cons.mp member with rfl | member
      · exact grown' x here
      · exact all x member

variable (edgesOf) in
/-- The components found are the strongly connected components of the files. -/
theorem tarjan_components (distinct : nodes.Nodup) (targets : ∀ a, ∀ b ∈ edgesOf a, b ∈ nodes) :
    ∃ out, tarjan nodes edgesOf = some out ∧ (∀ c ∈ out, Component (Step edgesOf) c) ∧
      out.flatten.Nodup ∧ ∀ x ∈ nodes, x ∈ out.flatten := by
  have start : Between edgesOf ⟨fun _ => none, fun _ => none, [], [], [], 0, []⟩ := by
    refine ⟨⟨Linked.start edgesOf _ _ _ ?_, ?_, ?_, ?_, ?_⟩, rfl⟩ <;> simp [Left]
  obtain ⟨t, run, ⟨walked, done⟩, -, all⟩ :=
    tarjanStarts_between distinct targets (List.Subset.refl nodes) start
  have linked := walked.linked
  rw [done] at linked
  refine ⟨t.out, by rw [tarjan, run]; rfl, linked.components, linked.once, fun x member => ?_⟩
  have known := (walked.indexed x).mp (all x member)
  rw [linked.stack_nil] at known
  exact known.resolve_left List.not_mem_nil

variable {pairs : List ImportPair}

def Imports (pairs : List ImportPair) (a b : JsString) : Prop := ⟨a, b⟩ ∈ pairs

private theorem adjacency_loop (m : List (JsString × List JsString)) (a : JsString) :
    (lookup (pairs.foldl (fun m pair =>
        assign m pair.source ((lookup m pair.source).getD [] ++ [pair.target])) m) a).getD [] =
      (lookup m a).getD [] ++ (pairs.filter (·.source = a)).map ImportPair.target := by
  induction pairs generalizing m with
  | nil => simp
  | cons pair pairs ih =>
    rw [List.foldl_cons, ih, lookup_assign, List.filter_cons]
    by_cases same : a = pair.source
    · simp [same]
    · have other : ¬pair.source = a := fun h => same h.symm
      simp [same, other]

theorem adjacencyOf_targets (a : JsString) :
    (lookup (adjacencyOf pairs) a).getD [] = (pairs.filter (·.source = a)).map ImportPair.target :=
  adjacency_loop [] a

theorem mem_sort {ids : List JsString} {x : JsString} : x ∈ sort ids ↔ x ∈ ids :=
  (List.perm_insertionSort _ _).mem_iff

theorem step_imports :
    Step (fun id => (lookup ((adjacencyOf pairs).map fun e => (e.1, sort e.2)) id).getD []) =
      Imports pairs := by
  funext a b
  refine propext ?_
  have sorted : ∀ entry : Option (List JsString), b ∈ (entry.map sort).getD [] ↔ b ∈ entry.getD [] := by
    intro entry
    cases entry with
    | none => exact Iff.rfl
    | some ids => exact mem_sort
  rw [Step, lookup_map, sorted, adjacencyOf_targets, List.mem_map]
  constructor
  · rintro ⟨⟨source, target⟩, member, rfl⟩
    obtain ⟨listed, same⟩ := List.mem_filter.mp member
    have equal : source = a := by simpa using same
    exact equal ▸ listed
  · intro listed
    exact ⟨⟨a, b⟩, List.mem_filter.mpr ⟨listed, by simp⟩, rfl⟩

theorem target_listed {a b : JsString} (imports : Imports pairs a b) :
    b ∈ ((adjacencyOf pairs).map Prod.snd).flatten := by
  have target : b ∈ (lookup (adjacencyOf pairs) a).getD [] := by
    rw [adjacencyOf_targets]
    exact List.mem_map.mpr ⟨⟨a, b⟩, List.mem_filter.mpr ⟨imports, by simp⟩, rfl⟩
  cases found : lookup (adjacencyOf pairs) a with
  | none =>
    rw [found] at target
    cases target
  | some ids =>
    rw [found] at target
    exact List.mem_flatten.mpr ⟨ids, List.mem_map.mpr ⟨_, mem_of_lookup found, rfl⟩, target⟩

/-! ### The groups -/

theorem Component.of_perm {R : JsString → JsString → Prop} {c d : List JsString}
    (component : Component R c) (perm : d.Perm c) : Component R d := by
  refine ⟨fun none_ => component.nonempty ?_, perm.nodup_iff.mpr component.distinct, fun a member b => ?_⟩
  · rw [none_] at perm
    exact perm.nil_eq.symm
  · rw [perm.mem_iff]
    exact component.whole a (perm.mem_iff.mp member) b

theorem Component.perm {R : JsString → JsString → Prop} {c d : List JsString} {x : JsString}
    (first : Component R c) (second : Component R d) (inFirst : x ∈ c) (inSecond : x ∈ d) :
    c.Perm d :=
  (List.perm_ext_iff_of_nodup first.distinct second.distinct).mpr fun y =>
    (first.whole x inFirst y).trans (second.whole x inSecond y).symm

theorem sorted_eq {c d : List JsString} (perm : c.Perm d) (first : c.Pairwise (· ≤ ·))
    (second : d.Pairwise (· ≤ ·)) : c = d :=
  List.Perm.eq_of_pairwise (fun _ _ _ _ le ge => List.le_antisymm le ge) first second
    perm

theorem two_le {c : List JsString} {a b : JsString} (ha : a ∈ c) (hb : b ∈ c) (other : a ≠ b) :
    2 ≤ c.length := by
  have sub : [a, b] ⊆ c := by
    intro x member
    rcases List.mem_cons.mp member with rfl | last
    · exact ha
    · exact List.mem_singleton.mp last ▸ hb
  exact (List.subperm_of_subset (List.nodup_cons.mpr ⟨by simpa using other, List.nodup_singleton b⟩)
    sub).length_le

theorem imported {R : JsString → JsString → Prop} {a b : JsString} (other : a ≠ b)
    (mutual_ : Mutual R a b) : ∃ c, R c a := by
  rcases mutual_.2.cases_tail with same | ⟨c, -, step⟩
  · exact absurd same other
  · exact ⟨c, step⟩

/-- What is returned: sorted components of more than one file, for all files that have one, and no
file in two of them. -/
theorem findFileCycles_returns (localeCompare : JsString → JsString → Int) (pairs : List ImportPair) :
    ∃ groups, findFileCycles localeCompare pairs = some groups ∧ groups.flatten.Nodup ∧
      (∀ group ∈ groups, Component (Imports pairs) group ∧ 2 ≤ group.length ∧
        group.Pairwise (· ≤ ·)) ∧
      ∀ a b, a ≠ b → Mutual (Imports pairs) a b → ∃ group ∈ groups, a ∈ group := by
  have distinct : (sort ((adjacencyOf pairs).map Prod.fst ++
      ((adjacencyOf pairs).map Prod.snd).flatten).dedup).Nodup :=
    (List.perm_insertionSort _ _).nodup_iff.mpr (List.nodup_dedup _)
  have listed : ∀ a b, Imports pairs a b → b ∈ sort ((adjacencyOf pairs).map Prod.fst ++
      ((adjacencyOf pairs).map Prod.snd).flatten).dedup := fun a b imports =>
    mem_sort.mpr (List.mem_dedup.mpr (List.mem_append_right _ (target_listed imports)))
  obtain ⟨out, run, components, once, all⟩ := tarjan_components
    (fun id => (lookup ((adjacencyOf pairs).map fun e => (e.1, sort e.2)) id).getD [])
    distinct fun a b step => listed a b (step_imports ▸ step)
  rw [step_imports] at components
  refine ⟨_, by rw [findFileCycles, run]; rfl, ?_, fun group member => ?_, fun a b other mutual_ => ?_⟩
  · have apart := (List.nodup_flatten.mp once).2.filter (1 < ·.length)
    rw [(List.perm_insertionSort _ _).flatten.nodup_iff, List.nodup_flatten, List.pairwise_map]
    refine ⟨fun l member => ?_, apart.imp fun {c d} disjoint x inFirst inSecond => ?_⟩
    · obtain ⟨c, kept, rfl⟩ := List.mem_map.mp member
      have component := components c (List.mem_filter.mp kept).1
      exact (List.perm_insertionSort _ _).nodup_iff.mpr component.distinct
    · exact disjoint (mem_sort.mp inFirst) (mem_sort.mp inSecond)
  · rw [List.mem_insertionSort, List.mem_map] at member
    obtain ⟨c, kept, rfl⟩ := member
    obtain ⟨found, big⟩ := List.mem_filter.mp kept
    have perm : (sort c).Perm c := List.perm_insertionSort _ _
    refine ⟨Component.of_perm (components c found) perm, ?_, List.pairwise_insertionSort _ _⟩
    rw [perm.length_eq]
    exact of_decide_eq_true big
  · obtain ⟨x, step⟩ := imported other mutual_
    obtain ⟨c, found, inside⟩ := List.mem_flatten.mp (all a (listed x a step))
    have second := ((components c found).whole a inside b).mpr mutual_
    refine ⟨sort c, ?_, mem_sort.mpr inside⟩
    rw [List.mem_insertionSort]
    refine List.mem_map.mpr ⟨c, List.mem_filter.mpr ⟨found, ?_⟩, rfl⟩
    exact decide_eq_true (two_le inside second other)

theorem component_returned {groups : List (List JsString)}
    (sound : ∀ group ∈ groups, Component (Imports pairs) group ∧ 2 ≤ group.length ∧
      group.Pairwise (· ≤ ·))
    (all : ∀ a b, a ≠ b → Mutual (Imports pairs) a b → ∃ group ∈ groups, a ∈ group)
    {c : List JsString} (component : Component (Imports pairs) c) (big : 2 ≤ c.length) :
    ∃ group ∈ groups, group.Perm c := by
  obtain ⟨a, b, rest, rfl⟩ : ∃ a b rest, c = a :: b :: rest := by
    match c, big with
    | a :: b :: rest, _ => exact ⟨a, b, rest, rfl⟩
  have other : a ≠ b := fun same =>
    (List.nodup_cons.mp component.distinct).1 (same ▸ List.mem_cons_self)
  have mutual_ := (component.whole a List.mem_cons_self b).mp
    (List.mem_cons_of_mem a List.mem_cons_self)
  obtain ⟨group, found, inside⟩ := all a b other mutual_
  exact ⟨group, found, Component.perm (sound group found).1 component inside List.mem_cons_self⟩

structure CycleGroups (pairs : List ImportPair) (groups : List (List JsString)) : Prop where
  components : ∀ group ∈ groups, Component (Imports pairs) group ∧ 2 ≤ group.length
  all : ∀ c, Component (Imports pairs) c → 2 ≤ c.length → ∃ group ∈ groups, group.Perm c
  distinct : groups.Nodup
  disjoint : groups.Pairwise List.Disjoint
  together : ∀ a b, a ≠ b → ((∃ group ∈ groups, a ∈ group ∧ b ∈ group) ↔ Mutual (Imports pairs) a b)

/-- The groups are the strongly connected components of more than one file, and the same ones for
the same pairs in any order and number. -/
theorem findFileCycles_exact (localeCompare : JsString → JsString → Int) (pairs : List ImportPair) :
    ∃ groups, findFileCycles localeCompare pairs = some groups ∧ CycleGroups pairs groups ∧
      ∀ pairs', (∀ pair, pair ∈ pairs' ↔ pair ∈ pairs) →
        ∃ groups', findFileCycles localeCompare pairs' = some groups' ∧
          ∀ group, group ∈ groups' ↔ group ∈ groups := by
  obtain ⟨groups, returned, once, sound, all⟩ := findFileCycles_returns localeCompare pairs
  obtain ⟨-, disjoint⟩ := List.nodup_flatten.mp once
  have distinct : groups.Nodup := disjoint.imp_of_mem fun {c d} hc _ apart same => by
    obtain ⟨x, inside⟩ := List.exists_mem_of_ne_nil c (sound c hc).1.nonempty
    exact apart inside (same ▸ inside)
  refine ⟨groups, returned, ⟨fun group h => ⟨(sound group h).1, (sound group h).2.1⟩, ?_, distinct,
    disjoint, fun a b other => ⟨?_, fun mutual_ => ?_⟩⟩, fun pairs' same => ?_⟩
  · exact fun c => component_returned sound all
  · rintro ⟨group, found, ha, hb⟩
    exact ((sound group found).1.whole a ha b).mp hb
  · obtain ⟨group, found, inside⟩ := all a b other mutual_
    exact ⟨group, found, inside, ((sound group found).1.whole a inside b).mpr mutual_⟩
  · have graph : Imports pairs' = Imports pairs := by
      funext a b
      exact propext (same ⟨a, b⟩)
    obtain ⟨groups', returned', -, sound', all'⟩ := findFileCycles_returns localeCompare pairs'
    rw [graph] at sound' all'
    refine ⟨groups', returned', fun group => ⟨fun found => ?_, fun found => ?_⟩⟩
    · obtain ⟨component, big, sorted⟩ := sound' group found
      obtain ⟨other, found', perm⟩ := component_returned sound all component big
      exact sorted_eq perm (sound other found').2.2 sorted ▸ found'
    · obtain ⟨component, big, sorted⟩ := sound group found
      obtain ⟨other, found', perm⟩ := component_returned sound' all' component big
      exact sorted_eq perm (sound' other found').2.2 sorted ▸ found'

example : findFileCycles (fun _ _ => 0) [⟨[1], [2]⟩, ⟨[2], [1]⟩, ⟨[1], [3]⟩, ⟨[3], [2]⟩, ⟨[3], [3]⟩] =
    some [[[1], [2], [3]]] := by decide +kernel

end CodeGraph.Graph.FileCycles
