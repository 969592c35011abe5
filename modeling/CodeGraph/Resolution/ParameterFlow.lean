import CodeGraph.Foundation.Walks

/-!
The class of a parameter from the calls of its method (`resolution/parameter-flow.ts`).
-/
namespace CodeGraph.Resolution.ParameterFlow

open Walks

structure FlowValue where
  type : String
  isClass : Bool
  outside : Bool
  deriving DecidableEq, Repr

structure FlowParameter where
  name : String
  /-- Its place among the positional parameters; -1 for a keyword. -/
  position : Int
  deriving DecidableEq, Repr

structure FlowMethod where
  id : String
  name : String
  deriving DecidableEq, Repr

/-- Why a parameter got no type, or a value none; `unread` stands for the texts of the readers. -/
inductive Abstention where
  | noCaller
  | untypedCall
  | tooManyCalls
  | handedOn
  | rebound
  | writtenElsewhere
  | tooDeep
  | disagree
  | unreadDeclaration
  | cycle
  | unread (why : String)
  deriving DecidableEq, Repr

abbrev Answer := Except Abstention FlowValue

def MAX_FLOW_DEPTH : Nat := 4

def MAX_UNKNOWN_CALLS : Nat := 256

/-- One language's flows over one state of the graph, with what its adapter answers. -/
structure FlowPass (Site Signature : Type) where
  callsInto : FlowMethod → List Site
  known : String → List Site
  unknown : String → List Site
  failed : String → List Site
  targetId : Site → Option String
  writtenElsewhere : String → Bool
  isKnown : Site → Bool
  cannotCall : Site → Signature → Bool
  signature : FlowMethod → Option Signature
  family : FlowMethod → String → Bool
  handsOn : String → Bool
  rebinds : String → FlowMethod → Bool
  /-- The value of the argument, given how a parameter of the calling method is followed. -/
  argumentValue : Site → FlowParameter → (FlowMethod → FlowParameter → Answer) → Answer

variable {Site Signature : Type}

/-- The loop of `passedBy`: an argument that is a parameter being followed adds nothing. -/
def passedBy (passed : Site → Answer) : List Site → Option FlowValue → Except Abstention (Option FlowValue)
  | [], value => .ok value
  | site :: sites, value =>
    match passed site with
    | .error .cycle => passedBy passed sites value
    | .error stop => .error stop
    | .ok v =>
      if value.any fun w => w.type ≠ v.type ∨ w.isClass ≠ v.isClass then .error .disagree
      else passedBy passed sites (some v)

/-- One call of `flow`; `deeper` is how it goes on to a parameter that is not among those followed. -/
def flowFrom (pass : FlowPass Site Signature)
    (deeper : FlowMethod → FlowParameter → List (String × String) → Answer) (method : FlowMethod)
    (parameter : FlowParameter) (path : List (String × String)) : Answer :=
  if pass.writtenElsewhere method.name then .error .writtenElsewhere
  else
    match pass.signature method with
    | none => .error .unreadDeclaration
    | some signature =>
      if pass.rebinds parameter.name method then .error .rebound
      else
        let here := path ++ [(method.id, parameter.name)]
        let passed := fun site => pass.argumentValue site parameter fun m p =>
          if (m.id, p.name) ∈ here then .error .cycle else deeper m p here
        match passedBy passed ((pass.callsInto method).filter pass.isKnown) none with
        | .error stop => .error stop
        | .ok none => .error .noCaller
        | .ok (some value) =>
          let unknown := pass.unknown method.name
          let failed := pass.failed method.name
          if MAX_UNKNOWN_CALLS < unknown.length + failed.length then .error .tooManyCalls
          else if (unknown ++ failed).any fun site => !pass.cannotCall site signature then
            .error .untypedCall
          else if pass.handsOn method.name then .error .handedOn
          else
            let others := (pass.known method.name).filter fun site =>
              pass.targetId site ≠ some method.id
            (passedBy passed (others.filter fun site => (pass.targetId site).any (pass.family method))
              (some value)).map (·.getD value)

/-- The first argument is `MAX_FLOW_DEPTH` less the parameters that are followed, this one
included. -/
def flow (pass : FlowPass Site Signature) :
    Nat → FlowMethod → FlowParameter → List (String × String) → Answer
  | 0 => flowFrom pass fun _ _ _ => .error .tooDeep
  | depth + 1 => flowFrom pass (flow pass depth)

def flowOf (pass : FlowPass Site Signature) (method : FlowMethod) (parameter : FlowParameter) : Answer :=
  flow pass (MAX_FLOW_DEPTH - 1) method parameter []

/-! ### What reaches a parameter -/

abbrev Node := FlowMethod × FlowParameter

def key (x : Node) : String × String := (x.1.id, x.2.name)

def FlowValue.cls (v : FlowValue) : String × Bool := (v.type, v.isClass)

/-- What a call passes: a value of a known class, or a parameter of the calling method. -/
inductive Passed where
  | value (v : FlowValue)
  | parameter (m : FlowMethod) (p : FlowParameter)
  deriving DecidableEq

/-- The parameters of finitely many methods, whose known calls pass such arguments, and where
nothing else stops a flow. -/
structure Plain (pass : FlowPass Site Signature) (passes : Site → FlowParameter → Passed)
    (nodes : List Node) : Prop where
  keyed : ∀ x ∈ nodes, ∀ y ∈ nodes, key x = key y → x = y
  written : ∀ x ∈ nodes, pass.writtenElsewhere x.1.name = false
  read : ∀ x ∈ nodes, ∃ signature, pass.signature x.1 = some signature
  bound : ∀ x ∈ nodes, pass.rebinds x.2.name x.1 = false
  unknown : ∀ x ∈ nodes, pass.unknown x.1.name = []
  failed : ∀ x ∈ nodes, pass.failed x.1.name = []
  handsOn : ∀ x ∈ nodes, pass.handsOn x.1.name = false
  family : ∀ x ∈ nodes, ∀ target, pass.family x.1 target = true ↔ target = x.1.id
  argument : ∀ x ∈ nodes, ∀ site ∈ pass.callsInto x.1, pass.isKnown site = true → ∀ follow,
    pass.argumentValue site x.2 follow =
      match passes site x.2 with
      | .value v => .ok v
      | .parameter m p => follow m p
  closed : ∀ x ∈ nodes, ∀ site ∈ pass.callsInto x.1, pass.isKnown site = true → ∀ m p,
    passes site x.2 = .parameter m p → (m, p) ∈ nodes

section Reach

variable (pass : FlowPass Site Signature) (passes : Site → FlowParameter → Passed)

def Gives (x : Node) (k : String × Bool) : Prop :=
  ∃ site ∈ pass.callsInto x.1, pass.isKnown site = true ∧
    ∃ v, passes site x.2 = .value v ∧ v.cls = k

/-- A known call of the method of `x` passes `y` on. -/
def Calls (x y : Node) : Prop :=
  ∃ site ∈ pass.callsInto x.1, pass.isKnown site = true ∧ passes site x.2 = .parameter y.1 y.2

inductive Reaches (k : String × Bool) : Node → Prop
  | value {x : Node} (gives : Gives pass passes x k) : Reaches k x
  | passed {x y : Node} (calls : Calls pass passes x y) (reaches : Reaches k y) : Reaches k x

/-- A call passes a class, or a parameter that is not one of those followed. -/
def Opens (path : List Node) (x : Node) : Prop :=
  (∃ k, Gives pass passes x k) ∨ ∃ y, Calls pass passes x y ∧ y ∉ path ++ [x]

/-- Every chain of parameters back from `x` ends at one with a call from outside the chain. -/
def AllOpen (x : Node) : Prop :=
  ∀ path y, Walk (Calls pass passes) x path y → Opens pass passes path y

/-- No chain of parameters back from `x` is longer than a flow goes. -/
def Short (x : Node) : Prop :=
  ∀ path y, Walk (Calls pass passes) x path y → path.length < MAX_FLOW_DEPTH

end Reach

variable {pass : FlowPass Site Signature} {passes : Site → FlowParameter → Passed} {nodes : List Node}
  {x y : Node} {k : String × Bool}

theorem reaches_iff : Reaches pass passes k x ↔
    ∃ y, Relation.ReflTransGen (Calls pass passes) x y ∧ Gives pass passes y k := by
  constructor
  · intro reaches
    induction reaches with
    | value gives => exact ⟨_, .refl, gives⟩
    | passed calls _ ih =>
      obtain ⟨y, back, gives⟩ := ih
      exact ⟨y, back.head calls, gives⟩
  · rintro ⟨y, back, gives⟩
    induction back using Relation.ReflTransGen.head_induction_on with
    | refl => exact .value gives
    | head calls _ ih => exact .passed calls ih

section Arguments

variable {passed : Site → Answer} {sites : List Site} {value out : Option FlowValue}

private theorem differs_iff (w v : FlowValue) :
    (w.type ≠ v.type ∨ w.isClass ≠ v.isClass) ↔ w.cls ≠ v.cls := by
  simp only [FlowValue.cls, ne_eq, Prod.mk.injEq]
  tauto

theorem passedBy_ok (ok : passedBy passed sites value = .ok out) :
    (∀ v, value = some v → ∃ o, out = some o ∧ o.cls = v.cls) ∧
    (∀ site ∈ sites, passed site = .error .cycle ∨
      ∃ v o, passed site = .ok v ∧ out = some o ∧ v.cls = o.cls) ∧
    ∀ o, out = some o → value = some o ∨ ∃ site ∈ sites, passed site = .ok o := by
  induction sites generalizing value with
  | nil =>
    rw [passedBy] at ok
    cases ok
    exact ⟨fun v is => ⟨v, is, rfl⟩, fun site listed => (List.not_mem_nil listed).elim, fun o is => .inl is⟩
  | cons site sites ih =>
    rw [passedBy] at ok
    split at ok
    · next cycle =>
      obtain ⟨kept, agree, source⟩ := ih ok
      refine ⟨kept, fun other listed => ?_, fun o is => ?_⟩
      · rcases List.mem_cons.mp listed with rfl | later
        · exact .inl cycle
        · exact agree other later
      · exact (source o is).imp id fun ⟨other, later, here⟩ => ⟨other, List.mem_cons_of_mem site later, here⟩
    · cases ok
    · next v here =>
      split at ok
      · cases ok
      · next same =>
        obtain ⟨kept, agree, source⟩ := ih ok
        obtain ⟨o, is, cls⟩ := kept v rfl
        refine ⟨fun w old => ⟨o, is, cls.trans ?_⟩, fun other listed => ?_, fun o is => ?_⟩
        · rw [old, Option.any_some, decide_eq_true_eq] at same
          exact (not_not.mp (mt (differs_iff w v).mpr same)).symm
        · rcases List.mem_cons.mp listed with rfl | later
          · exact .inr ⟨v, o, here, is, cls.symm⟩
          · exact agree other later
        · rcases source o is with mine | ⟨other, later, there⟩
          · cases mine
            exact .inr ⟨site, List.mem_cons_self, here⟩
          · exact .inr ⟨other, List.mem_cons_of_mem site later, there⟩

theorem passedBy_agree
    (agree : ∀ site ∈ sites, passed site = .error .cycle ∨ ∃ v, passed site = .ok v ∧ v.cls = k)
    (start : ∀ v, value = some v → v.cls = k) :
    ∃ out, passedBy passed sites value = .ok out ∧ (∀ o, out = some o → o.cls = k) ∧
      ((∃ v, value = some v) ∨ (∃ site ∈ sites, ∃ v, passed site = .ok v) → ∃ o, out = some o) := by
  induction sites generalizing value with
  | nil => exact ⟨value, rfl, start, fun some_ => some_.elim id fun ⟨_, listed, _⟩ => (List.not_mem_nil listed).elim⟩
  | cons site sites ih =>
    have rest := fun other later => agree other (List.mem_cons_of_mem site later)
    rcases agree site List.mem_cons_self with cycle | ⟨v, here, cls⟩
    · obtain ⟨out, ok, all, some_⟩ := ih rest start
      refine ⟨out, by rw [passedBy, cycle]; exact ok, all, fun any => some_ (any.imp id ?_)⟩
      rintro ⟨other, listed, v, there⟩
      rcases List.mem_cons.mp listed with rfl | later
      · rw [cycle] at there
        cases there
      · exact ⟨other, later, v, there⟩
    · obtain ⟨out, ok, all, some_⟩ := @ih (some v) rest fun w is => by cases is; exact cls
      refine ⟨out, ?_, all, fun _ => some_ (.inl ⟨v, rfl⟩)⟩
      have same : (value.any fun w => w.type ≠ v.type ∨ w.isClass ≠ v.isClass) = false := by
        cases value with
        | none => rfl
        | some w =>
          have equal : w.cls = v.cls := (start w rfl).trans cls.symm
          simpa [FlowValue.cls] using equal
      rw [passedBy, here]
      simp only [same]
      exact ok

theorem passedBy_congr {passed' : Site → Answer} (same : ∀ site ∈ sites, passed site = passed' site) :
    passedBy passed sites value = passedBy passed' sites value := by
  induction sites generalizing value with
  | nil => rfl
  | cons site sites ih =>
    have rest (value) := @ih value fun other later => same other (List.mem_cons_of_mem site later)
    rw [passedBy, passedBy, same site List.mem_cons_self]
    simp only [rest]

theorem passedBy_ne_cycle : passedBy passed sites value ≠ .error .cycle := by
  induction sites generalizing value with
  | nil => exact fun none_ => nomatch none_
  | cons site sites ih =>
    rw [passedBy]
    split
    · exact ih
    · next stop other here => exact fun same => other (Except.error.inj same)
    · split
      · exact fun same => nomatch same
      · exact ih

end Arguments

def deeper (pass : FlowPass Site Signature) : Nat → Node → List Node → Answer
  | 0, _, _ => .error .tooDeep
  | depth + 1, y, here => flow pass depth y.1 y.2 (here.map key)

def argument (pass : FlowPass Site Signature) (passes : Site → FlowParameter → Passed) (depth : Nat)
    (path : List Node) (x : Node) (site : Site) : Answer :=
  match passes site x.2 with
  | .value v => .ok v
  | .parameter m p =>
    if (m, p) ∈ path ++ [x] then .error .cycle else deeper pass depth (m, p) (path ++ [x])

private theorem mem_keys (plain : Plain pass passes nodes) {here : List Node} (inside : here ⊆ nodes)
    (member : y ∈ nodes) : key y ∈ here.map key ↔ y ∈ here := by
  constructor
  · intro listed
    obtain ⟨z, there, same⟩ := List.mem_map.mp listed
    rwa [← plain.keyed z (inside there) y member same]
  · exact List.mem_map_of_mem

theorem flow_plain (plain : Plain pass passes nodes) {path : List Node} (inside : path ⊆ nodes)
    (member : x ∈ nodes) (depth : Nat) :
    flow pass depth x.1 x.2 (path.map key) =
      match passedBy (argument pass passes depth path x) ((pass.callsInto x.1).filter pass.isKnown) none with
      | .error stop => .error stop
      | .ok none => .error .noCaller
      | .ok (some v) => .ok v := by
  obtain ⟨signature, read⟩ := plain.read x member
  have within : path ++ [x] ⊆ nodes :=
    List.append_subset.mpr ⟨inside, List.cons_subset.mpr ⟨member, List.nil_subset _⟩⟩
  -- no other method is of the family
  have alone : ((pass.known x.1.name).filter fun site => pass.targetId site ≠ some x.1.id).filter
      (fun site => (pass.targetId site).any (pass.family x.1)) = [] := by
    refine List.filter_eq_nil_iff.mpr fun site listed => ?_
    have other := of_decide_eq_true (List.mem_filter.mp listed).2
    cases target : pass.targetId site with
    | none => simp
    | some id =>
      rw [target] at other
      rw [Option.any_some, plain.family x member]
      rintro rfl
      exact other rfl
  have sites (deeper_ : FlowMethod → FlowParameter → List (String × String) → Answer)
      (same : ∀ y : Node, deeper_ y.1 y.2 ((path ++ [x]).map key) = deeper pass depth y (path ++ [x])) :
      passedBy (fun site => pass.argumentValue site x.2 fun m p =>
          if (m.id, p.name) ∈ (path ++ [x]).map key then .error .cycle
          else deeper_ m p ((path ++ [x]).map key)) ((pass.callsInto x.1).filter pass.isKnown) none =
        passedBy (argument pass passes depth path x) ((pass.callsInto x.1).filter pass.isKnown) none := by
    refine passedBy_congr fun site listed => ?_
    obtain ⟨into, known⟩ := List.mem_filter.mp listed
    rw [plain.argument x member site into known, argument]
    cases shape : passes site x.2 with
    | value v => rfl
    | parameter m p =>
      have there := mem_keys (y := (m, p)) plain within (plain.closed x member site into known m p shape)
      simp only [key] at there
      simp only [there, same (m, p)]
  have flowFrom_ (deeper_ : FlowMethod → FlowParameter → List (String × String) → Answer)
      (same : ∀ y : Node, deeper_ y.1 y.2 ((path ++ [x]).map key) = deeper pass depth y (path ++ [x])) :
      flowFrom pass deeper_ x.1 x.2 (path.map key) =
        match passedBy (argument pass passes depth path x) ((pass.callsInto x.1).filter pass.isKnown)
          none with
        | .error stop => .error stop
        | .ok none => .error .noCaller
        | .ok (some v) => .ok v := by
    have keys : path.map key ++ [(x.1.id, x.2.name)] = (path ++ [x]).map key := by
      rw [List.map_append]
      rfl
    rw [flowFrom, plain.written x member, read, plain.bound x member]
    simp only [Bool.false_eq_true, if_false, plain.unknown x member, plain.failed x member,
      plain.handsOn x member, alone, keys, sites deeper_ same]
    split
    · rfl
    · rfl
    · rfl
  cases depth with
  | zero => exact flowFrom_ _ fun _ => rfl
  | succ depth => exact flowFrom_ _ fun _ => rfl

/-- The parameter behind `path` has an answer of the class. -/
def Answers (pass : FlowPass Site Signature) (depth : Nat) (path : List Node) (x : Node)
    (k : String × Bool) : Prop :=
  ∃ v, flow pass depth x.1 x.2 (path.map key) = .ok v ∧ v.cls = k

theorem flow_ne_cycle (plain : Plain pass passes nodes) {path : List Node} (inside : path ⊆ nodes)
    (member : x ∈ nodes) (depth : Nat) :
    flow pass depth x.1 x.2 (path.map key) ≠ .error .cycle := by
  rw [flow_plain plain inside member]
  intro cycle
  split at cycle
  · next stop stopped =>
    cases cycle
    exact passedBy_ne_cycle stopped
  · cases cycle
  · cases cycle

/-- With an answer, every call gives its class or one of those followed, and one gives the class. -/
theorem Answers.calls (plain : Plain pass passes nodes) {path : List Node} (inside : path ⊆ nodes)
    (member : x ∈ nodes) {depth : Nat} (answers : Answers pass depth path x k) :
    (∀ j, Gives pass passes x j → j = k) ∧
    (∀ y, Calls pass passes x y → y ∉ path ++ [x] →
      ∃ deep, depth = deep + 1 ∧ Answers pass deep (path ++ [x]) y k) ∧
    (Gives pass passes x k ∨ ∃ y deep, Calls pass passes x y ∧ y ∉ path ++ [x] ∧ depth = deep + 1 ∧
      Answers pass deep (path ++ [x]) y k) := by
  obtain ⟨v, ok, rfl⟩ := answers
  rw [flow_plain plain inside member] at ok
  -- what a call passes on is the answer behind it
  have behind {y : Node} (calls : Calls pass passes x y) {w : FlowValue}
      (there : deeper pass depth y (path ++ [x]) = .ok w) (cls : w.cls = v.cls) :
      ∃ deep, depth = deep + 1 ∧ Answers pass deep (path ++ [x]) y v.cls := by
    cases depth with
    | zero => cases there
    | succ deep => exact ⟨deep, rfl, w, there, cls⟩
  split at ok
  · cases ok
  · cases ok
  next value passed =>
  cases ok
  obtain ⟨-, agree, source⟩ := passedBy_ok passed
  refine ⟨?_, ?_, ?_⟩
  · rintro j ⟨site, into, known, w, shape, rfl⟩
    have here : argument pass passes depth path x site = .ok w := by rw [argument, shape]
    rcases agree site (List.mem_filter.mpr ⟨into, known⟩) with cycle | ⟨u, o, there, is, cls⟩
    · rw [here] at cycle
      cases cycle
    · rw [here] at there
      cases there
      cases is
      exact cls
  · rintro y calls fresh
    have ⟨site, into, known, shape⟩ := calls
    have here : argument pass passes depth path x site = deeper pass depth y (path ++ [x]) := by
      rw [argument, shape]
      exact if_neg fresh
    rcases agree site (List.mem_filter.mpr ⟨into, known⟩) with cycle | ⟨u, o, there, is, cls⟩
    · rw [here] at cycle
      cases depth with
      | zero => cases cycle
      | succ deep =>
        have within : path ++ [x] ⊆ nodes :=
          List.append_subset.mpr ⟨inside, List.cons_subset.mpr ⟨member, List.nil_subset _⟩⟩
        exact absurd cycle
          (flow_ne_cycle plain within (plain.closed x member site into known y.1 y.2 shape) deep)
    · cases is
      exact behind calls (here.symm.trans there) cls
  · rcases source v rfl with none_ | ⟨site, listed, here⟩
    · cases none_
    obtain ⟨into, known⟩ := List.mem_filter.mp listed
    rw [argument] at here
    split at here
    · next w shape =>
      cases here
      exact .inl ⟨site, into, known, v, shape, rfl⟩
    · next m p shape =>
      split at here
      · cases here
      · next fresh =>
        have calls : Calls pass passes x (m, p) := ⟨site, into, known, shape⟩
        obtain ⟨deep, depth_, there⟩ := behind calls here rfl
        exact .inr ⟨(m, p), deep, calls, fresh, depth_, there⟩

/-- Where the calls give one class or parameters followed, and one does not, there is an answer. -/
theorem answers_of_calls (plain : Plain pass passes nodes) {path : List Node} (inside : path ⊆ nodes)
    (member : x ∈ nodes) {depth : Nat} (gives : ∀ j, Gives pass passes x j → j = k)
    (calls : ∀ y, Calls pass passes x y → y ∉ path ++ [x] →
      ∃ deep, depth = deep + 1 ∧ Answers pass deep (path ++ [x]) y k)
    (opens : Opens pass passes path x) : Answers pass depth path x k := by
  have follows {y : Node} (call : Calls pass passes x y) (fresh : y ∉ path ++ [x]) :
      ∃ w, deeper pass depth y (path ++ [x]) = .ok w ∧ w.cls = k := by
    obtain ⟨deep, rfl, w, there, cls⟩ := calls y call fresh
    exact ⟨w, there, cls⟩
  have agree : ∀ site ∈ (pass.callsInto x.1).filter pass.isKnown,
      argument pass passes depth path x site = .error .cycle ∨
        ∃ v, argument pass passes depth path x site = .ok v ∧ v.cls = k := by
    intro site listed
    obtain ⟨into, known⟩ := List.mem_filter.mp listed
    rw [argument]
    cases shape : passes site x.2 with
    | value v => exact .inr ⟨v, rfl, gives _ ⟨site, into, known, v, shape, rfl⟩⟩
    | parameter m p =>
      by_cases fresh : (m, p) ∈ path ++ [x]
      · exact .inl (if_pos fresh)
      · obtain ⟨w, there, cls⟩ := follows ⟨site, into, known, shape⟩ fresh
        exact .inr ⟨w, (if_neg fresh).trans there, cls⟩
  obtain ⟨out, ok, all, some_⟩ := passedBy_agree agree fun v (is : none = some v) => nomatch is
  obtain ⟨o, is⟩ : ∃ o, out = some o := by
    refine some_ (.inr ?_)
    rcases opens with ⟨j, site, into, known, v, shape, -⟩ | ⟨y, call, fresh⟩
    · exact ⟨site, List.mem_filter.mpr ⟨into, known⟩, v, by rw [argument, shape]⟩
    · obtain ⟨w, there, -⟩ := follows call fresh
      obtain ⟨site, into, known, shape⟩ := call
      refine ⟨site, List.mem_filter.mpr ⟨into, known⟩, w, ?_⟩
      rw [argument, shape]
      exact (if_neg fresh).trans there
  refine ⟨o, ?_, all o is⟩
  rw [flow_plain plain inside member, ok, is]

theorem walk_nodes (plain : Plain pass passes nodes) (member : x ∈ nodes) {path : List Node}
    (walk : Walk (Calls pass passes) x path y) : path ⊆ nodes ∧ y ∈ nodes := by
  induction walk with
  | start => exact ⟨List.nil_subset _, member⟩
  | @step path y z walk next fresh ih =>
    obtain ⟨site, into, known, shape⟩ := next
    exact ⟨List.append_subset.mpr ⟨ih.1, List.cons_subset.mpr ⟨ih.2, List.nil_subset _⟩⟩,
      plain.closed y ih.2 site into known z.1 z.2 shape⟩

/-- The answer of a parameter is that of every one on a chain back from it. -/
theorem Answers.along (plain : Plain pass passes nodes) (member : x ∈ nodes) {depth : Nat}
    (answers : Answers pass depth [] x k) {path : List Node}
    (walk : Walk (Calls pass passes) x path y) :
    ∃ deep, deep + path.length = depth ∧ Answers pass deep path y k := by
  induction walk with
  | start => exact ⟨depth, rfl, answers⟩
  | @step path y z walk next fresh ih =>
    obtain ⟨deep, sum, here⟩ := ih
    obtain ⟨inside, there⟩ := walk_nodes plain member walk
    obtain ⟨deeper_, rfl, behind⟩ := (here.calls plain inside there).2.1 z next fresh
    refine ⟨deeper_, ?_, behind⟩
    rw [List.length_append, List.length_singleton]
    omega

theorem Answers.reaches (plain : Plain pass passes nodes) {path : List Node} (inside : path ⊆ nodes)
    (member : x ∈ nodes) {depth : Nat} (answers : Answers pass depth path x k) :
    Reaches pass passes k x := by
  induction depth generalizing path x with
  | zero =>
    rcases (answers.calls plain inside member).2.2 with gives | ⟨y, deep, -, -, none_, -⟩
    · exact .value gives
    · cases none_
  | succ depth ih =>
    rcases (answers.calls plain inside member).2.2 with gives | ⟨y, deep, calls, fresh, same, there⟩
    · exact .value gives
    · obtain ⟨site, into, known, shape⟩ := calls
      have within : path ++ [x] ⊆ nodes :=
        List.append_subset.mpr ⟨inside, List.cons_subset.mpr ⟨member, List.nil_subset _⟩⟩
      have behind := ih within (plain.closed x member site into known y.1 y.2 shape)
        (by rwa [Nat.succ.inj same])
      exact .passed ⟨site, into, known, shape⟩ behind

/-- Where one class reaches a parameter and every chain is open, each flow along it has that class. -/
theorem answers_of_open (plain : Plain pass passes nodes) (member : x ∈ nodes)
    (short : Short pass passes x) (only : ∀ j, Reaches pass passes j x ↔ j = k)
    (open_ : AllOpen pass passes x) {depth : Nat} {path : List Node}
    (walk : Walk (Calls pass passes) x path y) (sum : depth + path.length = MAX_FLOW_DEPTH - 1) :
    Answers pass depth path y k := by
  induction depth generalizing path y with
  | zero =>
    obtain ⟨inside, there⟩ := walk_nodes plain member walk
    refine answers_of_calls plain inside there (fun j gives => ?_) (fun z next fresh => ?_)
      (open_ path y walk)
    · exact (only j).mp (reaches_iff.mpr ⟨y, walk.reaches, gives⟩)
    · have longer := short _ z (.step walk next fresh)
      rw [List.length_append, List.length_singleton] at longer
      omega
  | succ depth ih =>
    obtain ⟨inside, there⟩ := walk_nodes plain member walk
    refine answers_of_calls plain inside there (fun j gives => ?_) (fun z next fresh => ?_)
      (open_ path y walk)
    · exact (only j).mp (reaches_iff.mpr ⟨y, walk.reaches, gives⟩)
    · refine ⟨depth, rfl, ih (.step walk next fresh) ?_⟩
      rw [List.length_append, List.length_singleton]
      omega

def Yields (pass : FlowPass Site Signature) (x : Node) (k : String × Bool) : Prop :=
  ∃ v, flowOf pass x.1 x.2 = .ok v ∧ v.cls = k

theorem yields_iff (plain : Plain pass passes nodes) (member : x ∈ nodes)
    (short : Short pass passes x) : Yields pass x k ↔
      (∀ j, Reaches pass passes j x ↔ j = k) ∧ AllOpen pass passes x := by
  constructor
  · intro yields
    have answers : Answers pass (MAX_FLOW_DEPTH - 1) [] x k := yields
    refine ⟨fun j => ⟨fun reaches => ?_, ?_⟩, fun path y walk => ?_⟩
    · obtain ⟨y, back, gives⟩ := reaches_iff.mp reaches
      obtain ⟨path, walk⟩ := exists_walk back
      obtain ⟨deep, -, there⟩ := answers.along plain member walk
      obtain ⟨inside, member'⟩ := walk_nodes plain member walk
      exact (there.calls plain inside member').1 j gives
    · rintro rfl
      exact answers.reaches plain (List.nil_subset _) member
    · obtain ⟨deep, -, there⟩ := answers.along plain member walk
      obtain ⟨inside, member'⟩ := walk_nodes plain member walk
      rcases (there.calls plain inside member').2.2 with gives | ⟨z, -, calls, fresh, -, -⟩
      · exact .inl ⟨k, gives⟩
      · exact .inr ⟨z, calls, fresh⟩
  · rintro ⟨only, open_⟩
    exact answers_of_open plain member short only open_ (.start : Walk _ x [] x) rfl

structure Reordered (pass pass' : FlowPass Site Signature) : Prop where
  rest : pass' = { pass with
    callsInto := pass'.callsInto
    known := pass'.known
    unknown := pass'.unknown
    failed := pass'.failed }
  callsInto : ∀ m, (pass'.callsInto m).Perm (pass.callsInto m)
  known : ∀ name, (pass'.known name).Perm (pass.known name)
  unknown : ∀ name, (pass'.unknown name).Perm (pass.unknown name)
  failed : ∀ name, (pass'.failed name).Perm (pass.failed name)

/-- The flow is decided by the classes that reach the parameter: it is the one class there is, or an
abstention, whatever the order of the calls. -/
structure Decided (pass : FlowPass Site Signature) (passes : Site → FlowParameter → Passed)
    (x : Node) : Prop where
  one : ∀ k, Yields pass x k ↔ ∀ j, Reaches pass passes j x ↔ j = k
  none_ : (∀ k, ¬Reaches pass passes k x) → ∃ why, flowOf pass x.1 x.2 = .error why
  several : ∀ j k, Reaches pass passes j x → Reaches pass passes k x → j ≠ k →
    ∃ why, flowOf pass x.1 x.2 = .error why
  order : ∀ pass', Reordered pass pass' → ∀ k, Yields pass' x k ↔ Yields pass x k

section Order

variable {pass' : FlowPass Site Signature}

theorem Reordered.gives (order : Reordered pass pass') :
    Gives pass' passes x k ↔ Gives pass passes x k := by
  have known : pass'.isKnown = pass.isKnown := by rw [order.rest]
  simp only [Gives, (order.callsInto x.1).mem_iff, known]

theorem Reordered.calls (order : Reordered pass pass') :
    Calls pass' passes = Calls pass passes := by
  have known : pass'.isKnown = pass.isKnown := by rw [order.rest]
  funext x y
  simp only [Calls, (order.callsInto x.1).mem_iff, known]

theorem Reordered.reaches (order : Reordered pass pass') :
    Reaches pass' passes k x ↔ Reaches pass passes k x := by
  simp only [reaches_iff, order.calls, order.gives]

theorem Reordered.allOpen (order : Reordered pass pass') :
    AllOpen pass' passes x ↔ AllOpen pass passes x := by
  simp only [AllOpen, Opens, order.calls, order.gives]

theorem Plain.reordered (plain : Plain pass passes nodes) (order : Reordered pass pass') :
    Plain pass' passes nodes where
  keyed := plain.keyed
  written := by
    rw [order.rest]
    exact plain.written
  read := by
    rw [order.rest]
    exact plain.read
  bound := by
    rw [order.rest]
    exact plain.bound
  unknown x member := by
    have same := order.unknown x.1.name
    rw [plain.unknown x member] at same
    exact same.eq_nil
  failed x member := by
    have same := order.failed x.1.name
    rw [plain.failed x member] at same
    exact same.eq_nil
  handsOn := by
    rw [order.rest]
    exact plain.handsOn
  family := by
    rw [order.rest]
    exact plain.family
  argument x member site into known := by
    have into := (order.callsInto x.1).mem_iff.mp into
    rw [order.rest] at known ⊢
    exact plain.argument x member site into known
  closed x member site into known := by
    have into := (order.callsInto x.1).mem_iff.mp into
    rw [order.rest] at known
    exact plain.closed x member site into known

end Order

/-- The flow is decided by what reaches the parameter just when, where one class does, no chain of
parameters ends at one whose calls all come from the chain. -/
theorem flow_decided_iff (plain : Plain pass passes nodes) (member : x ∈ nodes)
    (short : Short pass passes x) : Decided pass passes x ↔
      ((∃ k, ∀ j, Reaches pass passes j x ↔ j = k) → AllOpen pass passes x) := by
  constructor
  · rintro decided ⟨k, only⟩
    exact ((yields_iff plain member short).mp ((decided.one k).mpr only)).2
  · intro open_
    have abstains (not_one : ¬∃ k, ∀ j, Reaches pass passes j x ↔ j = k) :
        ∃ why, flowOf pass x.1 x.2 = .error why := by
      cases answer : flowOf pass x.1 x.2 with
      | error why => exact ⟨why, rfl⟩
      | ok v => exact absurd ⟨v.cls, ((yields_iff plain member short).mp ⟨v, answer, rfl⟩).1⟩ not_one
    refine ⟨fun k => ?_, fun none_ => ?_, fun j k first second other => ?_, fun pass' order k => ?_⟩
    · rw [yields_iff plain member short]
      exact ⟨And.left, fun only => ⟨only, open_ ⟨k, only⟩⟩⟩
    · exact abstains fun ⟨k, only⟩ => none_ k ((only k).mpr rfl)
    · exact abstains fun ⟨i, only⟩ => other (((only j).mp first).trans ((only k).mp second).symm)
    · have short' : Short pass' passes x := by
        rw [Short, order.calls]
        exact short
      rw [yields_iff plain member short, yields_iff (plain.reordered order) member short',
        order.allOpen]
      simp only [order.reaches]

/-! ### Two methods that call each other -/

structure ArgumentSite where
  target : FlowMethod
  passed : Passed
  deriving DecidableEq

def passOf (sites : List ArgumentSite) : FlowPass ArgumentSite Unit where
  callsInto m := sites.filter fun site => site.target = m
  known name := sites.filter fun site => site.target.name = name
  unknown _ := []
  failed _ := []
  targetId site := some site.target.id
  writtenElsewhere _ := false
  isKnown _ := true
  cannotCall _ _ := false
  signature _ := some ()
  family m target := target = m.id
  handsOn _ := false
  rebinds _ _ := false
  argumentValue site _ follow :=
    match site.passed with
    | .value v => .ok v
    | .parameter m p => follow m p

theorem passOf_plain {sites : List ArgumentSite}
    (keyed : ∀ x ∈ nodes, ∀ y ∈ nodes, key x = key y → x = y)
    (closed : ∀ site ∈ sites, ∀ m p, site.passed = .parameter m p → (m, p) ∈ nodes) :
    Plain (passOf sites) (fun site _ => site.passed) nodes where
  keyed := keyed
  written _ _ := rfl
  read _ _ := ⟨(), rfl⟩
  bound _ _ := rfl
  unknown _ _ := rfl
  failed _ _ := rfl
  handsOn _ _ := rfl
  family _ _ _ := decide_eq_true_iff
  argument _ _ _ _ _ _ := rfl
  closed _ _ site into _ := closed site (List.mem_filter.mp into).1

theorem short_of_few (plain : Plain pass passes nodes) (member : x ∈ nodes)
    (few : nodes.length ≤ MAX_FLOW_DEPTH) : Short pass passes x := by
  intro path y walk
  obtain ⟨inside, there⟩ := walk_nodes plain member walk
  have within : path ++ [y] ⊆ nodes :=
    List.append_subset.mpr ⟨inside, List.cons_subset.mpr ⟨there, List.nil_subset _⟩⟩
  have lengths := (List.subperm_of_subset walk.nodup within).length_le
  rw [List.length_append, List.length_singleton] at lengths
  omega

def walkContext : Node := (⟨"1", "walk"⟩, ⟨"context", 0⟩)

def visitContext : Node := (⟨"2", "visit"⟩, ⟨"context", 0⟩)

def contextValue : FlowValue := ⟨"Context", false, false⟩

/-- `walk` passes its parameter to itself. -/
def selfCalls : List ArgumentSite :=
  [⟨walkContext.1, .parameter walkContext.1 walkContext.2⟩, ⟨walkContext.1, .value contextValue⟩]

/-- `walk` and `visit` pass theirs to each other. -/
def mutualCalls : List ArgumentSite :=
  [⟨walkContext.1, .value contextValue⟩, ⟨walkContext.1, .parameter visitContext.1 visitContext.2⟩,
    ⟨visitContext.1, .parameter walkContext.1 walkContext.2⟩]

private theorem reaches_passOf {sites : List ArgumentSite}
    (only : ∀ site ∈ sites, ∀ v, site.passed = .value v → v.cls = contextValue.cls)
    (reaches : Reaches (passOf sites) (fun site _ => site.passed) k x) : k = contextValue.cls := by
  obtain ⟨y, -, site, into, -, v, shape, rfl⟩ := reaches_iff.mp reaches
  exact only site (List.mem_filter.mp into).1 v shape

theorem flow_decided_iff_self :
    Decided (passOf selfCalls) (fun site _ => site.passed) walkContext := by
  have plain : Plain (passOf selfCalls) (fun site _ => site.passed) [walkContext] := by
    refine passOf_plain (by decide) fun site listed m p shape => ?_
    simp only [selfCalls, List.mem_cons, List.not_mem_nil, or_false] at listed
    rcases listed with rfl | rfl
    · cases shape
      exact List.mem_singleton.mpr rfl
    · cases shape
  have gives : Gives (passOf selfCalls) (fun site _ => site.passed) walkContext contextValue.cls :=
    ⟨⟨walkContext.1, .value contextValue⟩, by decide, rfl, contextValue, rfl, rfl⟩
  refine (flow_decided_iff plain (by decide) (short_of_few plain (by decide) (by decide))).mpr
    fun _ path y walk => .inl ⟨contextValue.cls, ?_⟩
  rw [List.mem_singleton.mp (walk_nodes plain (by decide) walk).2]
  exact gives

/-- Only `Context` reaches the parameter of `walk`, and the flow is an abstention, since all calls of
`visit` come from `walk`. -/
theorem mutual_calls_stop :
    Plain (passOf mutualCalls) (fun site _ => site.passed) [walkContext, visitContext] ∧
    Short (passOf mutualCalls) (fun site _ => site.passed) walkContext ∧
    (∀ j, Reaches (passOf mutualCalls) (fun site _ => site.passed) j walkContext ↔
      j = contextValue.cls) ∧
    flowOf (passOf mutualCalls) walkContext.1 walkContext.2 = .error .noCaller := by
  have plain : Plain (passOf mutualCalls) (fun site _ => site.passed) [walkContext, visitContext] := by
    refine passOf_plain (by decide) fun site listed m p shape => ?_
    simp only [mutualCalls, List.mem_cons, List.not_mem_nil, or_false] at listed
    rcases listed with rfl | rfl | rfl
    · cases shape
    · cases shape
      exact List.mem_cons_of_mem _ (List.mem_singleton.mpr rfl)
    · cases shape
      exact List.mem_cons_self
  refine ⟨plain, short_of_few plain (by decide) (by decide), fun j => ⟨fun reaches => ?_, ?_⟩, by decide⟩
  · refine reaches_passOf (fun site listed v shape => ?_) reaches
    simp only [mutualCalls, List.mem_cons, List.not_mem_nil, or_false] at listed
    rcases listed with rfl | rfl | rfl <;> cases shape
    rfl
  · rintro rfl
    exact .value ⟨⟨walkContext.1, .value contextValue⟩, by decide, rfl, contextValue, rfl, rfl⟩

end CodeGraph.Resolution.ParameterFlow
