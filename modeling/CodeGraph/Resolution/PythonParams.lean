import CodeGraph.Foundation.Transitions
import CodeGraph.Resolution.PythonAttributes
import CodeGraph.Resolution.PythonModules

/-!
# The parameters of a Python `def`

A statement is its characters, and offsets count them.
-/
namespace CodeGraph.Resolution.PythonParams

open RustText

/-- The Unicode tables that stand behind `\w` and `\d`. -/
structure WordClasses where
  word : Char → Bool
  digit : Char → Bool
  word_ascii : ∀ c : Char, c.toNat < 0x80 → word c = (c.isAlphanum || c == '_')
  digit_ascii : ∀ c : Char, c.toNat < 0x80 → digit c = c.isDigit

def isOpen (c : Char) : Bool := c == '(' || c == '[' || c == '{'

def isClose (c : Char) : Bool := c == ')' || c == ']' || c == '}'

section Model

variable (classes : WordClasses)

/-- `^[^\W\d]\w*` -/
def nameAt : List Char → Option (List Char)
  | c :: rest =>
    if classes.word c && !classes.digit c then some (c :: rest.takeWhile classes.word) else none
  | [] => none

def pieceName (piece : List Char) : Option (List Char) :=
  nameAt classes (trimStart ((trimStart piece).dropWhile (· == '*')))

structure Scan where
  depth : Nat
  start : Nat
  out : List (List Char)

def scanChar (params : List Char) (s : Scan) (at_ : Char × Nat) : Scan :=
  if isOpen at_.1 then { s with depth := s.depth + 1 }
  else if isClose at_.1 then { s with depth := s.depth - 1 }
  else if at_.1 = ',' ∧ s.depth = 0 then
    { s with
      out := s.out ++ (pieceName classes ((params.take at_.2).drop s.start)).toList
      start := at_.2 + 1 }
  else s

def pythonParamNames (params : List Char) : List (List Char) :=
  ((params ++ [',']).zipIdx.foldl (scanChar classes params) ⟨0, 0, []⟩).out

/-! ### The parameter list -/

/-- `\s+` -/
def spaces1 : List Char → Option (List Char)
  | c :: rest => if isWhitespace c then some (trimStart rest) else none
  | [] => none

/-- `\w+` -/
def word1 : List Char → Option (List Char)
  | c :: rest => if classes.word c then some (rest.dropWhile classes.word) else none
  | [] => none

/-- `(?:async\s+)?` -/
def skipAsync (s : List Char) : List Char :=
  ((stripPrefix "async".toList s).bind spaces1).getD s

/-- `(?:\[[^\]]*\])?` -/
def skipTypeParams (s : List Char) : List Char :=
  match s with
  | '[' :: rest =>
    match rest.dropWhile (· != ']') with
    | _ :: after => after
    | [] => s
  | _ => s

/-- What follows a match of `^\s*(?:async\s+)?def\s+\w+\s*(?:\[[^\]]*\])?\s*\(`. No part of the
pattern can match less and leave more for the next. -/
def afterOpen (stmt : List Char) : Option (List Char) := do
  let s ← stripPrefix "def".toList (skipAsync (trimStart stmt))
  let s ← spaces1 s
  let s ← word1 classes s
  stripPrefix ['('] (trimStart (skipTypeParams (trimStart s)))

/-- The length of the text up to the bracket that closes `depth`. -/
def closeAt : Nat → List Char → Option Nat
  | _, [] => none
  | depth, c :: rest =>
    if isOpen c then (closeAt (depth + 1) rest).map (· + 1)
    else if isClose c then
      if depth - 1 = 0 then some 0 else (closeAt (depth - 1) rest).map (· + 1)
    else (closeAt depth rest).map (· + 1)

def pythonDefParams (stmt : List Char) : Option (Nat × Nat) := do
  let rest ← afterOpen classes stmt
  let open_ := stmt.length - rest.length
  let length ← closeAt 1 rest
  return (open_, open_ + length)

end Model

/-- `&stmt[range]` -/
def slice (stmt : List Char) (range : Nat × Nat) : List Char := (stmt.take range.2).drop range.1

end CodeGraph.Resolution.PythonParams

/-! Queries for Python types one after another, with the memos that they share. -/
namespace CodeGraph.Resolution.PythonTypes

open BoundedMemo Transitions

structure Project where
  classes : ClassGraph
  factories : String → FactoryFacts

structure PythonTypesMemo where
  attributes : List ((String × String) × Reading)
  factories : FactoryMemo

def PythonTypesMemo.empty : PythonTypesMemo := ⟨[], []⟩

/-- An attribute query starts with nothing seen; a factory query at a depth that its caller is at. -/
inductive Query where
  | attributeType (id attr : String)
  | factoryAnswer (key : FactoryKey) (depth : Nat)

def ask (P : Project) (memo : PythonTypesMemo) : Query → Reading × PythonTypesMemo
  | .attributeType id attr =>
    let (reading, walk) := pythonAttributeType P.classes attr walkLimit id ⟨[], memo.attributes⟩
    (reading, { memo with attributes := walk.memo })
  | .factoryAnswer key depth =>
    let (reading, factories) :=
      pythonFactoryAnswer P.factories remembered (maxDepth - depth) key memo.factories
    (reading, { memo with factories })

inductive Event where
  | query (q : Query)
  | evict (attributes : (String × String) × Reading → Bool) (factories : FactoryKey × Reading → Bool)

def step (P : Project) (memo : PythonTypesMemo) : Event → Option PythonTypesMemo
  | .query q => some (ask P memo q).2
  | .evict attributes factories =>
    some ⟨memo.attributes.filter attributes, memo.factories.filter factories⟩

/-! ### Queries that are not cut -/

/-- No class below is met twice or beyond the limit, and no call is made at the depth limit; a query
that is itself beyond that limit asks nothing. -/
def Uncut (P : Project) : Query → Prop
  | .attributeType id attr => Unstopped P.classes attr id
  | .factoryAnswer key depth => maxDepth ≤ depth ∨ factoryFits P.factories (maxDepth - depth) key = true

instance (P : Project) (q : Query) : Decidable (Uncut P q) :=
  match q with
  | .attributeType id attr => inferInstanceAs (Decidable (Unstopped P.classes attr id))
  | .factoryAnswer _ _ => inferInstanceAs (Decidable (_ ∨ _))

def EventUncut (P : Project) : Event → Prop
  | .query q => Uncut P q
  | .evict _ _ => True

instance (P : Project) (e : Event) : Decidable (EventUncut P e) :=
  match e with
  | .query q => inferInstanceAs (Decidable (Uncut P q))
  | .evict _ _ => inferInstanceAs (Decidable True)

structure Faithful (P : Project) (memo : PythonTypesMemo) : Prop where
  attributes : Sound (Remembered P.classes) memo.attributes
  factories : Sound (RememberedFactory P.factories) memo.factories

variable {P : Project}

theorem faithful_empty : Faithful P .empty := ⟨sound_nil, sound_nil⟩

def plainAnswer (P : Project) : Query → Reading
  | .attributeType id attr => plainReading P.classes attr walkLimit id
  | .factoryAnswer key depth => plainFactory P.factories (maxDepth - depth) key

theorem ask_faithful {memo : PythonTypesMemo} {q : Query} (faithful : Faithful P memo)
    (uncut : Uncut P q) : (ask P memo q).1 = plainAnswer P q ∧ Faithful P (ask P memo q).2 := by
  cases q with
  | attributeType id attr =>
    obtain ⟨reading, sound⟩ := query_exact uncut faithful.attributes
    exact ⟨reading, sound, faithful.factories⟩
  | factoryAnswer key depth =>
    rcases uncut with beyond | fits
    · -- nothing is left of the depth, and the memo is not looked at
      have none_left : maxDepth - depth = 0 := Nat.sub_eq_zero_of_le beyond
      simp only [ask, plainAnswer, plainFactory, none_left, pythonFactoryAnswer, true_and]
      exact faithful
    · obtain ⟨reading, sound⟩ := factory_query_exact fits faithful.factories
      exact ⟨reading, faithful.attributes, sound⟩

theorem step_faithful {memo after : PythonTypesMemo} {e : Event} (faithful : Faithful P memo)
    (uncut : EventUncut P e) (taken : step P memo e = some after) : Faithful P after := by
  cases e with
  | query q =>
    cases taken
    exact (ask_faithful faithful uncut).2
  | evict attributes factories =>
    cases taken
    exact ⟨faithful.attributes.filter attributes, faithful.factories.filter factories⟩

/-- After any queries that are not cut, with any evictions, such a query answers as if it were the
first. -/
theorem python_types_history_free {memo : PythonTypesMemo}
    (reached : ReachableWhen (fun _ e => EventUncut P e) .empty (step P) memo) {q : Query}
    (uncut : Uncut P q) : (ask P memo q).1 = (ask P .empty q).1 := by
  have faithful : Faithful P memo :=
    reached.invariant faithful_empty fun _ _ _ faithful fine taken => step_faithful faithful fine taken
  rw [(ask_faithful faithful uncut).1, (ask_faithful faithful_empty uncut).1]

/-- `D(B, C)`, `B(A)` and `C(A)`, where `A.__init__` assigns `self.conn = Conn()`; and `f0` to `f3`,
each of which returns what the next one does, the last a list. -/
def diamond : Project where
  classes := {
    facts := fun id => match id with
      | "A" => ⟨"a.py", true, fun _ => some (.ofClass "Conn"), fun _ => {"conn.py"}, fun _ => true, []⟩
      | "B" => ⟨"b.py", true, fun _ => none, fun _ => ∅, fun _ => true, [.ofClass "A"]⟩
      | "C" => ⟨"c.py", true, fun _ => none, fun _ => ∅, fun _ => true, [.ofClass "A"]⟩
      | _ => ⟨"d.py", true, fun _ => none, fun _ => ∅, fun _ => true, [.ofClass "B", .ofClass "C"]⟩
    derivesFrom := fun _ _ => false }
  factories := fun id => match id with
    | "f0" => ⟨"f.py", true, false, none, [.returned (.call ∅ (.factory "f1" none))]⟩
    | "f1" => ⟨"f.py", true, false, none, [.returned (.call ∅ (.factory "f2" none))]⟩
    | "f2" => ⟨"f.py", true, false, none, [.returned (.call ∅ (.factory "f3" none))]⟩
    | _ => ⟨"f.py", true, false, none, [.returned (.settled ⟨.runtime, ∅⟩)]⟩

theorem python_types_history_free_diamond :
    ∃ memo, Transitions.run (step diamond) .empty
        [.query (.attributeType "B" "conn"), .evict (fun e => e.1.1 = "A") fun _ => true,
          .query (.factoryAnswer ⟨"f2", none, false⟩ 1)] = some memo ∧
      (ask diamond memo (.attributeType "C" "conn")).1 =
        (ask diamond .empty (.attributeType "C" "conn")).1 ∧
      (ask diamond memo (.factoryAnswer ⟨"f1", none, false⟩ 1)).1 =
        (ask diamond .empty (.factoryAnswer ⟨"f1", none, false⟩ 1)).1 := by
  have asked : ReachableWhen (fun _ e => EventUncut diamond e) .empty (step diamond) _ :=
    ((ReachableWhen.start.step
      (e := .query (.attributeType "B" "conn")) (by decide +kernel) rfl).step
      (e := .evict (fun e => e.1.1 = "A") fun _ => true) trivial rfl).step
      (e := .query (.factoryAnswer ⟨"f2", none, false⟩ 1)) (by decide +kernel) rfl
  exact ⟨_, rfl, python_types_history_free asked (by decide +kernel),
    python_types_history_free asked (by decide +kernel)⟩

/-- Once `D` is asked for, `C` has lost what it inherits; once `f0` is, `f3` what it returns. -/
theorem python_types_history_dependent :
    (Transitions.run (step diamond) .empty [.query (.attributeType "D" "conn")]).map
        (fun memo => (ask diamond memo (.attributeType "C" "conn")).1) = some ⟨.absent, {"c.py", "a.py"}⟩ ∧
      (ask diamond .empty (.attributeType "C" "conn")).1 = ⟨.ofClass "Conn", {"c.py", "a.py", "conn.py"}⟩ ∧
      (Transitions.run (step diamond) .empty [.query (.factoryAnswer ⟨"f0", none, false⟩ 1)]).map
        (fun memo => (ask diamond memo (.factoryAnswer ⟨"f3", none, false⟩ 1)).1) = some ⟨.unknown, {"f.py"}⟩ ∧
      (ask diamond .empty (.factoryAnswer ⟨"f3", none, false⟩ 1)).1 = ⟨.runtime, {"f.py"}⟩ := by
  decide +kernel

end CodeGraph.Resolution.PythonTypes
