import CodeGraph.Foundation.InsertionMap

/-! Python attribute types from class bodies, factories and base classes. -/
namespace CodeGraph.Resolution.PythonTypes

open BoundedMemo

inductive Answer where
  | ofClass (id : String)
  | declared (id : String)
  | runtime
  | unknown
  | absent
deriving DecidableEq

structure Reading where
  answer : Answer
  files : Finset String
deriving DecidableEq

def agreeWith : Answer → List Answer → Answer
  | selected, [] => selected
  | selected, answer :: rest =>
    match selected, answer with
    | _, .absent => agreeWith selected rest
    | .absent, _ => agreeWith answer rest
    | .runtime, .runtime => agreeWith selected rest
    | .ofClass a, .ofClass b | .ofClass a, .declared b
    | .declared a, .ofClass b | .declared a, .declared b =>
      if a = b then agreeWith selected rest else .unknown
    | _, _ => .unknown

def agree (answers : List Answer) : Answer := agreeWith .absent answers

def memoCapacity : Nat := 8192

/-! ### Attributes -/

/-- What a base expression names; the marker bases (`object`, `ABC`, the enums, the exceptions) and
the names that nothing is known of are passed over. -/
inductive Base where
  | ofClass (id : String)
  | runtime
  | passed

/-- What the class statement says. `own` is the answer of the attribute's assignments, if there are
any, with the files that evidence names; a class whose file or body cannot be read is not
`parsed`. -/
structure ClassFacts where
  filePath : String
  parsed : Bool
  own : String → Option Answer
  ownFiles : String → Finset String
  constructorOnly : String → Bool
  bases : List Base

structure ClassGraph where
  facts : String → ClassFacts
  derivesFrom : String → String → Bool

def ownSettles : Option Answer → Bool → Bool
  | none, _ => false
  | some .unknown, _ => true
  | some _, constructorOnly => constructorOnly

def combined (own inherited : Answer) : Answer :=
  if agree [own, inherited] = .unknown then .runtime else agree [own, inherited]

def withInherited (derivesFrom : String → String → Bool) : Option Answer → Answer → Answer
  | none, inherited => inherited
  | some (.ofClass c), .declared b =>
    if derivesFrom c b then .ofClass c else combined (.ofClass c) (.declared b)
  | some (.declared c), .declared b =>
    if derivesFrom c b then .declared c else combined (.declared c) (.declared b)
  | some own, inherited => combined own inherited

section Attributes

variable {σ : Type} (G : ClassGraph) (attr : String)

def baseAnswers (recur : String → σ → Reading × σ) : List Base → σ → (List Answer × Finset String) × σ
  | [], s => (([], ∅), s)
  | .ofClass base :: rest, s =>
    let (reading, s) := recur base s
    let ((answers, files), s) := baseAnswers recur rest s
    ((reading.answer :: answers, insert (G.facts base).filePath (reading.files ∪ files)), s)
  | .runtime :: rest, s =>
    let ((answers, files), s) := baseAnswers recur rest s
    ((.runtime :: answers, files), s)
  | .passed :: rest, s => baseAnswers recur rest s

/-- The bases are not asked where the class cannot be read or its own answer settles the matter. -/
def settledHere (id : String) : Bool :=
  !(G.facts id).parsed || ownSettles ((G.facts id).own attr) ((G.facts id).constructorOnly attr)

def ownReading (id : String) : Reading :=
  if (G.facts id).parsed then
    ⟨((G.facts id).own attr).getD .unknown, insert (G.facts id).filePath ((G.facts id).ownFiles attr)⟩
  else ⟨.unknown, {(G.facts id).filePath}⟩

def pythonAttributeTypeUncached (recur : String → σ → Reading × σ) (id : String) (s : σ) :
    Reading × σ :=
  if settledHere G attr id then (ownReading G attr id, s)
  else
    let ((answers, files), s) := baseAnswers G recur (G.facts id).bases s
    (⟨withInherited G.derivesFrom ((G.facts id).own attr) (agree answers),
      (ownReading G attr id).files ∪ files⟩, s)

structure AttributeWalk where
  seen : List String
  memo : List ((String × String) × Reading)

def walkLimit : Nat := 8

/-- The first argument bounds the nesting; every call enters a class, so that a query which starts
with `walkLimit` never runs out of it. -/
def pythonAttributeType : Nat → String → AttributeWalk → Reading × AttributeWalk
  | 0, _, walk => (⟨.absent, ∅⟩, walk)
  | levels + 1, id, walk =>
    if walkLimit ≤ walk.seen.length ∨ id ∈ walk.seen then (⟨.absent, ∅⟩, walk)
    else
      let walk := { walk with seen := id :: walk.seen }
      match InsertionMap.lookup walk.memo (id, attr) with
      | some reading => (reading, walk)
      | none =>
        let (reading, walk) :=
          pythonAttributeTypeUncached G attr (pythonAttributeType levels) id walk
        (reading, { walk with memo := remember memoCapacity walk.memo (id, attr) reading })

end Attributes

/-! ### Factories -/

/-- What a call's name leads to, a receiver standing for the class that a factory method is called
on. -/
inductive Callee where
  | settled (answer : Answer)
  | factory (id : String) (receiver : Option String)
deriving DecidableEq

/-- A value by how it is read: `settled` are the literals, the annotated parameters, and what is
not understood; `receiver` is a call of `cls`. -/
inductive PyValue where
  | settled (reading : Reading)
  | receiver
  | parenthesized (value : PyValue)
  | await (value : PyValue)
  | conditional (first second : PyValue)
  | call (files : Finset String) (callee : Callee)
deriving DecidableEq

inductive ReturnType where
  | self
  | named (reading : Reading)
deriving DecidableEq

/-- The statements of a body that matter, in the order in which they are met. -/
inductive BodyStep where
  | returned (value : PyValue)
  | yielded
deriving DecidableEq

structure FactoryFacts where
  filePath : String
  parsed : Bool
  isAsync : Bool
  returnType : Option ReturnType
  body : List BodyStep

structure FactoryKey where
  factory : String
  receiver : Option String
  awaited : Bool
deriving DecidableEq

def receiverAnswer : Option String → Answer
  | none => .unknown
  | some id => .ofClass id

section Factories

variable {σ : Type} (facts : String → FactoryFacts)

/-- The answers of the returned values, none if the body yields, and their files. -/
def bodyAnswers (value : PyValue → σ → Reading × σ) :
    List BodyStep → σ → (Option (List Answer) × Finset String) × σ
  | [], s => ((some [], ∅), s)
  | .yielded :: _, s => ((none, ∅), s)
  | .returned v :: rest, s =>
    let (reading, s) := value v s
    let ((answers, files), s) := bodyAnswers value rest s
    ((answers.map (reading.answer :: ·), reading.files ∪ files), s)

def declaredReading (key : FactoryKey) : Option Reading :=
  let f := facts key.factory
  if !f.parsed then some ⟨.unknown, {f.filePath}⟩
  else if !key.awaited && f.isAsync then some ⟨.runtime, {f.filePath}⟩
  else
    match f.returnType with
    | some .self => some ⟨receiverAnswer key.receiver, {f.filePath}⟩
    | some (.named reading) => some ⟨reading.answer, insert f.filePath reading.files⟩
    | none => none

def pythonFactoryAnswerUncached (value : PyValue → σ → Reading × σ) (key : FactoryKey) (s : σ) :
    Reading × σ :=
  match declaredReading facts key with
  | some reading => (reading, s)
  | none =>
    let f := facts key.factory
    let ((answers, files), s) := bodyAnswers value f.body s
    (⟨(answers.map agree).getD .runtime, insert f.filePath files⟩, s)

def maxDepth : Nat := 8

abbrev Memoise (σ : Type) := FactoryKey → (σ → Reading × σ) → σ → Reading × σ

variable (memoise : Memoise σ)

mutual

/-- The first argument is what is left of `maxDepth`. -/
def pythonValueAnswer : Nat → Option String → Bool → PyValue → σ → Reading × σ
  | 0, _, _, _, s => (⟨.unknown, ∅⟩, s)
  | left + 1, receiver, underAwait, value, s =>
    match value with
    | .settled reading => (reading, s)
    | .receiver => (⟨receiverAnswer receiver, ∅⟩, s)
    | .parenthesized v => pythonValueAnswer left receiver false v s
    | .await v => pythonValueAnswer left receiver true v s
    | .conditional a b =>
      let (first, s) := pythonValueAnswer left receiver false a s
      let (second, s) := pythonValueAnswer left receiver false b s
      (⟨agree [first.answer, second.answer], first.files ∪ second.files⟩, s)
    | .call files (.settled answer) => (⟨answer, files⟩, s)
    | .call files (.factory id on) =>
      let (reading, s) := pythonFactoryAnswer left ⟨id, on, underAwait⟩ s
      (⟨reading.answer, files ∪ reading.files⟩, s)

def pythonFactoryAnswer : Nat → FactoryKey → σ → Reading × σ
  | 0, _, s => (⟨.unknown, ∅⟩, s)
  | left + 1, key, s =>
    memoise key (pythonFactoryAnswerUncached facts (pythonValueAnswer left key.receiver false) key) s

end

end Factories

abbrev FactoryMemo := List (FactoryKey × Reading)

def remembered : Memoise FactoryMemo := fun key compute memo =>
  match InsertionMap.lookup memo key with
  | some reading => (reading, memo)
  | none =>
    let (reading, memo) := compute memo
    (reading, remember memoCapacity memo key reading)

end CodeGraph.Resolution.PythonTypes
