import CodeGraph.Foundation.InsertionMap
import CodeGraph.Graph.Database

/-!
# The named flow

The walk from one symbol over calls that passes named symbols (`walkCalls` in
`graph/named-symbol-flow.ts`).
-/
namespace CodeGraph.Graph.NamedFlow

open InsertionMap

def FLOW_EDGE_KINDS : List EdgeKind := [.calls, .navigates]

def NAMED_VISIT_CAP : Nat := 1500

/-- A row of `getCallees`; `synthesizedBy` is in the edge's metadata. -/
structure Callee where
  node : Node
  edge : Edge
  synthesizedBy : Option String
  deriving DecidableEq, Repr

structure WalkStep where
  /-- The key of the route this one extends. -/
  prev : Option Nat
  edge : Option Edge
  node : Node
  /-- Hops from the seed. -/
  depth : Nat
  /-- Unnamed hops the route ends on. -/
  streak : Nat
  /-- Named symbols on the route. -/
  named : Nat
  deriving DecidableEq, Repr

structure Search where
  calleesOf : NodeId → List Callee
  seed : Node
  named : List NodeId
  maxHops : Nat
  maxBridge : Nat

/-- The maps of the walk; a route's key is its place in `parent`. -/
structure Walk where
  parent : List WalkStep
  routes : List (NodeId × List Nat)
  beaten : List Nat
  queue : List Nat
  slot : List Nat
  deriving DecidableEq, Repr

/-- The steps of a route, from its end back to the seed; the fuel bounds them. -/
def stepsBack (parent : List WalkStep) : Nat → Option Nat → List WalkStep
  | 0, _ => []
  | _ + 1, none => []
  | fuel + 1, some key =>
    match parent[key]? with
    | none => []
    | some step => step :: stepsBack parent fuel step.prev

/-- Whether the route ending at `key` passes a node. -/
def onRoute (parent : List WalkStep) (key : Nat) (id : NodeId) : Bool :=
  (stepsBack parent parent.length (some key)).any (·.node.id = id)

def beats (a b : WalkStep) : Bool := a.depth ≤ b.depth && b.named ≤ a.named && a.streak ≤ b.streak

namespace Walk

def empty : Walk := ⟨[], [], [], [], []⟩

def kept (w : Walk) (id : NodeId) : List Nat := (lookup w.routes id).getD []

def lost (w : Walk) (step : WalkStep) : List Nat :=
  (w.kept step.node.id).filter fun other => (w.parent[other]?).any (beats step)

def keep (w : Walk) (step : WalkStep) : Walk :=
  if (w.kept step.node.id).any fun other => (w.parent[other]?).any (beats · step) then w
  else
    let key := w.parent.length
    let live := (w.kept step.node.id).filter (fun other => !(w.parent[other]?).any (beats step)) ++ [key]
    match ((w.lost step).map fun other => (w.slot[other]?).getD 0).min? with
    | none =>
      ⟨w.parent ++ [step], assign w.routes step.node.id live, w.beaten, w.queue ++ [key],
        w.slot ++ [w.queue.length]⟩
    | some place =>
      ⟨w.parent ++ [step], assign w.routes step.node.id live, w.beaten ++ w.lost step, w.queue.set place key,
        w.slot ++ [place]⟩

end Walk

namespace Search

def start (g : Search) : WalkStep := ⟨none, none, g.seed, 0, 0, if g.seed.id ∈ g.named then 1 else 0⟩

def free (c : Callee) : Bool := c.node.kind = .route || c.synthesizedBy = some "const-alias"

def streakAt (g : Search) (streak : Nat) (c : Callee) : Nat :=
  if c.node.id ∈ g.named then 0 else if free c then streak else streak + 1

def onward (g : Search) (prev : Option Nat) (at_ : WalkStep) (c : Callee) : WalkStep :=
  ⟨prev, some c.edge, c.node, at_.depth + 1, g.streakAt at_.streak c,
    at_.named + if c.node.id ∈ g.named then 1 else 0⟩

def visit (g : Search) (key : Nat) (at_ : WalkStep) (w : Walk) (c : Callee) : Walk :=
  if c.edge.kind ∉ FLOW_EDGE_KINDS then w
  else if g.maxBridge < g.streakAt at_.streak c then w
  else if onRoute w.parent key c.node.id then w
  else w.keep (g.onward (some key) at_ c)

/-- The loop over the queue; the fuel bounds its rounds. -/
def rounds (g : Search) : Nat → Walk → (head : Nat) → (reached : List Nat) → Option (Walk × List Nat)
  | 0, _, _, _ => none
  | fuel + 1, w, head, reached =>
    match w.queue[head]? with
    | none => some (w, reached)
    | some key =>
      if NAMED_VISIT_CAP ≤ w.routes.length then some (w, reached)
      else if key ∈ w.beaten then rounds g fuel w (head + 1) reached
      else
        match w.parent[key]? with
        | none => rounds g fuel w (head + 1) reached
        | some at_ =>
          let reached :=
            if at_.node.id ≠ g.seed.id ∧ at_.node.id ∈ g.named then reached ++ [key] else reached
          if g.maxHops ≤ at_.depth + 1 then rounds g fuel w (head + 1) reached
          else rounds g fuel ((g.calleesOf at_.node.id).foldl (g.visit key at_) w) (head + 1) reached

def walkCalls (g : Search) (fuel : Nat) : Option (Walk × List Nat) :=
  g.rounds fuel (Walk.empty.keep g.start) 0 []

/-- A simple path from the seed over admitted edges, its end first, with what each step carries. -/
inductive Route (g : Search) : List WalkStep → Prop
  | seed : Route g [g.start]
  | hop {prev : Option Nat} {at_ : WalkStep} {rest : List WalkStep} {c : Callee} (route : Route g (at_ :: rest))
      (callee : c ∈ g.calleesOf at_.node.id) (kind : c.edge.kind ∈ FLOW_EDGE_KINDS)
      (bridge : g.streakAt at_.streak c ≤ g.maxBridge) (simple : ∀ s ∈ at_ :: rest, s.node.id ≠ c.node.id)
      (short : at_.depth + 1 < g.maxHops) : Route g (g.onward prev at_ c :: at_ :: rest)

def Recorded (g : Search) (w : Walk) (reached : List Nat) : Prop :=
  ∀ key ∈ reached, ∃ step rest, stepsBack w.parent w.parent.length (some key) = step :: rest ∧
    g.Route (step :: rest) ∧ step.node.id ≠ g.seed.id ∧ step.node.id ∈ g.named

def Complete (g : Search) (w : Walk) (reached : List Nat) : Prop :=
  ∀ step rest, g.Route (step :: rest) → step.node.id ≠ g.seed.id → step.node.id ∈ g.named →
    ∃ key ∈ reached, ∃ found, w.parent[key]? = some found ∧ found.node.id = step.node.id

/-- The walk ends, its routes are as recorded, and below the cap none is missing. -/
def Finds (g : Search) : Prop :=
  ∃ n w reached, (∀ fuel, n ≤ fuel → g.walkCalls fuel = some (w, reached)) ∧ g.Recorded w reached ∧
    (w.routes.length < NAMED_VISIT_CAP → g.Complete w reached)

/-- Where a route beats another one to a node, and the other one can be extended to a symbol that the
better one passes already, the better one has come to that symbol no worse. -/
def Replaceable (g : Search) : Prop :=
  ∀ better other p q step, g.Route (better :: p) → g.Route (other :: q) → better.node.id = other.node.id →
    beats better other = true → g.Route (step :: other :: q) →
      ∀ passed ∈ better :: p, passed.node.id = step.node.id → beats passed step = true

end Search

end CodeGraph.Graph.NamedFlow
