import CodeGraph.Foundation.FirstByKey
import CodeGraph.Foundation.InsertionMap
import CodeGraph.Graph.Callers

/-!
# Direct neighbours

What the callers and the callees of one level list: for each neighbour its first row.
-/
namespace CodeGraph.Graph

open FirstByKey

variable {db : Database} {rows : NodeId → List Edge} {far : Edge → NodeId} {id : NodeId}

def directRows (db : Database) (far : Edge → NodeId) (id : NodeId) (rows : List Edge) :
    List (Node × Edge) :=
  (keepNew far [id] (rows.filter fun e => (db.getNodeById (far e)).isSome)).filterMap fun e =>
    (db.getNodeById (far e)).map fun node => (node, e)

/-- The nodes that have been visited are those reported, at a depth of at most 1. -/
structure Shallow (s : CallWalk) : Prop where
  unseen : ∀ x, s.visited x = none ↔ x ∉ s.reported
  depth : ∀ x d, s.visited x = some d → d ≤ 1

theorem Shallow.nearer {s : CallWalk} (shallow : Shallow s) (x : NodeId) :
    nearerThanBefore s.visited x 1 = true ↔ x ∉ s.reported := by
  rw [nearerThanBefore, ← shallow.unseen]
  cases seen : s.visited x with
  | none => simp
  | some d =>
    have small := shallow.depth x d seen
    simp only [decide_eq_true_eq, reduceCtorEq, iff_false]
    omega

private theorem directLoop {fuel : Nat} {nodes : NodeId → Option Node} {es : List Edge}
    (looked : ∀ e ∈ es, nodes (far e) = db.getNodeById (far e)) {s : CallWalk} (shallow : Shallow s) :
    ∃ t, es.foldlM (callStep far nodes (callRecursive db rows far (some 1) (fuel + 1)) 0) s = some t ∧
      t.result = s.result ++ (keepNew far s.reported (es.filter fun e =>
        (db.getNodeById (far e)).isSome)).filterMap fun e =>
          (db.getNodeById (far e)).map fun node => (node, e) := by
  induction es generalizing s with
  | nil => exact ⟨s, rfl, by simp [keepNew]⟩
  | cons e es ih =>
    have later := fun f listed => looked f (List.mem_cons_of_mem e listed)
    rw [List.foldlM_cons, callStep, looked e List.mem_cons_self]
    cases found : db.getNodeById (far e) with
    | none =>
      obtain ⟨t, done, result⟩ := ih later shallow
      refine ⟨t, done, ?_⟩
      rw [List.filter_cons_of_neg (by simp [found])]
      exact result
    | some node =>
      have named : node.id = far e := Database.getNodeById_id found
      rw [List.filter_cons_of_pos (by simp [found]), keepNew]
      by_cases old : far e ∈ s.reported
      · have seen : nearerThanBefore s.visited node.id 1 = false := by
          rw [Bool.eq_false_iff, ne_eq, shallow.nearer, named]
          exact not_not_intro old
        obtain ⟨t, done, result⟩ := ih later shallow
        refine ⟨t, ?_, ?_⟩
        · simp only [Nat.zero_add, seen, Bool.not_false, if_true]
          exact done
        · rw [if_pos old]
          exact result
      · have fresh : node.id ∉ s.reported := named ▸ old
        have seen := (shallow.nearer node.id).mpr fresh
        have deep : reachedLimit (some 1) 1 = true := rfl
        have next : Shallow {
            result := s.result ++ [(node, e)]
            visited := visitedSet s.visited node.id 1
            reported := node.id :: s.reported } := by
          constructor
          · intro x
            by_cases here : x = node.id
            · simp [visitedSet, here]
            · simp [visitedSet, here, shallow.unseen]
          · intro x d marked
            by_cases here : x = node.id
            · simp only [visitedSet, if_pos here, Option.some.injEq] at marked
              omega
            · simp only [visitedSet, if_neg here] at marked
              exact shallow.depth x d marked
        obtain ⟨t, done, result⟩ := ih later next
        refine ⟨t, ?_, ?_⟩
        · simp only [Nat.zero_add, seen, Bool.not_true, Bool.false_eq_true, if_false, if_neg fresh,
            callRecursive, deep, if_true]
          exact done
        · rw [if_neg old, List.filterMap_cons, found, result]
          simp [named]

theorem callsFrom_direct (db : Database) (rows : NodeId → List Edge) (far : Edge → NodeId)
    (id : NodeId) : callsFrom db rows far id (some 1) = some (directRows db far id (rows id)) := by
  have fuel : callFuel db = db.nodes.length + 1 + 1 := rfl
  have near : nearerThanBefore (fun _ => none) id 0 = true := rfl
  have shallow : reachedLimit (some 1) 0 = false := rfl
  have looked : ∀ e ∈ rows id, db.getNodesByIds ((rows id).map far) (far e) = db.getNodeById (far e) :=
    fun e listed => Database.getNodesByIds_mem (List.mem_map_of_mem listed)
  have start : Shallow ⟨[], visitedSet (fun _ => none) id 0, [id]⟩ := by
    constructor
    · intro x
      by_cases here : x = id <;> simp [visitedSet, here]
    · intro x d marked
      by_cases here : x = id
      · simp only [visitedSet, if_pos here, Option.some.injEq] at marked
        omega
      · simp [visitedSet, here] at marked
  obtain ⟨t, done, result⟩ := @directLoop db rows far db.nodes.length _ _ looked _ start
  rw [callsFrom, fuel, callRecursive]
  simp only [near, Bool.not_true, Bool.false_eq_true, if_false, shallow]
  rw [done, Option.map_some, result]
  rfl

theorem mem_directRows {es : List Edge} {node : Node} {e : Edge} :
    (node, e) ∈ directRows db far id es ↔ db.getNodeById (far e) = some node ∧ far e ≠ id ∧
      First far (es.filter fun e => (db.getNodeById (far e)).isSome) e := by
  rw [directRows, List.mem_filterMap]
  constructor
  · rintro ⟨f, kept, found⟩
    obtain ⟨other, looked, same⟩ := Option.map_eq_some_iff.mp found
    cases same
    obtain ⟨new, first⟩ := mem_keepNew.mp kept
    exact ⟨looked, fun same => new (List.mem_singleton.mpr same), first⟩
  · rintro ⟨found, other, first⟩
    refine ⟨e, mem_keepNew.mpr ⟨fun listed => other (List.mem_singleton.mp listed), first⟩, ?_⟩
    rw [found]
    rfl

end CodeGraph.Graph

/-!
# The directed flow

The search from both ends for a call path (`walkBidirectional` in `graph/named-symbol-flow.ts`).
-/
namespace CodeGraph.Graph.DirectedFlow

open InsertionMap

def FLOW_EDGE_KINDS : List EdgeKind := [.calls, .navigates]

def DIRECTED_VISIT_CAP : Nat := 12000

structure FlowStep where
  node : Node
  edge : Option Edge
  deriving DecidableEq, Repr

/-- One side of the search: each node that it has reached, with the node that it has been reached
from and the edge that joins them; the nodes by their ids; and the last level. -/
structure Side where
  links : List (NodeId × Option (NodeId × Edge))
  nodes : List (NodeId × Node)
  front : List Node

namespace Side

def keys (s : Side) : List NodeId := s.links.map Prod.fst

def visit (node : Node) (s : Side) (c : Node × Edge) : Side :=
  if c.2.kind ∉ FLOW_EDGE_KINDS ∨ c.1.id ∈ s.keys then s
  else {
    links := assign s.links c.1.id (some (node.id, c.2))
    nodes := assign s.nodes c.1.id c.1
    front := s.front ++ [c.1] }

def expand (neighbours : NodeId → List (Node × Edge)) (s : Side) : Side :=
  s.front.foldl (fun t node => (neighbours node.id).foldl (visit node) t) { s with front := [] }

/-- From a node back to where the side began; the fuel bounds the links. An empty id ends the way. -/
def wayTo (s : Side) : Nat → Option NodeId → Option (List FlowStep)
  | 0, _ => none
  | _ + 1, none => some []
  | fuel + 1, some id =>
    if id = "" then some []
    else
      match lookup s.links id, lookup s.nodes id with
      | some link, some node =>
        (wayTo s fuel (link.map Prod.fst)).map fun steps => steps ++ [⟨node, link.map Prod.snd⟩]
      | _, _ => some []

def wayFrom (s : Side) : Nat → Option (NodeId × Edge) → Option (List FlowStep)
  | 0, _ => none
  | _ + 1, none => some []
  | fuel + 1, some (next, edge) =>
    match lookup s.nodes next with
    | none => some []
    | some node =>
      (wayFrom s fuel (lookup s.links next).join).map fun steps => ⟨node, some edge⟩ :: steps

end Side

inductive Outcome where
  | found (steps : List FlowStep)
  | nothing
  | capped
  deriving DecidableEq, Repr

def meetAt (forward backward : Side) : Option NodeId :=
  forward.keys.find? (· ∈ backward.keys)

def joinAt (sinks : List NodeId) (maxHops : Nat) (forward backward : Side) (meet : NodeId) :
    Option Outcome := do
  let start ← forward.wayTo (forward.links.length + 1) (some meet)
  let rest ← backward.wayFrom (backward.links.length + 1) (lookup backward.links meet).join
  let steps := start ++ rest
  match steps.getLast? with
  | none => some .nothing
  | some last =>
    if steps.length < 2 ∨ last.node.id ∉ sinks then some .nothing
    else if steps.length ≤ maxHops then some (.found steps)
    else some .nothing

/-- `getCallees` and `getCallers` of one level. -/
def calleesOf (db : Database) (id : NodeId) : List (Node × Edge) :=
  (getCallees db.store id (some 1)).getD []

def callersOf (db : Database) (id : NodeId) : List (Node × Edge) :=
  (getCallers db.store id (some 1)).getD []

def levels (db : Database) (sinks : List NodeId) (maxHops : Nat) :
    Nat → Side → Side → Option Outcome
  | 0, _, _ => some .nothing
  | laid + 1, forward, backward =>
    if forward.front.length ≤ backward.front.length then
      if forward.links.length > DIRECTED_VISIT_CAP then some .capped
      else
        let forward := forward.expand (calleesOf db)
        if forward.front = [] then some .nothing
        else
          match meetAt forward backward with
          | none => levels db sinks maxHops laid forward backward
          | some meet => joinAt sinks maxHops forward backward meet
    else
      if backward.links.length > DIRECTED_VISIT_CAP then some .capped
      else
        let backward := backward.expand (callersOf db)
        if backward.front = [] then some .nothing
        else
          match meetAt forward backward with
          | none => levels db sinks maxHops laid forward backward
          | some meet => joinAt sinks maxHops forward backward meet

def seedSide (seed : Node) : Side := ⟨[(seed.id, none)], [(seed.id, seed)], [seed]⟩

def sinkSide (db : Database) (sinks : List NodeId) : Side :=
  sinks.foldl (fun s id =>
    match db.getNodeById id with
    | none => s
    | some node => {
        links := assign s.links id none
        nodes := assign s.nodes id node
        front := s.front ++ [node] }) ⟨[], [], []⟩

def search (db : Database) (seed : Node) (sinks : List NodeId) (maxHops : Nat) : Option Outcome :=
  if seed.id ∈ sinks then some .nothing
  else if (sinkSide db sinks).front = [] then some .nothing
  else levels db sinks maxHops (max 1 (maxHops - 1)) (seedSide seed) (sinkSide db sinks)

/-- The path, or none; the outer `none` is a search that does not end. -/
def walkBidirectional (db : Database) (seed : Node) (sinks : List NodeId) (maxHops : Nat) :
    Option (Option (List FlowStep)) :=
  (search db seed sinks maxHops).map fun
    | .found steps => some steps
    | .nothing => none
    | .capped => none

def Joins (db : Database) (a b : NodeId) (e : Edge) : Prop :=
  e ∈ db.edges ∧ e.kind ∈ FLOW_EDGE_KINDS ∧ e.source = a ∧ e.target = b

def FlowEdge (db : Database) (a b : NodeId) : Prop :=
  (db.getNodeById a).isSome ∧ (db.getNodeById b).isSome ∧ ∃ e, Joins db a b e

def Follows (db : Database) (s t : FlowStep) : Prop :=
  ∃ e, t.edge = some e ∧ Joins db s.node.id t.node.id e

structure FlowPath (db : Database) (seed : Node) (sinks : List NodeId) (steps : List FlowStep) :
    Prop where
  first : steps.head? = some ⟨seed, none⟩
  last : ∃ s, steps.getLast? = some s ∧ s.node.id ∈ sinks
  chain : steps.IsChain (Follows db)
  nodes : ∀ s ∈ steps, db.getNodeById s.node.id = some s.node
  once : (steps.map fun s => s.node.id).Nodup

end CodeGraph.Graph.DirectedFlow
