import CodeGraph.Foundation.RustText

/-!
# The leaves of a Rust `use` declaration

A declaration is the syntax tree that the parser builds for it, with the texts of its nodes.
-/
namespace CodeGraph.Resolution.RustUse

inductive Kind where
  | useDeclaration | visibilityModifier | scopedUseList | useList | useAsClause | useWildcard
  | identifier | scopedIdentifier | self_ | super_ | crate_ | other
  deriving DecidableEq, Repr

inductive Field where
  | argument | path | list | alias_ | name
  deriving DecidableEq, Repr

/-- A named node of the tree, with its named children and the fields they stand in. -/
inductive Node where
  | mk (kind : Kind) (text : List Char) (children : List (Option Field × Node))

namespace Node

def kind : Node → Kind
  | .mk kind _ _ => kind

def text : Node → List Char
  | .mk _ text _ => text

def children : Node → List (Option Field × Node)
  | .mk _ _ children => children

def childByFieldName (n : Node) (field : Field) : Option Node :=
  (n.children.find? fun child => child.1 = some field).map Prod.snd

theorem sizeOf_child {n : Node} {child : Option Field × Node} (mem : child ∈ n.children) :
    sizeOf child.2 < sizeOf n := by
  obtain ⟨kind, text, children⟩ := n
  have inside := List.sizeOf_lt_of_mem (show child ∈ children from mem)
  obtain ⟨field, node⟩ := child
  simp only [Prod.mk.sizeOf_spec, Node.mk.sizeOf_spec] at inside ⊢
  omega

theorem sizeOf_field {n child : Node} {field : Field}
    (found : n.childByFieldName field = some child) : sizeOf child < sizeOf n := by
  obtain ⟨pair, listed, rfl⟩ := Option.map_eq_some_iff.mp found
  exact sizeOf_child (List.mem_of_find?_eq_some listed)

end Node

/-- `str::split("::")` -/
def splitColons : List Char → List (List Char)
  | [] => [[]]
  | ':' :: ':' :: rest => [] :: splitColons rest
  | c :: rest => (splitColons rest).modifyHead (c :: ·)

def selfName : List Char := "self".toList

def join (pre : List (List Char)) (s : List Char) : List (List Char) :=
  pre ++ (splitColons s).filter (· ≠ [])

def rustUseLeaves (n : Node) (pre : List (List Char)) : List (List Char × List (List Char)) :=
  match n.kind with
  | .useDeclaration =>
    n.children.attach.flatMap fun ⟨c, _listed⟩ =>
      if c.2.kind = .visibilityModifier then [] else rustUseLeaves c.2 pre
  | .scopedUseList =>
    let p := ((n.childByFieldName .path).map fun p => join pre p.text).getD pre
    match _found : n.childByFieldName .list with
    | some list => rustUseLeaves list p
    | none => []
  | .useList => n.children.attach.flatMap fun ⟨c, _listed⟩ => rustUseLeaves c.2 pre
  | .useAsClause =>
    match n.childByFieldName .path, n.childByFieldName .alias_ with
    | some path, some name => [(name.text, join pre path.text)]
    | _, _ => []
  | .useWildcard =>
    [(['*'], (n.children.head?.map fun p => join pre p.2.text).getD pre)]
  | .identifier | .scopedIdentifier | .self_ | .super_ | .crate_ =>
    let p := join pre n.text
    let p := if p.getLast? = some selfName then p.dropLast else p
    (p.getLast?.map fun last => (last, p)).toList
  | .visibilityModifier | .other => []
termination_by sizeOf n
decreasing_by
  · exact Node.sizeOf_child _listed
  · exact Node.sizeOf_field _found
  · exact Node.sizeOf_child _listed

/-!
### Use declarations of Rust, and what they mean

A declaration is a tree of the grammar, with the syntax tree that the parser builds for it.
-/

open RustText

structure Gap where
  text : List Char
  blank : ∀ c ∈ text, isWhitespace c = true

structure Ident where
  text : List Char
  ne_nil : text ≠ []
  chars : ∀ c ∈ text, c ≠ ':'
  other : text ≠ selfName

/-- What can stand after `::`. -/
inductive Segment where
  | ident (name : Ident)
  | super_

def superName : List Char := "super".toList
def crateName : List Char := "crate".toList

def Segment.text : Segment → List Char
  | .ident name => name.text
  | .super_ => superName

inductive Start where
  | segment (s : Segment)
  | self_
  | crate_
  /-- `::` before the first segment. -/
  | global (gap : Gap) (s : Segment)

namespace Start

def text : Start → List Char
  | .segment s => s.text
  | .self_ => selfName
  | .crate_ => crateName
  | .global gap s => ':' :: ':' :: (gap.text ++ s.text)

def name : Start → List Char
  | .segment s | .global _ s => s.text
  | .self_ => selfName
  | .crate_ => crateName

def kind : Start → Kind
  | .segment (.ident _) => .identifier
  | .segment .super_ => .super_
  | .self_ => .self_
  | .crate_ => .crate_
  | .global _ _ => .scopedIdentifier

end Start

/-- `::` and a segment. -/
structure Step where
  before : Gap
  after : Gap
  segment : Segment

structure Path where
  start : Start
  steps : List Step
  parts : List (Option Field × Node)

namespace Path

def text (p : Path) : List Char :=
  p.start.text ++ p.steps.flatMap fun s => s.before.text ++ (':' :: ':' :: (s.after.text ++ s.segment.text))

def segments (p : Path) : List (List Char) := p.start.name :: p.steps.map fun s => s.segment.text

def node (p : Path) : Node :=
  .mk (if p.steps = [] then p.start.kind else .scopedIdentifier) p.text p.parts

/-- The path `self`. -/
def IsSelf (p : Path) : Prop := p.start = .self_ ∧ p.steps = []

def Tight (p : Path) : Prop :=
  (∀ gap s, p.start = .global gap s → gap.text = []) ∧
    ∀ s ∈ p.steps, s.before.text = [] ∧ s.after.text = []

end Path

/-! ### Trees -/

mutual

/-- A tree of the grammar. The texts are those of its nodes, which nothing reads. -/
inductive UseTree where
  | path (p : Path)
  | alias_ (text : List Char) (p : Path) (name : Ident)
  /-- `*`, after a path or not. -/
  | wildcard (text : List Char) (p : Option Path)
  /-- A list without `::` before it. -/
  | braces (text : List Char) (items : UseTrees)
  /-- A list after `::`. -/
  | scoped (text listText : List Char) (p : Option Path) (items : UseTrees)

inductive UseTrees where
  | nil
  | cons (t : UseTree) (ts : UseTrees)

end

mutual

def UseTree.node : UseTree → Node
  | .path p => p.node
  | .alias_ text p name =>
    .mk .useAsClause text [(some .path, p.node), (some .alias_, .mk .identifier name.text [])]
  | .wildcard text p => .mk .useWildcard text (p.map fun p => (none, p.node)).toList
  | .braces text items => .mk .useList text items.children
  | .scoped text listText p items =>
    .mk .scopedUseList text ((p.map fun p => (some .path, p.node)).toList ++
      [(some .list, .mk .useList listText items.children)])

def UseTrees.children : UseTrees → List (Option Field × Node)
  | .nil => []
  | .cons t ts => (none, t.node) :: ts.children

end

structure Declaration where
  text : List Char
  /-- The text of `pub` and what belongs to it. -/
  visibility : Option (List Char)
  tree : UseTree

def Declaration.node (d : Declaration) : Node :=
  .mk .useDeclaration d.text ((d.visibility.map fun text => (none, .mk .visibilityModifier text [])).toList ++
    [(some .argument, d.tree.node)])

open Classical in
/-- The path that `p` stands for under another: `self` is the other itself. -/
noncomputable def Path.under (pre : List (List Char)) (p : Path) : List (List Char) :=
  if p.IsSelf then pre else pre ++ p.segments

mutual

noncomputable def UseTree.leaves (pre : List (List Char)) :
    UseTree → List (List Char × List (List Char))
  | .path p => ((p.under pre).getLast?.map fun last => (last, p.under pre)).toList
  | .alias_ _ p name => [(name.text, p.under pre)]
  | .wildcard _ p => [(['*'], pre ++ (p.map Path.segments).getD [])]
  | .braces _ items => items.leaves pre
  | .scoped _ _ p items => items.leaves (pre ++ (p.map Path.segments).getD [])

noncomputable def UseTrees.leaves (pre : List (List Char)) :
    UseTrees → List (List Char × List (List Char))
  | .nil => []
  | .cons t ts => t.leaves pre ++ ts.leaves pre

end

mutual

def UseTree.Bears : UseTree → Prop
  | .path _ | .alias_ _ _ _ | .wildcard _ _ => True
  | .braces _ items | .scoped _ _ _ items => items.Bears

def UseTrees.Bears : UseTrees → Prop
  | .nil => False
  | .cons t ts => t.Bears ∨ ts.Bears

end

mutual

/-- No path on the way to a leaf holds white space, and no alias is one of `self`. -/
def UseTree.Fine : UseTree → Prop
  | .path p => p.Tight
  | .alias_ _ p _ => p.Tight ∧ ¬p.IsSelf
  | .wildcard _ p => ∀ q ∈ p, q.Tight
  | .braces _ items => items.Fine
  | .scoped _ _ p items => items.Fine ∧ (items.Bears → ∀ q ∈ p, q.Tight)

def UseTrees.Fine : UseTrees → Prop
  | .nil => True
  | .cons t ts => t.Fine ∧ ts.Fine

end

end CodeGraph.Resolution.RustUse
