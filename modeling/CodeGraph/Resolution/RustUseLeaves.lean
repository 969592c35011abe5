import CodeGraph.Resolution.RustUsePaths

/-!
# Which use declarations are flattened as Rust means them

The prefix that the walk carries is compared with the one of the meaning, tree by tree.
-/
namespace CodeGraph.Resolution.RustUse

/-! ### The walk on each tree -/

theorem attach_flatMap {α β : Type} (xs : List α) (f : α → List β) :
    (xs.attach.flatMap fun x => f x.1) = xs.flatMap f := by
  rw [List.flatMap_subtype (g := f) fun _ _ => rfl, List.unattach_attach]

theorem path_kind (p : Path) : p.node.kind = .identifier ∨ p.node.kind = .scopedIdentifier ∨
    p.node.kind = .self_ ∨ p.node.kind = .super_ ∨ p.node.kind = .crate_ := by
  simp only [Path.node, Node.kind]
  split
  · cases p.start with
    | segment s => cases s <;> simp [Start.kind]
    | _ => simp [Start.kind]
  · simp

theorem leaves_useDeclaration (d : Declaration) (pre : List (List Char)) :
    rustUseLeaves d.node pre = rustUseLeaves d.tree.node pre := by
  have other : d.tree.node.kind ≠ .visibilityModifier := by
    cases d.tree with
    | path p =>
      rw [UseTree.node]
      rcases path_kind p with kind | kind | kind | kind | kind <;> simp [kind]
    | _ => simp [UseTree.node, Node.kind]
  have kind : d.node.kind = .useDeclaration := rfl
  rw [rustUseLeaves, kind]
  simp only
  rw [attach_flatMap d.node.children fun c =>
    if c.2.kind = .visibilityModifier then [] else rustUseLeaves c.2 pre]
  cases shown : d.visibility with
  | none => simp [Declaration.node, Node.children, shown, other]
  | some text =>
    have modifier : (Node.mk .visibilityModifier text []).kind = .visibilityModifier := rfl
    simp [Declaration.node, Node.children, shown, other, modifier]

theorem leaves_useList (text : List Char) (children : List (Option Field × Node))
    (pre : List (List Char)) :
    rustUseLeaves (.mk .useList text children) pre =
      children.flatMap fun c => rustUseLeaves c.2 pre := by
  have kind : (Node.mk .useList text children).kind = .useList := rfl
  rw [rustUseLeaves, kind]
  exact attach_flatMap children fun c => rustUseLeaves c.2 pre

theorem leaves_nil (text : List Char) (pre : List (List Char)) :
    rustUseLeaves (.mk .useList text UseTrees.nil.children) pre = [] := by
  simp [leaves_useList, UseTrees.children]

theorem leaves_cons (text : List Char) (t : UseTree) (ts : UseTrees) (pre : List (List Char)) :
    rustUseLeaves (.mk .useList text (UseTrees.cons t ts).children) pre =
      rustUseLeaves t.node pre ++ rustUseLeaves (.mk .useList text ts.children) pre := by
  simp [leaves_useList, UseTrees.children]

theorem leaves_scoped (text listText : List Char) (p : Option Path) (items : UseTrees)
    (pre : List (List Char)) :
    rustUseLeaves (UseTree.scoped text listText p items).node pre =
      rustUseLeaves (.mk .useList listText items.children)
        (pre ++ (p.map Path.pieces).getD []) := by
  have kind : (UseTree.scoped text listText p items).node.kind = .scopedUseList := rfl
  have list : (UseTree.scoped text listText p items).node.childByFieldName .list =
      some (.mk .useList listText items.children) := by
    cases p <;> simp [UseTree.node, Node.childByFieldName, Node.children]
  rw [rustUseLeaves, kind]
  simp only
  split
  next found same =>
    rw [list] at same
    cases same
    cases p with
    | none => simp [UseTree.node, Node.childByFieldName, Node.children]
    | some p =>
      have path : p.node.text = p.text := rfl
      simp [UseTree.node, Node.childByFieldName, Node.children, path, p.join_text]
  next missing =>
    rw [list] at missing
    cases missing

theorem leaves_alias (text : List Char) (p : Path) (name : Ident) (pre : List (List Char)) :
    rustUseLeaves (UseTree.alias_ text p name).node pre = [(name.text, pre ++ p.pieces)] := by
  have path : p.node.text = p.text := rfl
  rw [rustUseLeaves]
  simp [UseTree.node, Node.kind, Node.childByFieldName, Node.children, path, p.join_text]
  rfl

theorem leaves_wildcard (text : List Char) (p : Option Path) (pre : List (List Char)) :
    rustUseLeaves (UseTree.wildcard text p).node pre =
      [(['*'], pre ++ (p.map Path.pieces).getD [])] := by
  rw [rustUseLeaves]
  cases p with
  | none => simp [UseTree.node, Node.kind, Node.children]
  | some p =>
    have path : p.node.text = p.text := rfl
    simp [UseTree.node, Node.kind, Node.children, path, p.join_text]

/-- A plain leaf; the path `self` is dropped. -/
theorem leaves_path (p : Path) (pre : List (List Char)) :
    rustUseLeaves p.node pre =
      let path := if p.pieces.getLast? = some selfName then pre else pre ++ p.pieces
      (path.getLast?.map fun last => (last, path)).toList := by
  have last : (pre ++ p.pieces).getLast? = p.pieces.getLast? := by
    apply List.getLast?_append_of_ne_nil
    intro none
    have count := p.pieces_length
    simp [none, Path.segments] at count
  have popped : (if (join pre p.node.text).getLast? = some selfName
      then (join pre p.node.text).dropLast else join pre p.node.text) =
      if p.pieces.getLast? = some selfName then pre else pre ++ p.pieces := by
    have text : p.node.text = p.text := rfl
    rw [text, p.join_text, last]
    split
    next self => simp [p.pieces_self (p.pieces_last_self.mp self)]
    next => rfl
  rw [rustUseLeaves]
  rcases path_kind p with kind | kind | kind | kind | kind <;>
    (rw [kind]; simp only [popped])

/-! ### The comparison -/

theorem joined_eq {cp sp : List (List Char)} (len : cp.length = sp.length) (p : Path) :
    cp ++ p.pieces = sp ++ p.segments ↔ p.Tight ∧ cp = sp := by
  rw [← p.pieces_eq_segments]
  constructor
  · intro same
    obtain ⟨pre, pieces⟩ := List.append_inj same len
    exact ⟨pieces, pre⟩
  · rintro ⟨pieces, rfl⟩
    rw [pieces]

theorem joined_option {cp sp : List (List Char)} (len : cp.length = sp.length) (p : Option Path) :
    cp ++ (p.map Path.pieces).getD [] = sp ++ (p.map Path.segments).getD [] ↔
      (∀ q ∈ p, q.Tight) ∧ cp = sp := by
  cases p with
  | none => simp
  | some p => simpa using joined_eq len p

theorem joined_length {cp sp : List (List Char)} (len : cp.length = sp.length) (p : Option Path) :
    (cp ++ (p.map Path.pieces).getD []).length = (sp ++ (p.map Path.segments).getD []).length := by
  cases p with
  | none => simpa using len
  | some p => simp [len, p.pieces_length]

/-- Two paths of one length give one leaf each, or none, and the same one when they are equal. -/
theorem plain_eq {cp sp : List (List Char)} (len : cp.length = sp.length) :
    ((cp.getLast?.map fun last => (last, cp)).toList.length =
      (sp.getLast?.map fun last => (last, sp)).toList.length) ∧
    ((cp.getLast?.map fun last => (last, cp)).toList =
      (sp.getLast?.map fun last => (last, sp)).toList ↔ cp = sp) := by
  cases cp using List.reverseRecOn with
  | nil =>
    have none : sp = [] := List.length_eq_zero_iff.mp len.symm
    simp [none]
  | append_singleton cp last =>
    cases sp using List.reverseRecOn with
    | nil => simp at len
    | append_singleton sp end_ =>
      simp only [List.getLast?_concat, Option.map_some, Option.toList_some, List.length_singleton,
        List.cons.injEq, Prod.mk.injEq, and_true, true_and]
      constructor
      · exact And.right
      · intro same
        exact ⟨List.singleton_inj.mp (List.append_inj' same rfl).2, same⟩

def Agree (walked meant : List (List Char × List (List Char))) (fine bears : Prop)
    (cp sp : List (List Char)) : Prop :=
  walked.length = meant.length ∧ (walked = meant ↔ fine ∧ (bears → cp = sp))

theorem agree_path {cp sp : List (List Char)} (len : cp.length = sp.length) (p : Path) :
    Agree (rustUseLeaves p.node cp) ((UseTree.path p).leaves sp) p.Tight True cp sp := by
  rw [leaves_path, UseTree.leaves, Path.under, Agree]
  by_cases self : p.IsSelf
  · have last := p.pieces_last_self.mpr self
    have tight := Path.tight_of_self self
    simpa [self, last, tight] using plain_eq len
  · have last : p.pieces.getLast? ≠ some selfName := fun last => self (p.pieces_last_self.mp last)
    have lens : (cp ++ p.pieces).length = (sp ++ p.segments).length := by
      simp [len, p.pieces_length]
    have same := plain_eq lens
    rw [joined_eq len] at same
    simpa [self, last] using same

theorem agree_alias {cp sp : List (List Char)} (len : cp.length = sp.length) (text : List Char)
    (p : Path) (name : Ident) :
    Agree (rustUseLeaves (UseTree.alias_ text p name).node cp)
      ((UseTree.alias_ text p name).leaves sp) (p.Tight ∧ ¬p.IsSelf) True cp sp := by
  rw [leaves_alias, UseTree.leaves, Path.under, Agree]
  by_cases self : p.IsSelf
  · have kept : cp ++ [selfName] ≠ sp := by
      intro same
      have lengths := congrArg List.length same
      simp [len] at lengths
    simp [self, p.pieces_self self, kept]
  · simp [self, joined_eq len]

theorem agree_wildcard {cp sp : List (List Char)} (len : cp.length = sp.length) (text : List Char)
    (p : Option Path) :
    Agree (rustUseLeaves (UseTree.wildcard text p).node cp)
      ((UseTree.wildcard text p).leaves sp) (∀ q ∈ p, q.Tight) True cp sp := by
  rw [leaves_wildcard, UseTree.leaves, Agree]
  simp [joined_option len]

mutual

theorem agree_tree (t : UseTree) {cp sp : List (List Char)} (len : cp.length = sp.length) :
    Agree (rustUseLeaves t.node cp) (t.leaves sp) t.Fine t.Bears cp sp := by
  match t with
  | .path p => simpa [UseTree.node, UseTree.Fine, UseTree.Bears] using agree_path len p
  | .alias_ text p name =>
    simpa only [UseTree.Fine, UseTree.Bears] using agree_alias len text p name
  | .wildcard text p => simpa only [UseTree.Fine, UseTree.Bears] using agree_wildcard len text p
  | .braces text items =>
    simpa only [UseTree.node, UseTree.leaves, UseTree.Fine, UseTree.Bears] using
      agree_trees items text len
  | .scoped text listText p items =>
    have inner := agree_trees items listText (joined_length len p)
    rw [leaves_scoped, UseTree.leaves, UseTree.Fine, UseTree.Bears]
    rw [Agree, joined_option len] at inner
    rw [Agree]
    tauto

theorem agree_trees (ts : UseTrees) (text : List Char) {cp sp : List (List Char)}
    (len : cp.length = sp.length) :
    Agree (rustUseLeaves (.mk .useList text ts.children) cp) (ts.leaves sp) ts.Fine ts.Bears cp sp := by
  match ts with
  | .nil => simp [Agree, leaves_nil, UseTrees.leaves, UseTrees.Fine, UseTrees.Bears]
  | .cons t ts =>
    obtain ⟨count, here⟩ := agree_tree t len
    obtain ⟨counts, later⟩ := agree_trees ts text len
    rw [leaves_cons, UseTrees.leaves, UseTrees.Fine, UseTrees.Bears, Agree]
    constructor
    · rw [List.length_append, List.length_append, count, counts]
    · have both : rustUseLeaves t.node cp ++ rustUseLeaves (.mk .useList text ts.children) cp =
          t.leaves sp ++ ts.leaves sp ↔ rustUseLeaves t.node cp = t.leaves sp ∧
            rustUseLeaves (.mk .useList text ts.children) cp = ts.leaves sp := by
        constructor
        · intro same
          exact List.append_inj same count
        · rintro ⟨first, rest⟩
          rw [first, rest]
      rw [both, here, later]
      tauto

end

/-- A declaration is flattened as it is meant exactly when no alias is one of `self` and no path on
the way to a leaf holds white space. -/
theorem rustUseLeaves_meant (d : Declaration) :
    rustUseLeaves d.node [] = d.tree.leaves [] ↔ d.tree.Fine := by
  have none : ([] : List (List Char)).length = ([] : List (List Char)).length := rfl
  have agree := agree_tree d.tree none
  rw [leaves_useDeclaration, agree.2]
  simp

/-! ### An alias of `self` -/

def letter (c : Char) (other : [c] ≠ selfName) (colon : c ≠ ':') : Ident where
  text := [c]
  ne_nil := by simp
  chars := by simpa using colon
  other := other

def clauseText : List Char := "self as b".toList
def listText : List Char := '{' :: (clauseText ++ ['}'])
def treeText : List Char := "a::".toList ++ listText
def declarationText : List Char := "use ".toList ++ treeText ++ [';']

def selfPath : Path := ⟨.self_, [], []⟩
def listPath : Path := ⟨.segment (.ident (letter 'a' (by decide +kernel) (by decide))), [], []⟩
def aliasName : Ident := letter 'b' (by decide +kernel) (by decide)

/-- `use a::{self as b};` -/
def selfAlias : Declaration where
  text := declarationText
  visibility := none
  tree := .scoped treeText listText (some listPath)
    (.cons (.alias_ clauseText selfPath aliasName) .nil)

/-- The alias of `self` is given a path that ends in `self`, and means the path of the list. -/
theorem self_alias_kept : rustUseLeaves selfAlias.node [] = [(['b'], [['a'], selfName])] ∧
    selfAlias.tree.leaves [] = [(['b'], [['a']])] := by
  have self : selfPath.IsSelf := ⟨rfl, rfl⟩
  constructor
  · rw [leaves_useDeclaration]
    simp only [selfAlias, leaves_scoped, leaves_cons, leaves_alias, leaves_nil,
      selfPath.pieces_self self]
    rfl
  · simp only [selfAlias, UseTree.leaves, UseTrees.leaves, Path.under, self]
    rfl

end CodeGraph.Resolution.RustUse
