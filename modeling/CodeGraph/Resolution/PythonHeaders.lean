import CodeGraph.Resolution.PythonParams

/-!
# Function headers of Python

A header is a tree with its text. Of an expression the tree has what stands outside brackets: its
lambdas, with their parameters, and everything else as characters. The contents of strings are
blanks. Every header of Python's grammar is such a tree, and more texts are.
-/
namespace CodeGraph.Resolution.PythonParams

/-! ### Tokens -/

def isBlank (c : Char) : Bool := c == ' ' || c == '\t' || c == '\x0c'

structure Gap where
  text : List Char
  blank : ∀ c ∈ text, isBlank c = true

def inIdent (c : Char) : Bool :=
  if c.toNat < 0x80 then c.isAlphanum || c == '_' else !RustText.isWhitespace c

structure Ident where
  text : List Char
  ne_nil : text ≠ []
  chars : ∀ c ∈ text, inIdent c = true
  start : ∀ c ∈ text.head?, c.isDigit = false

def isPlain (c : Char) : Bool := !isOpen c && !isClose c && c != ','

inductive Bracket where
  | round
  | square
  | curly

def Bracket.open_ : Bracket → Char
  | .round => '('
  | .square => '['
  | .curly => '{'

def Bracket.close : Bracket → Char
  | .round => ')'
  | .square => ']'
  | .curly => '}'

inductive Balanced where
  | done
  | char (c : Char) (other : (isOpen c || isClose c) = false) (rest : Balanced)
  | group (kind : Bracket) (inner rest : Balanced)

def Balanced.text : Balanced → List Char
  | .done => []
  | .char c _ rest => c :: rest.text
  | .group kind inner rest => kind.open_ :: inner.text ++ kind.close :: rest.text

/-! ### Parameters and expressions -/

inductive Stars where
  | none
  | args
  | kwargs

def Stars.text : Stars → List Char
  | .none => []
  | .args => ['*']
  | .kwargs => ['*', '*']

inductive Head where
  /-- `/` -/
  | slash (before : Gap)
  /-- `*` alone -/
  | star (before : Gap)
  | name (before : Gap) (stars : Stars) (between : Gap) (ident : Ident)

def Head.text : Head → List Char
  | .slash before => before.text ++ ['/']
  | .star before => before.text ++ ['*']
  | .name before stars between ident => before.text ++ stars.text ++ between.text ++ ident.text

def Head.binds : Head → Option (List Char)
  | .slash _ | .star _ => none
  | .name _ _ _ ident => some ident.text

mutual

inductive Expr where
  | done
  | char (c : Char) (plain : isPlain c = true) (rest : Expr)
  | group (kind : Bracket) (inner : Balanced) (rest : Expr)
  | lambda (gap : Gap) (params : Lambda) (rest : Expr)

inductive Lambda where
  | done
  /-- A comma after the last. -/
  | comma (gap : Gap)
  | bare (head : Head) (after : Gap) (more : Lambda)
  | valued (head : Head) (after : Gap) (value : Expr) (more : Lambda)

end

def lambdaKeyword : List Char := "lambda".toList

mutual

def Expr.text : Expr → List Char
  | .done => []
  | .char c _ rest => c :: rest.text
  | .group kind inner rest => kind.open_ :: inner.text ++ kind.close :: rest.text
  | .lambda gap params rest => lambdaKeyword ++ gap.text ++ params.text ++ ':' :: rest.text

def Lambda.text : Lambda → List Char
  | .done => []
  | .comma gap => ',' :: gap.text
  | .bare head after more => head.text ++ after.text ++ more.laterText
  | .valued head after value more => head.text ++ after.text ++ '=' :: value.text ++ more.laterText

def Lambda.laterText : Lambda → List Char
  | .done => []
  | .comma gap => ',' :: gap.text
  | .bare head after more => ',' :: head.text ++ after.text ++ more.laterText
  | .valued head after value more =>
    ',' :: head.text ++ after.text ++ '=' :: value.text ++ more.laterText

end

structure Param where
  head : Head
  after : Gap
  annotation : Option Expr
  default : Option Expr

def Param.text (p : Param) : List Char :=
  p.head.text ++ (p.after.text ++ ((p.annotation.map fun e => ':' :: e.text).getD [] ++
    (p.default.map fun e => '=' :: e.text).getD []))

inductive Params where
  | empty (gap : Gap)
  | some (first : Param) (more : List Param) (comma : Option Gap)

def Params.list : Params → List Param
  | .empty _ => []
  | .some first more _ => first :: more

def Params.text : Params → List Char
  | .empty gap => gap.text
  | .some first more comma =>
    first.text ++ more.flatMap (fun p => ',' :: p.text) ++
      (comma.map fun gap => ',' :: gap.text).getD []

structure Header where
  indent : Gap
  async : Option Gap
  afterAsync : ∀ gap ∈ async, gap.text ≠ []
  afterDef : Gap
  spaced : afterDef.text ≠ []
  name : Ident
  afterName : Gap
  /-- What the brackets of the type parameters enclose, and the gap after them. -/
  typeParams : Option (Balanced × Gap)
  params : Params
  rest : List Char

namespace Header

def start (h : Header) : List Char :=
  h.indent.text ++ ((h.async.map fun gap => "async".toList ++ gap.text).getD [] ++
    ("def".toList ++ (h.afterDef.text ++ (h.name.text ++ (h.afterName.text ++
      ((h.typeParams.map fun (inner, gap) => '[' :: inner.text ++ ']' :: gap.text).getD [] ++
        ['(']))))))

def text (h : Header) : List Char := h.start ++ h.params.text ++ ')' :: h.rest

def range (h : Header) : Nat × Nat := (h.start.length, h.start.length + h.params.text.length)

def names (h : Header) : List (List Char) := h.params.list.filterMap fun p => p.head.binds

end Header

section Readable

variable (classes : WordClasses)

/-- `\w` takes all of the name. -/
def Ident.Worded (ident : Ident) : Prop := ∀ c ∈ ident.text, classes.word c = true

/-- `[^\W\d]\w*` takes all of the name. -/
def Ident.Plain (ident : Ident) : Prop :=
  ident.Worded classes ∧ ∀ c ∈ ident.text.head?, classes.digit c = false

def Head.Unseen (head : Head) : Prop :=
  ∀ name ∈ head.binds, ∀ c ∈ name.head?, classes.word c = false ∨ classes.digit c = true

mutual

def Expr.Quiet : Expr → Prop
  | .done => True
  | .char _ _ rest => rest.Quiet
  | .group _ _ rest => rest.Quiet
  | .lambda _ params rest => params.Quiet ∧ rest.Quiet

def Lambda.Quiet : Lambda → Prop
  | .done | .comma _ => True
  | .bare _ _ more => more.LaterQuiet
  | .valued _ _ value more => value.Quiet ∧ more.LaterQuiet

def Lambda.LaterQuiet : Lambda → Prop
  | .done | .comma _ => True
  | .bare head _ more => head.Unseen classes ∧ more.LaterQuiet
  | .valued head _ value more => head.Unseen classes ∧ value.Quiet ∧ more.LaterQuiet

end

/-- The name of a parameter is one of `\w`, and its annotation and default are quiet. -/
def Param.Readable (p : Param) : Prop :=
  (∀ before stars between ident, p.head = .name before stars between ident → ident.Plain classes) ∧
    (∀ e ∈ p.annotation, e.Quiet classes) ∧ ∀ e ∈ p.default, e.Quiet classes

end Readable

end CodeGraph.Resolution.PythonParams
