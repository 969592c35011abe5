import CodeGraph.Foundation.Decisions

/-! The graph's enumerations. -/
namespace CodeGraph

inductive NodeKind where
  | file | module | «class» | struct | interface | trait | protocol | function | method | property
  | field | variable | constant | enum | enumMember | typeAlias | namespace | parameter | import
  | export | route | component | union | endpoint
  deriving DecidableEq, Repr

inductive EdgeKind where
  | contains | calls | imports | exports | extends | implements | references | typeOf | returns
  | instantiates | overrides | decorates | navigates
  deriving DecidableEq, Repr

/-- What an unresolved reference asks for; `function_ref` exists during extraction only. -/
inductive ReferenceKind where
  | edge (kind : EdgeKind)
  | functionRef
  deriving DecidableEq, Repr

inductive Visibility where
  | pub | priv | prot | internal
  deriving DecidableEq, Repr

inductive Provenance where
  | treeSitter | scip | heuristic
  deriving DecidableEq, Repr

inductive BindingKind where
  | decl | import | reexport | alias | param | local
  deriving DecidableEq, Repr

inductive ExportForm where
  | esm | esmLater | esmDefault | cjs | cjsObject | pub
  deriving DecidableEq, Repr

inductive Language where
  | typescript | javascript | tsx | jsx | arkts | python | go | rust | java | c | cpp | csharp
  | razor | php | ruby | swift | kotlin | dart | svelte | vue | astro | liquid | pascal | scala
  | lua | luau | objc | r | solidity | nix | yaml | twig | xml | properties | markdown | cfml
  | cfscript | cfquery | cobol | vbnet | erlang | terraform | unknown
  deriving DecidableEq, Repr

end CodeGraph
