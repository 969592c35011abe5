import CodeGraph.Kernel.Decode

/-! What a walk pushes, and what decoding it should answer. -/
namespace CodeGraph.Kernel

open LittleEndian Text

abbrev Present := {v : UInt32 // v ≠ NONE}

/-- An end of an edge, or a reference's owner: a node row, or an id of its own. -/
inductive Endpoint where
  | row (i : Nat)
  | named (id : Option String)

structure PushedNode where
  kind : NodeKind
  visibility : Option Visibility
  isExported : Option Bool
  isAsync : Option Bool
  isStatic : Option Bool
  isAbstract : Option Bool
  startLine : UInt32
  endLine : UInt32
  startColumn : UInt32
  endColumn : UInt32
  name : Option String
  qualifiedName : Option String
  id : Option String
  docstring : Option String
  signature : Option String
  /-- The empty list is an absent one. -/
  decorators : List String
  typeParameters : List String
  returnType : Option String
  extraJson : Option String

structure PushedEdge where
  source : Endpoint
  target : Endpoint
  kind : EdgeKind
  provenance : Option Provenance
  line : Option Present
  column : Option Present
  metadataJson : Option String

structure PushedRef where
  owner : Endpoint
  kind : ReferenceKind
  carriesFilePath : Bool
  carriesLanguage : Bool
  line : UInt32
  column : UInt32
  referenceName : Option String
  candidates : List String

structure PushedBinding where
  kind : BindingKind
  exportForm : Option ExportForm
  node : Option Nat
  scopeStart : UInt32
  scopeEnd : UInt32
  name : Option String
  targetSpec : Option String
  targetName : Option String
  exportedAs : Option String
  storage : Option String
  line : UInt32

/-- The strings put in the arena so far with the references `put` answered, and the rows
pushed so far. -/
structure Written where
  texts : List (StrRef × Option String) := []
  lists : List (StrRef × List String) := []
  nodes : List PushedNode := []
  edges : List PushedEdge := []
  refs : List PushedRef := []
  bindings : List PushedBinding := []

namespace Written

def Text (w : Written) (r : StrRef) (s : Option String) : Prop :=
  (r = NONE_STR ∧ s = none) ∨ (r, s) ∈ w.texts

def Items (w : Written) (r : StrRef) (items : List String) : Prop :=
  (r = NONE_STR ∧ items = []) ∨ (r, items) ∈ w.lists

end Written

def visibilityCode : Option Visibility → UInt8
  | none => 0
  | some .pub => 1
  | some .priv => 2
  | some .prot => 3
  | some .internal => 4

def provenanceCode : Option Provenance → UInt8
  | none => 0
  | some .treeSitter => 1
  | some .scip => 2
  | some .heuristic => 3

def referenceCode : ReferenceKind → UInt8
  | .edge kind => edge_kind_index kind
  | .functionRef => FUNCTION_REF_CODE

def bindingCode : BindingKind → UInt8
  | .decl => 0
  | .import => 1
  | .reexport => 2
  | .alias => 3
  | .param => 4
  | .local => 5

def exportCode : Option ExportForm → UInt8
  | none => 0
  | some .esm => 1
  | some .esmLater => 2
  | some .esmDefault => 3
  | some .cjs => 4
  | some .cjsObject => 5
  | some .pub => 6

def setOpt (f : BoolFlags) (pair : UInt16) : Option Bool → BoolFlags
  | none => f
  | some value => f.set pair value

def flagsOf (isExported isAsync isStatic isAbstract : Option Bool) : BoolFlags :=
  setOpt (setOpt (setOpt (setOpt {} FLAG_IS_EXPORTED isExported) FLAG_IS_ASYNC isAsync)
    FLAG_IS_STATIC isStatic) FLAG_IS_ABSTRACT isAbstract

def presentCode (v : Option Present) : UInt32 := v.elim NONE Subtype.val

/-- Where an endpoint is a row, the id string beside it is not read. -/
def SpellsEndpoint (w : Written) (idx : UInt32) (r : StrRef) : Endpoint → Prop
  | .row i => idx = UInt32.ofNat i
  | .named id => idx = NONE ∧ w.Text r id

structure SpellsNode (w : Written) (r : NodeRow) (n : PushedNode) : Prop where
  kind : r.kind = node_kind_index n.kind
  visibility : r.visibility = visibilityCode n.visibility
  flags : r.flags = flagsOf n.isExported n.isAsync n.isStatic n.isAbstract
  startLine : r.start_line = n.startLine
  endLine : r.end_line = n.endLine
  startColumn : r.start_column = n.startColumn
  endColumn : r.end_column = n.endColumn
  name : w.Text r.name n.name
  qualifiedName : w.Text r.qualified_name n.qualifiedName
  id : w.Text r.id n.id
  docstring : w.Text r.docstring n.docstring
  signature : w.Text r.signature n.signature
  decorators : w.Items r.decorators n.decorators
  typeParameters : w.Items r.type_parameters n.typeParameters
  returnType : w.Text r.return_type n.returnType
  extraJson : w.Text r.extra_json n.extraJson

structure SpellsEdge (w : Written) (r : EdgeRow) (e : PushedEdge) : Prop where
  source : SpellsEndpoint w r.source_idx r.source_id_str e.source
  target : SpellsEndpoint w r.target_idx r.target_id_str e.target
  kind : r.kind = edge_kind_index e.kind
  provenance : r.provenance = provenanceCode e.provenance
  line : r.line = presentCode e.line
  column : r.column = presentCode e.column
  metadataJson : w.Text r.metadata_json e.metadataJson

structure SpellsRef (w : Written) (r : RefRow) (flags : UInt8) (f : PushedRef) : Prop where
  owner : SpellsEndpoint w r.from_idx r.from_id_str f.owner
  kind : r.kind = referenceCode f.kind
  filePath : f.carriesFilePath = true ↔ flags &&& REF_FLAG_FILE_PATH ≠ 0
  language : f.carriesLanguage = true ↔ flags &&& REF_FLAG_LANGUAGE ≠ 0
  line : r.line = f.line
  column : r.column = f.column
  referenceName : w.Text r.reference_name f.referenceName
  candidates : w.Items r.candidates f.candidates

structure SpellsBinding (w : Written) (r : BindingRow) (b : PushedBinding) : Prop where
  kind : r.kind = bindingCode b.kind
  exportForm : r.export_form = exportCode b.exportForm
  node : r.node_idx = b.node.elim NONE UInt32.ofNat
  scopeStart : r.scope_start = b.scopeStart
  scopeEnd : r.scope_end = b.scopeEnd
  name : w.Text r.name b.name
  targetSpec : w.Text r.target_spec b.targetSpec
  targetName : w.Text r.target_name b.targetName
  exportedAs : w.Text r.exported_as b.exportedAs
  storage : w.Text r.storage b.storage
  line : r.line = b.line

inductive Emits : Arena → Tables → Written → Prop where
  | start : Emits {} {} {}
  | put {a t w} (s : Option String) : Emits a t w →
      Emits (a.put_opt s).2 t { w with texts := ((a.put_opt s).1, s) :: w.texts }
  | putList {a t w} (items : List String) (clean : ∀ s ∈ items, '\x00' ∉ s.toList) :
      Emits a t w →
      Emits (a.put_list items).2 t { w with lists := ((a.put_list items).1, items) :: w.lists }
  | pushNode {a t w} (r : NodeRow) (n : PushedNode) : Emits a t w → SpellsNode w r n →
      Emits a (t.push_node r) { w with nodes := w.nodes ++ [n] }
  | pushEdge {a t w} (r : EdgeRow) (e : PushedEdge) : Emits a t w → SpellsEdge w r e →
      Emits a (t.push_edge r) { w with edges := w.edges ++ [e] }
  | pushRef {a t w} (r : RefRow) (flags : UInt8) (f : PushedRef) : Emits a t w →
      SpellsRef w r flags f →
      Emits a (t.push_ref_flagged r flags) { w with refs := w.refs ++ [f] }
  | pushBinding {a t w} (r : BindingRow) (b : PushedBinding) : Emits a t w →
      SpellsBinding w r b →
      Emits a (t.push_binding r) { w with bindings := w.bindings ++ [b] }

/-! ### What decoding should answer -/

def Endpoint.idIn (nodes : List PushedNode) : Endpoint → Option String
  | .row i => nodes[i]?.bind PushedNode.id
  | .named id => id

def Endpoint.InRange (count : Nat) : Endpoint → Prop
  | .row i => i < count
  | .named _ => True

def listOf (items : List String) : Option (List String) :=
  if items.isEmpty then none else some items

def jsonOf (text : Option String) : Option Json := text.bind fun s => Json.parse (utf16 s)

/-- Every text that is present is the text of a JSON value. -/
def IsJson (text : Option String) : Prop := ∀ s, text = some s → (Json.parse (utf16 s)).isSome

def PushedNode.decoded (n : PushedNode) (filePath : String) (language : Language) (now : Nat) :
    Node where
  id := n.id
  kind := some n.kind
  name := n.name
  qualifiedName := n.qualifiedName
  filePath := filePath
  language := language
  startLine := n.startLine
  endLine := n.endLine
  startColumn := n.startColumn
  endColumn := n.endColumn
  updatedAt := now
  docstring := n.docstring
  signature := n.signature
  visibility := n.visibility
  isExported := n.isExported
  isAsync := n.isAsync
  isStatic := n.isStatic
  isAbstract := n.isAbstract
  decorators := listOf n.decorators
  typeParameters := listOf n.typeParameters
  returnType := n.returnType
  assigned := jsonOf n.extraJson

def PushedEdge.decoded (e : PushedEdge) (nodes : List PushedNode) : Edge where
  source := e.source.idIn nodes
  target := e.target.idIn nodes
  kind := some e.kind
  line := e.line.map Subtype.val
  column := e.column.map Subtype.val
  provenance := e.provenance
  «metadata» := jsonOf e.metadataJson

def PushedRef.decoded (f : PushedRef) (nodes : List PushedNode) (filePath : String)
    (language : Language) : UnresolvedReference where
  fromNodeId := f.owner.idIn nodes
  referenceName := f.referenceName
  referenceKind := some f.kind
  line := f.line
  column := f.column
  filePath := if f.carriesFilePath then some filePath else none
  language := if f.carriesLanguage then some language else none
  candidates := listOf f.candidates

def PushedBinding.decoded (b : PushedBinding) (nodes : List PushedNode) (filePath : String) :
    Binding where
  filePath := filePath
  name := b.name
  kind := some b.kind
  scopeStart := b.scopeStart
  scopeEnd := b.scopeEnd
  line := b.line
  nodeId := b.node.bind fun i => nodes[i]?.bind PushedNode.id
  targetSpec := b.targetSpec
  targetName := b.targetName
  exportedAs := b.exportedAs
  exportForm := b.exportForm
  storage := b.storage

namespace Written

structure InRange (w : Written) : Prop where
  sources : ∀ e ∈ w.edges, e.source.InRange w.nodes.length
  targets : ∀ e ∈ w.edges, e.target.InRange w.nodes.length
  owners : ∀ f ∈ w.refs, f.owner.InRange w.nodes.length
  bindings : ∀ b ∈ w.bindings, ∀ i, b.node = some i → i < w.nodes.length

structure Counted (w : Written) : Prop where
  nodes : w.nodes.length < 2 ^ 32
  edges : w.edges.length < 2 ^ 32
  refs : w.refs.length < 2 ^ 32
  bindings : w.bindings.length < 2 ^ 32

/-- The texts that are parsed are texts of JSON values. -/
structure Parses (w : Written) : Prop where
  extras : ∀ n ∈ w.nodes, IsJson n.extraJson
  metadatas : ∀ e ∈ w.edges, IsJson e.metadataJson

def decoded (w : Written) (errors : Option String) (filePath : String) (language : Language)
    (now : Nat) : ExtractionResult where
  nodes := w.nodes.map fun n => n.decoded filePath language now
  edges := w.edges.map fun e => e.decoded w.nodes
  unresolvedReferences := w.refs.map fun f => f.decoded w.nodes filePath language
  bindings := w.bindings.map fun b => b.decoded w.nodes filePath
  errors := jsonOf errors
  durationMs := 0

def bindingsOnly (w : Written) : Written :=
  { w with nodes := [], edges := [], refs := [], bindings := w.bindings.map ({ · with node := none }) }

end Written

end CodeGraph.Kernel
