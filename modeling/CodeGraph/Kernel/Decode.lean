import CodeGraph.Foundation.Json
import CodeGraph.Kernel.Buffers

/-! The reader of the kernel's tables, with its own copy of the byte layout. -/
namespace CodeGraph.Kernel

open LittleEndian Text

namespace META

def version := 0
def nodeCount := 4
def edgeCount := 8
def refCount := 12
def errorsOff := 20
def errorsLen := 24
def bindingCount := 36

end META

namespace BINDING

def kind := 0
def exportForm := 1
def nodeIdx := 4
def scopeStart := 8
def scopeEnd := 12
def name := 16
def targetSpec := 24
def targetName := 32
def exportedAs := 40
def storage := 48
def line := 56

end BINDING

namespace NODE

def kind := 0
def visibility := 1
def flags := 2
def startLine := 4
def endLine := 8
def startColumn := 12
def endColumn := 16
def name := 20
def qualifiedName := 28
def id := 36
def docstring := 44
def signature := 52
def decorators := 60
def typeParameters := 68
def returnType := 76
def extraJson := 84

end NODE

namespace EDGE

def sourceIdx := 0
def targetIdx := 4
def kind := 8
def provenance := 9
def line := 12
def column := 16
def metadataJson := 20
def sourceIdStr := 28
def targetIdStr := 36

end EDGE

namespace REF

def fromIdx := 0
def kind := 4
def flags := 5
def line := 8
def column := 12
def referenceName := 16
def candidates := 24
def fromIdStr := 32

end REF

namespace FLAG

def isExported := 0
def isAsync := 1
def isStatic := 2
def isAbstract := 3

end FLAG

def REF_FLAG_FILE_PATH : UInt8 := 1
def REF_FLAG_LANGUAGE : UInt8 := 2

def NODE_KINDS : List NodeKind :=
  [.file, .module, .class, .struct, .interface, .trait, .protocol, .function, .method, .property,
    .field, .variable, .constant, .enum, .enumMember, .typeAlias, .namespace, .parameter, .import,
    .export, .route, .component, .union, .endpoint]

def EDGE_KINDS : List EdgeKind :=
  [.contains, .calls, .imports, .exports, .extends, .implements, .references, .typeOf, .returns,
    .instantiates, .overrides, .decorates, .navigates]

def BINDING_KINDS : List BindingKind := [.decl, .import, .reexport, .alias, .param, .local]

def EXPORT_FORMS : List (Option ExportForm) :=
  [none, some .esm, some .esmLater, some .esmDefault, some .cjs, some .cjsObject, some .pub]

def VISIBILITIES : List (Option Visibility) :=
  [none, some .pub, some .priv, some .prot, some .internal]

def PROVENANCES : List (Option Provenance) := [none, some .treeSitter, some .scip, some .heuristic]

inductive DecodeError where
  | metaTooShort (length : Nat)
  | abi (version : UInt8)
  /-- A read past the end of a buffer. -/
  | outOfRange
  /-- `JSON.parse` on a text that is no JSON. -/
  | syntaxError
  deriving DecidableEq, Repr

def DecodeError.message : DecodeError → String
  | .metaTooShort length => s!"kernel meta too short: {length}"
  | .abi version => s!"kernel buffer ABI {version} != expected {KERNEL_ABI_VERSION}"
  | .outOfRange => "The value of \"offset\" is out of range."
  | .syntaxError => "JSON.parse: SyntaxError"

/-- A decoded node. A field is `none` where the row leaves it undefined. -/
structure Node where
  id : Option String
  kind : Option NodeKind
  name : Option String
  qualifiedName : Option String
  filePath : String
  language : Language
  startLine : UInt32
  endLine : UInt32
  startColumn : UInt32
  endColumn : UInt32
  updatedAt : Nat
  docstring : Option String
  signature : Option String
  visibility : Option Visibility
  isExported : Option Bool
  isAsync : Option Bool
  isStatic : Option Bool
  isAbstract : Option Bool
  decorators : Option (List String)
  typeParameters : Option (List String)
  returnType : Option String
  /-- The value whose properties `Object.assign` lays over the fields above. -/
  assigned : Option Json

structure Edge where
  source : Option String
  target : Option String
  kind : Option EdgeKind
  line : Option UInt32
  column : Option UInt32
  provenance : Option Provenance
  «metadata» : Option Json

structure UnresolvedReference where
  fromNodeId : Option String
  referenceName : Option String
  referenceKind : Option ReferenceKind
  line : UInt32
  column : UInt32
  filePath : Option String
  language : Option Language
  candidates : Option (List String)

structure Binding where
  filePath : String
  name : Option String
  kind : Option BindingKind
  scopeStart : UInt32
  scopeEnd : UInt32
  line : UInt32
  nodeId : Option String
  targetSpec : Option String
  targetName : Option String
  exportedAs : Option String
  exportForm : Option ExportForm
  storage : Option String

structure ExtractionResult where
  nodes : List Node
  edges : List Edge
  unresolvedReferences : List UnresolvedReference
  bindings : List Binding
  /-- The parsed errors list, `none` for the empty one. -/
  errors : Option Json
  durationMs : Nat

abbrev Decoder := Except DecodeError

def readUInt8 (row : List UInt8) (off : Nat) : Decoder UInt8 :=
  (readU8 row off).elim (.error .outOfRange) .ok

def readUInt16LE (row : List UInt8) (off : Nat) : Decoder UInt16 :=
  (readU16 row off).elim (.error .outOfRange) .ok

def readUInt32LE (row : List UInt8) (off : Nat) : Decoder UInt32 :=
  (readU32 row off).elim (.error .outOfRange) .ok

def parseJson (text : String) : Decoder Json :=
  (Json.parse (utf16 text)).elim (.error .syntaxError) .ok

/-- `arena.toString('utf8', off, off + len)`, which stops at the arena's end. -/
def arenaText (arena : List UInt8) (off len : UInt32) : String :=
  utf8Decode ((arena.drop off.toNat).take len.toNat)

def str (arena row : List UInt8) (off : Nat) : Decoder (Option String) := do
  let start ← readUInt32LE row off
  if start = NONE then return none
  let len ← readUInt32LE row (off + 4)
  return some (arenaText arena start len)

def strList (arena row : List UInt8) (off : Nat) : Decoder (Option (List String)) := do
  let joined ← str arena row off
  return joined.map splitNul

def flag (flags : UInt16) (pair : Nat) : Option Bool :=
  if flags &&& (1 <<< UInt16.ofNat (pair * 2)) = 0 then none
  else some (flags &&& (1 <<< UInt16.ofNat (pair * 2 + 1)) ≠ 0)

def u32opt (row : List UInt8) (off : Nat) : Decoder (Option UInt32) := do
  let v ← readUInt32LE row off
  return if v = NONE then none else some v

def parseOpt (text : Option String) : Decoder (Option Json) :=
  match text with
  | none => return none
  | some text => return some (← parseJson text)

def decodeNode (arena : List UInt8) (filePath : String) (language : Language) (now : Nat)
    (row : List UInt8) : Decoder Node := do
  let id ← str arena row NODE.id
  let flags ← readUInt16LE row NODE.flags
  let kind ← readUInt8 row NODE.kind
  let name ← str arena row NODE.name
  let qualifiedName ← str arena row NODE.qualifiedName
  let startLine ← readUInt32LE row NODE.startLine
  let endLine ← readUInt32LE row NODE.endLine
  let startColumn ← readUInt32LE row NODE.startColumn
  let endColumn ← readUInt32LE row NODE.endColumn
  let docstring ← str arena row NODE.docstring
  let signature ← str arena row NODE.signature
  let visibility ← readUInt8 row NODE.visibility
  let decorators ← strList arena row NODE.decorators
  let typeParameters ← strList arena row NODE.typeParameters
  let returnType ← str arena row NODE.returnType
  let extraJson ← str arena row NODE.extraJson
  let assigned ← parseOpt extraJson
  return {
    id, name, qualifiedName, filePath, language, startLine, endLine, startColumn, endColumn
    docstring, signature, decorators, typeParameters, returnType, assigned
    kind := NODE_KINDS[kind.toNat]?
    updatedAt := now
    visibility := VISIBILITIES[visibility.toNat]?.join
    isExported := flag flags FLAG.isExported
    isAsync := flag flags FLAG.isAsync
    isStatic := flag flags FLAG.isStatic
    isAbstract := flag flags FLAG.isAbstract }

/-- `idx === NONE ? str(...) : idByRow[idx]`. -/
def endpointId (arena : List UInt8) (idByRow : List (Option String)) (row : List UInt8)
    (idxAt strAt : Nat) : Decoder (Option String) := do
  let idx ← readUInt32LE row idxAt
  if idx = NONE then str arena row strAt else return idByRow[idx.toNat]?.join

def decodeEdge (arena : List UInt8) (idByRow : List (Option String)) (row : List UInt8) :
    Decoder Edge := do
  let source ← endpointId arena idByRow row EDGE.sourceIdx EDGE.sourceIdStr
  let target ← endpointId arena idByRow row EDGE.targetIdx EDGE.targetIdStr
  let kind ← readUInt8 row EDGE.kind
  let line ← u32opt row EDGE.line
  let column ← u32opt row EDGE.column
  let provenance ← readUInt8 row EDGE.provenance
  let metadataJson ← str arena row EDGE.metadataJson
  let parsed ← parseOpt metadataJson
  return {
    source, target, line, column
    kind := EDGE_KINDS[kind.toNat]?
    provenance := PROVENANCES[provenance.toNat]?.join
    «metadata» := parsed }

def decodeRef (arena : List UInt8) (idByRow : List (Option String)) (filePath : String)
    (language : Language) (row : List UInt8) : Decoder UnresolvedReference := do
  let kindByte ← readUInt8 row REF.kind
  let fromNodeId ← endpointId arena idByRow row REF.fromIdx REF.fromIdStr
  let referenceName ← str arena row REF.referenceName
  let line ← readUInt32LE row REF.line
  let column ← readUInt32LE row REF.column
  let refFlags ← readUInt8 row REF.flags
  let candidates ← strList arena row REF.candidates
  return {
    fromNodeId, referenceName, line, column, candidates
    referenceKind := if kindByte = FUNCTION_REF_CODE then some .functionRef
      else EDGE_KINDS[kindByte.toNat]?.map .edge
    filePath := if refFlags &&& REF_FLAG_FILE_PATH ≠ 0 then some filePath else none
    language := if refFlags &&& REF_FLAG_LANGUAGE ≠ 0 then some language else none }

def decodeBinding (arena : List UInt8) (idByRow : List (Option String)) (filePath : String)
    (row : List UInt8) : Decoder Binding := do
  let nodeIdx ← u32opt row BINDING.nodeIdx
  let name ← str arena row BINDING.name
  let kind ← readUInt8 row BINDING.kind
  let scopeStart ← readUInt32LE row BINDING.scopeStart
  let scopeEnd ← readUInt32LE row BINDING.scopeEnd
  let line ← readUInt32LE row BINDING.line
  let targetSpec ← str arena row BINDING.targetSpec
  let targetName ← str arena row BINDING.targetName
  let exportedAs ← str arena row BINDING.exportedAs
  let form ← readUInt8 row BINDING.exportForm
  let storage ← str arena row BINDING.storage
  return {
    filePath, name, scopeStart, scopeEnd, line, targetSpec, targetName, exportedAs, storage
    kind := BINDING_KINDS[kind.toNat]?
    nodeId := nodeIdx.bind fun idx => idByRow[idx.toNat]?.join
    exportForm := EXPORT_FORMS[form.toNat]?.join }

/-- The first `count` rows of a table, decoded in order. -/
def decodeTable {β : Type} (buf : List UInt8) (size : Nat) (count : UInt32)
    (decode : List UInt8 → Decoder β) : Decoder (List β) :=
  (List.range count.toNat).mapM fun i => decode (rowAt size buf i)

def decodeErrors (arena block : List UInt8) : Decoder (Option Json) := do
  let errorsOff ← readUInt32LE block META.errorsOff
  if errorsOff = NONE then return none
  let errorsLen ← readUInt32LE block META.errorsLen
  return some (← parseJson (arenaText arena errorsOff errorsLen))

def decodeExtractBuffers (buffers : EmitOut) (filePath : String) (language : Language)
    (now : Nat) : Decoder ExtractionResult := do
  let block := buffers.meta
  if block.length < META_SIZE then .error (.metaTooShort block.length)
  let version ← readUInt8 block META.version
  if version ≠ KERNEL_ABI_VERSION then .error (.abi version)
  let nodeCount ← readUInt32LE block META.nodeCount
  let edgeCount ← readUInt32LE block META.edgeCount
  let refCount ← readUInt32LE block META.refCount
  let bindingCount ← readUInt32LE block META.bindingCount
  let arena := buffers.arena
  let nodes ← decodeTable buffers.nodes NODE_ROW_SIZE nodeCount
    (decodeNode arena filePath language now)
  let idByRow := nodes.map Node.id
  let edges ← decodeTable buffers.edges EDGE_ROW_SIZE edgeCount (decodeEdge arena idByRow)
  let unresolvedReferences ← decodeTable buffers.refs REF_ROW_SIZE refCount
    (decodeRef arena idByRow filePath language)
  let errors ← decodeErrors arena block
  let bindings ← decodeTable buffers.bindings BINDING_ROW_SIZE bindingCount
    (decodeBinding arena idByRow filePath)
  return { nodes, edges, unresolvedReferences, bindings, errors, durationMs := 0 }

end CodeGraph.Kernel
