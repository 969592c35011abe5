import CodeGraph.Types
import CodeGraph.Foundation.LittleEndian
import CodeGraph.Foundation.Text

/-! The kernel's writer of one file's flat tables. -/
namespace CodeGraph.Kernel

open LittleEndian Text

def KERNEL_ABI_VERSION : UInt8 := 3
def NONE : UInt32 := 0xFFFFFFFF

def META_SIZE : Nat := 40
def NODE_ROW_SIZE : Nat := 96
def EDGE_ROW_SIZE : Nat := 44
def REF_ROW_SIZE : Nat := 40
def BINDING_ROW_SIZE : Nat := 64

def FUNCTION_REF_CODE : UInt8 := 200

def node_kind_index : NodeKind → UInt8
  | .file => 0
  | .module => 1
  | .class => 2
  | .struct => 3
  | .interface => 4
  | .trait => 5
  | .protocol => 6
  | .function => 7
  | .method => 8
  | .property => 9
  | .field => 10
  | .variable => 11
  | .constant => 12
  | .enum => 13
  | .enumMember => 14
  | .typeAlias => 15
  | .namespace => 16
  | .parameter => 17
  | .import => 18
  | .export => 19
  | .route => 20
  | .component => 21
  | .union => 22
  | .endpoint => 23

def edge_kind_index : EdgeKind → UInt8
  | .contains => 0
  | .calls => 1
  | .imports => 2
  | .exports => 3
  | .extends => 4
  | .implements => 5
  | .references => 6
  | .typeOf => 7
  | .returns => 8
  | .instantiates => 9
  | .overrides => 10
  | .decorates => 11
  | .navigates => 12

/-- An arena reference; `NONE_STR` is an absent field. -/
structure StrRef where
  off : UInt32
  len : UInt32
  deriving DecidableEq, Repr

def NONE_STR : StrRef := ⟨NONE, 0⟩

/-- The string arena. Lengths and offsets are cast to 32 bits as they are taken. -/
structure Arena where
  buf : List UInt8 := []

namespace Arena

def put (a : Arena) (s : String) : StrRef × Arena :=
  (⟨UInt32.ofNat a.buf.length, UInt32.ofNat (utf8 s).length⟩, ⟨a.buf ++ utf8 s⟩)

def put_opt (a : Arena) : Option String → StrRef × Arena
  | some s => a.put s
  | none => (NONE_STR, a)

def put_list (a : Arena) (items : List String) : StrRef × Arena :=
  if items.isEmpty then (NONE_STR, a) else a.put (joinNul items)

def len (a : Arena) : UInt32 := UInt32.ofNat a.buf.length

end Arena

structure BoolFlags where
  bits : UInt16 := 0

def BoolFlags.set (f : BoolFlags) (pair : UInt16) (value : Bool) : BoolFlags :=
  let bits := f.bits ||| 1 <<< (pair * 2)
  ⟨if value then bits ||| 1 <<< (pair * 2 + 1) else bits⟩

def FLAG_IS_EXPORTED : UInt16 := 0
def FLAG_IS_ASYNC : UInt16 := 1
def FLAG_IS_STATIC : UInt16 := 2
def FLAG_IS_ABSTRACT : UInt16 := 3

structure NodeRow where
  kind : UInt8
  visibility : UInt8
  flags : BoolFlags
  start_line : UInt32
  end_line : UInt32
  start_column : UInt32
  end_column : UInt32
  name : StrRef
  qualified_name : StrRef
  id : StrRef
  docstring : StrRef
  signature : StrRef
  decorators : StrRef
  type_parameters : StrRef
  return_type : StrRef
  extra_json : StrRef

structure EdgeRow where
  source_idx : UInt32
  target_idx : UInt32
  kind : UInt8
  provenance : UInt8
  line : UInt32
  column : UInt32
  metadata_json : StrRef
  source_id_str : StrRef
  target_id_str : StrRef

structure BindingRow where
  kind : UInt8
  export_form : UInt8
  node_idx : UInt32
  scope_start : UInt32
  scope_end : UInt32
  name : StrRef
  target_spec : StrRef
  target_name : StrRef
  exported_as : StrRef
  storage : StrRef
  line : UInt32

structure RefRow where
  from_idx : UInt32
  kind : UInt8
  line : UInt32
  column : UInt32
  reference_name : StrRef
  candidates : StrRef
  from_id_str : StrRef

def push_str_ref (r : StrRef) : List UInt8 := le32 r.off ++ le32 r.len

/-- The bytes `push_node` appends. -/
def nodeBytes (r : NodeRow) : List UInt8 :=
  [r.kind, r.visibility] ++ le16 r.flags.bits ++
    le32 r.start_line ++ le32 r.end_line ++ le32 r.start_column ++ le32 r.end_column ++
    push_str_ref r.name ++ push_str_ref r.qualified_name ++ push_str_ref r.id ++
    push_str_ref r.docstring ++ push_str_ref r.signature ++ push_str_ref r.decorators ++
    push_str_ref r.type_parameters ++ push_str_ref r.return_type ++ push_str_ref r.extra_json ++
    le32 0

/-- The bytes `push_edge` appends. -/
def edgeBytes (r : EdgeRow) : List UInt8 :=
  le32 r.source_idx ++ le32 r.target_idx ++ [r.kind, r.provenance] ++ le16 0 ++
    le32 r.line ++ le32 r.column ++ push_str_ref r.metadata_json ++
    push_str_ref r.source_id_str ++ push_str_ref r.target_id_str

/-- The bytes `push_ref_flagged` appends. -/
def refBytes (r : RefRow) (flags : UInt8) : List UInt8 :=
  le32 r.from_idx ++ [r.kind, flags] ++ [0, 0] ++ le32 r.line ++ le32 r.column ++
    push_str_ref r.reference_name ++ push_str_ref r.candidates ++ push_str_ref r.from_id_str

/-- The bytes `push_binding` appends. -/
def bindingBytes (r : BindingRow) : List UInt8 :=
  [r.kind, r.export_form] ++ le16 0 ++ le32 r.node_idx ++ le32 r.scope_start ++
    le32 r.scope_end ++ push_str_ref r.name ++ push_str_ref r.target_spec ++
    push_str_ref r.target_name ++ push_str_ref r.exported_as ++ push_str_ref r.storage ++
    le32 r.line ++ le32 0

/-- The counts wrap at 32 bits. -/
structure Tables where
  nodes : List UInt8 := []
  edges : List UInt8 := []
  refs : List UInt8 := []
  bindings : List UInt8 := []
  node_count : UInt32 := 0
  edge_count : UInt32 := 0
  ref_count : UInt32 := 0
  binding_count : UInt32 := 0

namespace Tables

def push_node (t : Tables) (r : NodeRow) : Tables :=
  { t with nodes := t.nodes ++ nodeBytes r, node_count := t.node_count + 1 }

def push_edge (t : Tables) (r : EdgeRow) : Tables :=
  { t with edges := t.edges ++ edgeBytes r, edge_count := t.edge_count + 1 }

def push_ref_flagged (t : Tables) (r : RefRow) (flags : UInt8) : Tables :=
  { t with refs := t.refs ++ refBytes r flags, ref_count := t.ref_count + 1 }

def push_binding (t : Tables) (r : BindingRow) : Tables :=
  { t with bindings := t.bindings ++ bindingBytes r, binding_count := t.binding_count + 1 }

end Tables

/-- `duration_ms` is the bit pattern of a 64-bit float. -/
def build_meta (t : Tables) (arena_len : UInt32) (errors_json : StrRef) (duration_ms : UInt64)
    (flags : UInt8) : List UInt8 :=
  [KERNEL_ABI_VERSION, flags] ++ [0, 0] ++ le32 t.node_count ++ le32 t.edge_count ++
    le32 t.ref_count ++ le32 arena_len ++ le32 errors_json.off ++ le32 errors_json.len ++
    le64 duration_ms ++ le32 t.binding_count

structure EmitOut where
  «meta» : List UInt8
  nodes : List UInt8
  edges : List UInt8
  refs : List UInt8
  bindings : List UInt8
  arena : List UInt8

def emitOut (a : Arena) (t : Tables) (errors_json : StrRef) (duration_ms : UInt64)
    (flags : UInt8) : EmitOut :=
  ⟨build_meta t a.len errors_json duration_ms flags, t.nodes, t.edges, t.refs, t.bindings, a.buf⟩

/-- `row[4..8].copy_from_slice(&NONE)`. -/
def clearNodeIdx (row : List UInt8) : List UInt8 := row.take 4 ++ le32 NONE ++ row.drop 8

def durationBytes (m : List UInt8) : List UInt8 :=
  let bytes := (m.drop 28).take 8
  if bytes.length = 8 then bytes else le64 0

def join64 (bytes : List UInt8) : UInt64 :=
  UInt64.ofNat (bytes.foldr (fun b n => b.toNat + 256 * n) 0)

def EmitOut.bindings_only (out : EmitOut) : EmitOut :=
  let count := out.bindings.length / BINDING_ROW_SIZE
  let bindings := (List.range count).flatMap
      (fun i => clearNodeIdx (rowAt BINDING_ROW_SIZE out.bindings i)) ++
    out.bindings.drop (count * BINDING_ROW_SIZE)
  let tables : Tables := { bindings, binding_count := UInt32.ofNat count }
  let arena : Arena := ⟨out.arena⟩
  emitOut arena tables NONE_STR (join64 (durationBytes out.meta)) 0

end CodeGraph.Kernel
