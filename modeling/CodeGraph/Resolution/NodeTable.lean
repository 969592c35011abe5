import CodeGraph.Foundation.Utf8
import CodeGraph.Foundation.Gathering
import CodeGraph.Foundation.InsertionMap
import CodeGraph.Foundation.OrderBy
import CodeGraph.Resolution.JsonStringArray

/-!
# The node table and the lookups by query

The two ways in which the kernel's resolver reads the `nodes` and the `files` table
(`codegraph-kernel/src/resolve/node_table.rs`).
-/
namespace CodeGraph.Resolution.NodeLookups

open Gathering InsertionMap JsonStringArray OrderBy

abbrev Str := List Char

/-- A row of the `nodes` table, with the columns of `NODE_COLS`. -/
structure Row where
  rowid : Int
  id : Str
  kind : Str
  name : Str
  qualified_name : Str
  file_path : Str
  language : Str
  start_line : Int
  end_line : Int
  start_column : Int
  end_column : Int
  signature : Option Str
  visibility : Option Str
  is_exported : Option Int
  return_type : Option Str
  type_parameters : Option Str
  decorators : Option Str
  is_async : Option Int
  is_static : Option Int
  is_abstract : Option Int
  deriving DecidableEq, Repr

structure Connection where
  nodes : List Row
  files : List Str
  rowids : (nodes.map Row.rowid).Nodup
  ids : (nodes.map Row.id).Nodup

/-- Texts are ordered by their bytes, in the BINARY collation as in Rust. -/
def asBytes (text : Str) : List UInt8 := Utf8.encode text

/-- `to_ascii_lowercase`, and SQLite's `lower()`. -/
def toAsciiLowercase (text : Str) : Str := text.map Char.toLower

/-- `SELECT … FROM nodes WHERE … ORDER BY …` -/
def Connection.select (conn : Connection) (which : Row → Bool) (order : Row → Row → Ordering) :
    List Row :=
  sortBy order (conn.nodes.filter which)

def byRowid : Row → Row → Ordering := compareOn Row.rowid

/-! ### Nodes -/

structure KNode where
  id : Str
  kind : Str
  name : Str
  qualified_name : Str
  file_path : Str
  language : Str
  start_line : Int
  end_line : Int
  start_column : Int
  end_column : Int
  signature : Option Str
  visibility : Option Str
  is_exported : Bool
  return_type : Option Str
  type_parameters : Option (List String)
  decorators : Option (List String)
  is_async : Bool
  is_static : Bool
  is_abstract : Bool
  deriving DecidableEq, Repr

def stringArray (raw : Option Str) : Option (List String) :=
  raw.bind fun raw => (parseJsonStringArray (String.ofList raw)).join

/-- The node of a row whose `is_exported` is a number. -/
def KNode.of_row (row : Row) (is_exported : Int) : KNode where
  id := row.id
  kind := row.kind
  name := row.name
  qualified_name := row.qualified_name
  file_path := row.file_path
  language := row.language
  start_line := row.start_line
  end_line := row.end_line
  start_column := row.start_column
  end_column := row.end_column
  signature := row.signature
  visibility := row.visibility
  is_exported := is_exported != 0
  return_type := row.return_type
  type_parameters := stringArray row.type_parameters
  decorators := stringArray row.decorators
  is_async := row.is_async.getD 0 != 0
  is_static := row.is_static.getD 0 != 0
  is_abstract := row.is_abstract.getD 0 != 0

/-- Of the columns that may be NULL, only `is_exported` is read as a number that is there. -/
def KNode.from_row (row : Row) : Option KNode := row.is_exported.map (KNode.of_row row)

/-- `Arc<KNode>`: a node at its address. -/
structure Arc where
  addr : Nat
  node : KNode
  deriving DecidableEq, Repr

abbrev NodeList := List Arc

abbrev Groups := List (Str × NodeList)

def byPath : KNode → KNode → Ordering := compareOn fun n => asBytes n.file_path
def byLine : KNode → KNode → Ordering := compareOn KNode.start_line

structure NodeTable where
  by_name : Groups
  nodes : NodeList
  by_qname : Groups
  by_file : Groups
  by_id : List (Str × Arc)
  files : List Str

namespace NodeTable

def empty : NodeTable := ⟨[], [], [], [], [], []⟩

def addRow (t : NodeTable) (n : KNode) : NodeTable :=
  let n : Arc := ⟨t.nodes.length, n⟩
  { t with
    by_name := push t.by_name n.node.name n
    by_qname := push t.by_qname n.node.qualified_name n
    by_file := push t.by_file n.node.file_path n
    by_id := assign t.by_id n.node.id n
    nodes := t.nodes ++ [n] }

def sortGroups (order : KNode → KNode → Ordering) (groups : Groups) : Groups :=
  groups.map fun e => (e.1, sortBy (fun a b => order a.node b.node) e.2)

def load_inner (conn : Connection) : Option NodeTable :=
  ((conn.select (fun _ => true) byRowid).mapM KNode.from_row).map fun rows =>
    let t := rows.foldl addRow empty
    { t with
      by_name := sortGroups (compareLex byPath byLine) t.by_name
      by_file := sortGroups byLine t.by_file
      files := conn.files.foldl addTo [] }

def isAsciiUppercase (b : UInt8) : Bool := 0x41 ≤ b && b ≤ 0x5A

def by_lower (t : NodeTable) : Groups :=
  t.nodes.foldl (fun map n =>
    if (asBytes n.node.name).any isAsciiUppercase then push map (toAsciiLowercase n.node.name) n
    else push map n.node.name n) []

end NodeTable

/-! ### The lookups -/

inductive LookupKey where
  | Name (k : Str)
  | Lower (k : Str)
  | QualifiedName (k : Str)
  | File (k : Str)
  | Kind (k : Str)
  deriving DecidableEq, Repr

structure QueryLookups where
  by_name : Groups
  by_lower : Groups
  by_qname : Groups
  by_file : Groups
  by_kind : Groups
  by_id : List (Str × Option Arc)
  known_files : List (Str × Bool)
  sorted_files : Option (List Str)
  /-- How many shared nodes have been made. -/
  made : Nat

namespace LookupKey

def arg : LookupKey → Str
  | Name k | QualifiedName k | File k | Kind k => k
  | Lower k => toAsciiLowercase k

def byPathOfRow : Row → Row → Ordering := compareOn fun r => asBytes r.file_path
def byLineOfRow : Row → Row → Ordering := compareOn Row.start_line

def rows (conn : Connection) : LookupKey → List Row
  | Name k => conn.select (fun r => r.name = k)
      (compareLex (compareLex byPathOfRow byLineOfRow) byRowid)
  | Lower k => conn.select (fun r => toAsciiLowercase r.name = toAsciiLowercase k) byRowid
  | QualifiedName k => conn.select (fun r => r.qualified_name = k) byRowid
  | File k => conn.select (fun r => r.file_path = k) (compareLex byLineOfRow byRowid)
  | Kind k => conn.select (fun r => r.kind = k)
      (compareLex (compareLex byPathOfRow byLineOfRow) byRowid)

end LookupKey

namespace QueryLookups

def empty : QueryLookups := ⟨[], [], [], [], [], [], [], none, 0⟩

def memo (q : QueryLookups) : LookupKey → Groups
  | .Name _ => q.by_name
  | .Lower _ => q.by_lower
  | .QualifiedName _ => q.by_qname
  | .File _ => q.by_file
  | .Kind _ => q.by_kind

def remember (q : QueryLookups) (key : LookupKey) (list : NodeList) : QueryLookups :=
  match key with
  | .Name _ => { q with by_name := assign q.by_name key.arg list }
  | .Lower _ => { q with by_lower := assign q.by_lower key.arg list }
  | .QualifiedName _ => { q with by_qname := assign q.by_qname key.arg list }
  | .File _ => { q with by_file := assign q.by_file key.arg list }
  | .Kind _ => { q with by_kind := assign q.by_kind key.arg list }

def canonical (q : QueryLookups) (n : KNode) : Arc × QueryLookups :=
  match lookup q.by_id n.id with
  | some (some existing) => (existing, q)
  | _ =>
    let shared : Arc := ⟨q.made, n⟩
    (shared, { q with by_id := assign q.by_id n.id (some shared), made := q.made + 1 })

def canonicalAll (q : QueryLookups) : List KNode → NodeList × QueryLookups
  | [] => ([], q)
  | n :: rows =>
    let (shared, q) := q.canonical n
    let (list, q) := q.canonicalAll rows
    (shared :: list, q)

def nodes (q : QueryLookups) (conn : Connection) (key : LookupKey) :
    Option (NodeList × QueryLookups) :=
  match lookup (q.memo key) key.arg with
  | some hit => some (hit, q)
  | none => ((key.rows conn).mapM KNode.from_row).map fun rows =>
      let (list, q) := q.canonicalAll rows
      (list, q.remember key list)

def node_by_id (q : QueryLookups) (conn : Connection) (id : Str) :
    Option (Option Arc × QueryLookups) :=
  match lookup q.by_id id with
  | some hit => some (hit, q)
  | none =>
    match (conn.nodes.filter fun r => r.id = id).head? with
    | none => some (none, { q with by_id := assign q.by_id id none })
    | some row => (KNode.from_row row).map fun n =>
        let (shared, q) := q.canonical n
        (some shared, { q with by_id := assign q.by_id id (some shared) })

def known_file (q : QueryLookups) (conn : Connection) (path : Str) : Bool × QueryLookups :=
  match lookup q.known_files path with
  | some hit => (hit, q)
  | none =>
    let hit := decide (path ∈ conn.files)
    (hit, { q with known_files := assign q.known_files path hit })

def all_files (q : QueryLookups) (conn : Connection) : List Str × QueryLookups :=
  match q.sorted_files with
  | some files => (files, q)
  | none =>
    let files := sortBy (compareOn asBytes) conn.files
    (files, { q with sorted_files := some files })

end QueryLookups

inductive Lookup where
  | nodes (key : LookupKey)
  | node_by_id (id : Str)
  | known_file (path : Str)
  | sorted_files
  deriving DecidableEq, Repr

inductive Answer where
  | nodes (list : NodeList)
  | node (found : Option Arc)
  | known (hit : Bool)
  | files (paths : List Str)
  deriving DecidableEq, Repr

def Answer.arcs : Answer → List Arc
  | nodes list => list
  | node found => found.toList
  | known _ => []
  | files _ => []

def perform (conn : Connection) (q : QueryLookups) : Lookup → Option (Answer × QueryLookups)
  | .nodes key => (q.nodes conn key).map fun (list, q) => (.nodes list, q)
  | .node_by_id id => (q.node_by_id conn id).map fun (found, q) => (.node found, q)
  | .known_file path =>
    let (hit, q) := q.known_file conn path
    some (.known hit, q)
  | .sorted_files =>
    let (files, q) := q.all_files conn
    some (.files files, q)

def answers (conn : Connection) : QueryLookups → List Lookup → Option (List Answer)
  | _, [] => some []
  | q, op :: ops => (perform conn q op).bind fun (answer, q) =>
      (answers conn q ops).map fun rest => answer :: rest

end CodeGraph.Resolution.NodeLookups
