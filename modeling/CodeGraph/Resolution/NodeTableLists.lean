import CodeGraph.Foundation.FirstByKey
import CodeGraph.Resolution.NodeTable

/-!
# What the node table holds

The lists of the loaded table are those of the statements.
-/
namespace CodeGraph.Resolution.NodeLookups

open AsciiBytes FirstByKey Gathering InsertionMap OrderBy Std

variable {conn : Connection} {t : NodeTable} {rows : List Row} {k : Str}

/-! ### Rows -/

def decode (row : Row) : KNode := KNode.of_row row (row.is_exported.getD 0)

def Readable (conn : Connection) : Prop := ∀ row ∈ conn.nodes, row.is_exported.isSome

theorem from_row_of_some {row : Row} (readable : row.is_exported.isSome) :
    KNode.from_row row = some (decode row) := by
  obtain ⟨n, number⟩ := Option.isSome_iff_exists.mp readable
  rw [KNode.from_row, decode, number]
  rfl

theorem mapM_from_row (readable : ∀ row ∈ rows, row.is_exported.isSome) :
    rows.mapM KNode.from_row = some (rows.map decode) := by
  induction rows with
  | nil => rfl
  | cons row rows ih =>
    have first := from_row_of_some (readable row List.mem_cons_self)
    have rest := ih fun row listed => readable row (List.mem_cons_of_mem _ listed)
    rw [List.mapM_cons, first, rest]
    rfl

theorem readable_of_mapM {nodes : List KNode} (read : rows.mapM KNode.from_row = some nodes) :
    ∀ row ∈ rows, row.is_exported.isSome := by
  induction rows generalizing nodes with
  | nil => simp
  | cons row rows ih =>
    rw [List.mapM_cons] at read
    obtain ⟨n, first, read⟩ := Option.bind_eq_some_iff.mp read
    obtain ⟨rest, later, -⟩ := Option.bind_eq_some_iff.mp read
    intro other listed
    rcases List.mem_cons.mp listed with rfl | listed
    · rw [KNode.from_row, Option.map_eq_some_iff] at first
      obtain ⟨number, found, -⟩ := first
      exact Option.isSome_iff_exists.mpr ⟨number, found⟩
    · exact ih later other listed

theorem mem_select {which : Row → Bool} {order : Row → Row → Ordering} {row : Row} :
    row ∈ conn.select which order ↔ row ∈ conn.nodes ∧ which row = true := by
  rw [Connection.select, mem_sortBy, List.mem_filter]

theorem rowids_separate : Separates byRowid conn.nodes := by
  intro a first b second same
  have equal : a.rowid = b.rowid := LawfulEqOrd.eq_of_compare same
  exact List.inj_on_of_nodup_map conn.rowids first second equal

/-- Rows chosen and put in order are those of the ordered table that are chosen. -/
theorem select_eq_filter (which : Row → Bool) :
    conn.select which byRowid = (sortBy byRowid conn.nodes).filter which := by
  have : TransCmp byRowid := inferInstanceAs (TransCmp (compareOn Row.rowid))
  exact sortBy_filter rowids_separate which

/-- A statement that breaks ties by the rowid, and the stable sort of the chosen rows in the order
of their rowids. -/
theorem select_lex {cmp : Row → Row → Ordering} [TransCmp cmp] (which : Row → Bool) :
    conn.select which (compareLex cmp byRowid) = sortBy cmp (conn.select which byRowid) := by
  have : TransCmp byRowid := inferInstanceAs (TransCmp (compareOn Row.rowid))
  exact (sortBy_sortBy (rowids_separate.subset (List.filter_subset_self _))).symm

def arcsFrom (start : Nat) : List KNode → NodeList
  | [] => []
  | n :: nodes => ⟨start, n⟩ :: arcsFrom (start + 1) nodes

theorem arcsFrom_nodes (start : Nat) (nodes : List KNode) :
    (arcsFrom start nodes).map Arc.node = nodes := by
  induction nodes generalizing start with
  | nil => rfl
  | cons n nodes ih => rw [arcsFrom, List.map_cons, ih]

theorem addRow_all (nodes : List KNode) (t : NodeTable) :
    let arcs := arcsFrom t.nodes.length nodes
    nodes.foldl NodeTable.addRow t = {
      by_name := arcs.foldl (fun m n => push m n.node.name n) t.by_name
      by_qname := arcs.foldl (fun m n => push m n.node.qualified_name n) t.by_qname
      by_file := arcs.foldl (fun m n => push m n.node.file_path n) t.by_file
      by_id := arcs.foldl (fun m n => assign m n.node.id n) t.by_id
      nodes := t.nodes ++ arcs
      files := t.files } := by
  induction nodes generalizing t with
  | nil => simp [arcsFrom]
  | cons n nodes ih =>
    rw [List.foldl_cons, ih]
    simp [NodeTable.addRow, arcsFrom]

structure Loaded (conn : Connection) (t : NodeTable) : Prop where
  readable : Readable conn
  nodes : t.nodes.map Arc.node = (sortBy byRowid conn.nodes).map decode
  by_name : t.by_name = NodeTable.sortGroups (compareLex byPath byLine)
    (t.nodes.foldl (fun m n => push m n.node.name n) [])
  by_qname : t.by_qname = t.nodes.foldl (fun m n => push m n.node.qualified_name n) []
  by_file : t.by_file = NodeTable.sortGroups byLine
    (t.nodes.foldl (fun m n => push m n.node.file_path n) [])
  by_id : t.by_id = t.nodes.foldl (fun m n => assign m n.node.id n) []
  files : t.files = conn.files.foldl addTo []

theorem loaded_of_load_inner (loaded : NodeTable.load_inner conn = some t) : Loaded conn t := by
  obtain ⟨nodes, read, rfl⟩ := Option.map_eq_some_iff.mp loaded
  have all : conn.select (fun _ => true) byRowid = sortBy byRowid conn.nodes := by
    rw [select_eq_filter, List.filter_true]
  rw [all] at read
  have readable := readable_of_mapM read
  rw [mapM_from_row readable, Option.some.injEq] at read
  rw [addRow_all]
  constructor
  · exact fun row listed => readable row (mem_sortBy.mpr listed)
  · rw [NodeTable.empty, List.nil_append, arcsFrom_nodes, read]
  · rfl
  · rfl
  · rfl
  · rfl
  · rfl

theorem members_sortGroups (order : KNode → KNode → Ordering) (groups : Groups) (k : Str) :
    members (NodeTable.sortGroups order groups) k =
      sortBy (fun a b => order a.node b.node) (members groups k) := by
  rw [members, NodeTable.sortGroups, lookup_map, members]
  cases lookup groups k with
  | none => rfl
  | some list => rfl

theorem members_grouped (key : KNode → Str) (list : NodeList) (k : Str) :
    members (list.foldl (fun m n => push m (key n.node) n) []) k =
      list.filter fun n => key n.node = k := by
  rw [members_push_all (fun n : Arc => key n.node) (fun n => n)]
  simp [members, lookup]

theorem grouped_nodes (loaded : Loaded conn t) (which : KNode → Bool) (chosen : Row → Bool)
    (same : ∀ row, which (decode row) = chosen row) :
    (t.nodes.filter fun n => which n.node).map Arc.node =
      (conn.select chosen byRowid).map decode := by
  have split : (t.nodes.filter fun n => which n.node).map Arc.node =
      (t.nodes.map Arc.node).filter which := by
    rw [List.filter_map]
    rfl
  rw [split, loaded.nodes, select_eq_filter, List.filter_map]
  have filters : which ∘ decode = chosen := funext same
  rw [filters]

theorem sorted_nodes (loaded : Loaded conn t) (which : KNode → Bool) (chosen : Row → Bool)
    (same : ∀ row, which (decode row) = chosen row) (order : KNode → KNode → Ordering)
    {cmp : Row → Row → Ordering} [TransCmp cmp] (orders : ∀ a b, order (decode a) (decode b) = cmp a b) :
    (sortBy (fun a b => order a.node b.node) (t.nodes.filter fun n => which n.node)).map Arc.node =
      (conn.select chosen (compareLex cmp byRowid)).map decode := by
  rw [← sortBy_map, grouped_nodes loaded which chosen same, sortBy_map, select_lex]
  have cmps : (fun a b => order (decode a) (decode b)) = cmp := funext fun a => funext fun b => orders a b
  rw [cmps]

def NodeTable.holds (t : NodeTable) : LookupKey → Option NodeList
  | .Name k => some (members t.by_name k)
  | .Lower k => some (members t.by_lower (toAsciiLowercase k))
  | .QualifiedName k => some (members t.by_qname k)
  | .File k => some (members t.by_file k)
  | .Kind _ => none

theorem lowercase_of_plain (plain : (asBytes k).any NodeTable.isAsciiUppercase = false) :
    toAsciiLowercase k = k := by
  have small : ∀ c ∈ k, c.toLower = c := by
    intro c listed
    rw [Char.toLower]
    split
    next capital =>
      -- a capital is one byte, which the test has found
      obtain ⟨ge, le⟩ := capital
      have lower : 0x41 ≤ c.val.toNat := UInt32.le_iff_toNat_le.mp ge
      have upper : c.val.toNat ≤ 0x5A := UInt32.le_iff_toNat_le.mp le
      have ascii : IsAscii c := Nat.lt_of_le_of_lt upper (by decide)
      have byte : asciiByte c ∈ asBytes k :=
        List.mem_flatMap.mpr ⟨c, listed, encode_ascii ascii ▸ List.mem_cons_self⟩
      have value := toNat_asciiByte ascii
      refine absurd ?_ (List.any_eq_false.mp plain _ byte)
      rw [NodeTable.isAsciiUppercase, Bool.and_eq_true, decide_eq_true_eq, decide_eq_true_eq,
        UInt8.le_iff_toNat_le, UInt8.le_iff_toNat_le, value]
      exact ⟨lower, upper⟩
    next => rfl
  exact (List.map_congr_left small).trans (List.map_id k)

theorem by_lower_eq (t : NodeTable) :
    t.by_lower = t.nodes.foldl (fun m n => push m (toAsciiLowercase n.node.name) n) [] := by
  rw [NodeTable.by_lower]
  congr 1
  funext m n
  split
  next => rfl
  next plain => rw [lowercase_of_plain (by simpa using plain)]

theorem holds_nodes (loaded : Loaded conn t) (key : LookupKey) {list : NodeList}
    (holds : t.holds key = some list) : list.map Arc.node = (key.rows conn).map decode := by
  cases key with
  | Name k =>
    cases holds
    rw [loaded.by_name, members_sortGroups, members_grouped KNode.name]
    have : TransCmp (compareLex LookupKey.byPathOfRow LookupKey.byLineOfRow) :=
      inferInstanceAs (TransCmp (compareLex (compareOn fun r : Row => asBytes r.file_path)
        (compareOn Row.start_line)))
    exact sorted_nodes loaded (fun n => n.name = k) (fun r => r.name = k) (fun _ => rfl)
      (compareLex byPath byLine) (fun _ _ => rfl)
  | Lower k =>
    cases holds
    rw [by_lower_eq, members_grouped fun n => toAsciiLowercase n.name]
    exact grouped_nodes loaded (fun n => toAsciiLowercase n.name = toAsciiLowercase k) _
      (fun _ => rfl)
  | QualifiedName k =>
    cases holds
    rw [loaded.by_qname, members_grouped KNode.qualified_name]
    exact grouped_nodes loaded (fun n => n.qualified_name = k) _ (fun _ => rfl)
  | File k =>
    cases holds
    rw [loaded.by_file, members_sortGroups, members_grouped KNode.file_path]
    have : TransCmp LookupKey.byLineOfRow := inferInstanceAs (TransCmp (compareOn Row.start_line))
    exact sorted_nodes loaded (fun n => n.file_path = k) (fun r => r.file_path = k) (fun _ => rfl)
      byLine (fun _ _ => rfl)
  | Kind k => cases holds

theorem holds_subset (loaded : Loaded conn t) (key : LookupKey) {list : NodeList}
    (holds : t.holds key = some list) : list ⊆ t.nodes := by
  cases key with
  | Name k =>
    cases holds
    rw [loaded.by_name, members_sortGroups, members_grouped KNode.name]
    exact fun n listed => List.filter_subset_self _ (mem_sortBy.mp listed)
  | Lower k =>
    cases holds
    rw [by_lower_eq, members_grouped fun n => toAsciiLowercase n.name]
    exact List.filter_subset_self _
  | QualifiedName k =>
    cases holds
    rw [loaded.by_qname, members_grouped KNode.qualified_name]
    exact List.filter_subset_self _
  | File k =>
    cases holds
    rw [loaded.by_file, members_sortGroups, members_grouped KNode.file_path]
    exact fun n listed => List.filter_subset_self _ (mem_sortBy.mp listed)
  | Kind k => cases holds

theorem nodes_ids (loaded : Loaded conn t) : (t.nodes.map fun n => n.node.id).Nodup := by
  have ids : t.nodes.map (fun n => n.node.id) = (sortBy byRowid conn.nodes).map Row.id := by
    have decoded := congrArg (List.map KNode.id) loaded.nodes
    rw [List.map_map, List.map_map] at decoded
    exact decoded
  rw [ids, (sortBy_perm.map Row.id).nodup_iff]
  exact conn.ids

theorem lookup_by_id (loaded : Loaded conn t) (id : Str) :
    lookup t.by_id id = t.nodes.find? fun n => n.node.id = id := by
  rw [loaded.by_id, lookup_assign_all (fun n : Arc => n.node.id) (fun n => n) (nodes_ids loaded)]
  simp [lookup]

theorem by_id_node (loaded : Loaded conn t) (id : Str) :
    (lookup t.by_id id).map Arc.node = (conn.nodes.find? fun r => r.id = id).map decode := by
  have decoded : (t.nodes.find? fun n => n.node.id = id).map Arc.node =
      (t.nodes.map Arc.node).find? fun n => n.id = id := by
    rw [List.find?_map]
    rfl
  have found : ((sortBy byRowid conn.nodes).map decode).find? (fun n => n.id = id) =
      ((sortBy byRowid conn.nodes).find? fun r => r.id = id).map decode := by
    rw [List.find?_map]
    rfl
  rw [lookup_by_id loaded, decoded, loaded.nodes, found, find?_perm sortBy_perm conn.ids]

end CodeGraph.Resolution.NodeLookups
