import CodeGraph.Resolution.NodeTableLists

/-!
# The lookups by query agree with the table

Whatever has been looked up before, a lookup answers with the nodes of its statement's rows, and
with the one shared node for each id.
-/
namespace CodeGraph.Resolution.NodeLookups

open FirstByKey Gathering InsertionMap OrderBy

variable {conn : Connection} {q q' : QueryLookups} {t : NodeTable}

def Shared (q : QueryLookups) (a : Arc) : Prop := lookup q.by_id a.node.id = some (some a)

structure Known (conn : Connection) (q : QueryLookups) : Prop where
  memo : ∀ key list, lookup (q.memo key) key.arg = some list →
    list.map Arc.node = (key.rows conn).map decode ∧ ∀ a ∈ list, Shared q a
  by_id : ∀ id found, lookup q.by_id id = some found →
    found.map Arc.node = (conn.nodes.find? fun r => r.id = id).map decode
  known_files : ∀ path hit, lookup q.known_files path = some hit → hit = decide (path ∈ conn.files)
  sorted_files : ∀ files, q.sorted_files = some files →
    files = sortBy (compareOn asBytes) conn.files

def Later (q q' : QueryLookups) : Prop := ∀ a, Shared q a → Shared q' a

theorem Later.refl (q : QueryLookups) : Later q q := fun _ shared => shared

theorem Later.trans {q'' : QueryLookups} (one : Later q q') (two : Later q' q'') : Later q q'' :=
  fun a shared => two a (one a shared)

theorem known_empty : Known conn .empty := by
  constructor
  · intro key list found
    cases key <;> cases found
  · intro id found none_
    cases none_
  · intro path hit none_
    cases none_
  · intro files none_
    cases none_

theorem rows_subset (key : LookupKey) {row : Row} (listed : row ∈ key.rows conn) :
    row ∈ conn.nodes := by
  cases key <;> exact (mem_select.mp listed).1

theorem row_of_id {row : Row} (listed : row ∈ conn.nodes) :
    (conn.nodes.find? fun r => r.id = row.id) = some row :=
  (find?_of_nodup conn.ids row.id).mpr ⟨listed, rfl⟩

/-- What is known of an id may be put down as long as a shared node stays what it is. -/
theorem known_assign (known : Known conn q) {id : Str} {found : Option Arc}
    (stays : ∀ a, lookup q.by_id id = some (some a) → found = some a)
    (right : found.map Arc.node = (conn.nodes.find? fun r => r.id = id).map decode) (made : Nat) :
    let q' := { q with by_id := assign q.by_id id found, made := made }
    Known conn q' ∧ Later q q' := by
  have later : Later q { q with by_id := assign q.by_id id found, made := made } := by
    intro a shared
    rw [Shared, lookup_assign]
    split
    next same => rw [stays a (same ▸ shared)]
    next => exact shared
  refine ⟨⟨fun key list hit => ?_, fun other hit stored => ?_, known.known_files, known.sorted_files⟩,
    later⟩
  · have same : lookup (q.memo key) key.arg = some list := by
      cases key <;> exact hit
    obtain ⟨nodes, shared⟩ := known.memo key list same
    exact ⟨nodes, fun a listed => later a (shared a listed)⟩
  · rw [lookup_assign] at stored
    split at stored
    next same =>
      cases stored
      rw [same]
      exact right
    next => exact known.by_id other hit stored

theorem canonical_spec (known : Known conn q) {row : Row} (listed : row ∈ conn.nodes) :
    let out := q.canonical (decode row)
    out.1.node = decode row ∧ Shared out.2 out.1 ∧ Known conn out.2 ∧ Later q out.2 := by
  have found := row_of_id listed
  have own : (decode row).id = row.id := rfl
  rw [QueryLookups.canonical]
  split
  next existing here =>
    have stored := known.by_id _ _ here
    rw [own, found] at stored
    have node : existing.node = decode row := Option.some.inj stored
    refine ⟨node, ?_, known, Later.refl q⟩
    rw [Shared, node]
    exact here
  next absent =>
    have right : (some (⟨q.made, decode row⟩ : Arc)).map Arc.node =
        (conn.nodes.find? fun r => r.id = row.id).map decode := by
      rw [found]
      rfl
    obtain ⟨known', later⟩ := known_assign known (fun a here => absurd here (absent a)) right
      (q.made + 1)
    refine ⟨rfl, ?_, known', later⟩
    rw [Shared, lookup_assign, if_pos rfl]

theorem canonicalAll_spec (known : Known conn q) {rows : List Row}
    (listed : ∀ row ∈ rows, row ∈ conn.nodes) :
    let out := q.canonicalAll (rows.map decode)
    out.1.map Arc.node = rows.map decode ∧ (∀ a ∈ out.1, Shared out.2 a) ∧
      Known conn out.2 ∧ Later q out.2 := by
  induction rows generalizing q with
  | nil => exact ⟨rfl, fun _ none_ => (nomatch none_), known, Later.refl q⟩
  | cons row rows ih =>
    obtain ⟨node, shared, known', later⟩ := canonical_spec known (listed row List.mem_cons_self)
    obtain ⟨nodes, others, known'', later'⟩ :=
      ih known' fun row member => listed row (List.mem_cons_of_mem _ member)
    rw [List.map_cons, QueryLookups.canonicalAll]
    refine ⟨?_, fun a member => ?_, known'', later.trans later'⟩
    · rw [List.map_cons, node, nodes]
    · rcases List.mem_cons.mp member with rfl | member
      · exact later' _ shared
      · exact others a member

/-- What one statement's rows gave is remembered for the keys that have the same statement. -/
theorem memo_remember (key key' : LookupKey) (list list' : NodeList)
    (hit : lookup ((q.remember key list).memo key') key'.arg = some list') :
    list' = list ∧ key'.rows conn = key.rows conn ∨ lookup (q.memo key') key'.arg = some list' := by
  have one : ∀ (m : Groups) (k k' : Str), lookup (assign m k list) k' = some list' →
      k' = k ∧ list' = list ∨ lookup m k' = some list' := by
    intro m k k' hit
    rw [lookup_assign] at hit
    split at hit
    next same =>
      cases hit
      exact Or.inl ⟨same, rfl⟩
    next => exact Or.inr hit
  -- the memos of other kinds of keys are as they were
  cases key with
  | Name k =>
    cases key' with
    | Name k' =>
      rcases one q.by_name k k' hit with ⟨rfl, same⟩ | old
      · exact Or.inl ⟨same, rfl⟩
      · exact Or.inr old
    | _ => exact Or.inr hit
  | Lower k =>
    cases key' with
    | Lower k' =>
      rcases one q.by_lower (toAsciiLowercase k) (toAsciiLowercase k') hit with ⟨lower, same⟩ | old
      · refine Or.inl ⟨same, ?_⟩
        rw [LookupKey.rows, LookupKey.rows, lower]
      · exact Or.inr old
    | _ => exact Or.inr hit
  | QualifiedName k =>
    cases key' with
    | QualifiedName k' =>
      rcases one q.by_qname k k' hit with ⟨rfl, same⟩ | old
      · exact Or.inl ⟨same, rfl⟩
      · exact Or.inr old
    | _ => exact Or.inr hit
  | File k =>
    cases key' with
    | File k' =>
      rcases one q.by_file k k' hit with ⟨rfl, same⟩ | old
      · exact Or.inl ⟨same, rfl⟩
      · exact Or.inr old
    | _ => exact Or.inr hit
  | Kind k =>
    cases key' with
    | Kind k' =>
      rcases one q.by_kind k k' hit with ⟨rfl, same⟩ | old
      · exact Or.inl ⟨same, rfl⟩
      · exact Or.inr old
    | _ => exact Or.inr hit

theorem known_remember (known : Known conn q) {key : LookupKey} {list : NodeList}
    (nodes : list.map Arc.node = (key.rows conn).map decode) (shared : ∀ a ∈ list, Shared q a) :
    Known conn (q.remember key list) ∧ Later q (q.remember key list) := by
  have by_id : (q.remember key list).by_id = q.by_id := by
    cases key <;> rfl
  have same : ∀ a, Shared (q.remember key list) a ↔ Shared q a := by
    intro a
    rw [Shared, Shared, by_id]
  refine ⟨⟨fun key' list' hit => ?_, fun id found stored => ?_, ?_, ?_⟩, fun a => (same a).mpr⟩
  · simp only [same]
    rcases memo_remember key key' list list' hit with ⟨rfl, rows⟩ | old
    · rw [rows]
      exact ⟨nodes, shared⟩
    · exact known.memo key' list' old
  · rw [by_id] at stored
    exact known.by_id id found stored
  · cases key <;> exact known.known_files
  · cases key <;> exact known.sorted_files

theorem nodes_spec (readable : Readable conn) (known : Known conn q) (key : LookupKey) :
    ∃ list q', q.nodes conn key = some (list, q') ∧
      list.map Arc.node = (key.rows conn).map decode ∧ (∀ a ∈ list, Shared q' a) ∧
      Known conn q' ∧ Later q q' := by
  rw [QueryLookups.nodes]
  split
  next list hit =>
    obtain ⟨nodes, shared⟩ := known.memo key list hit
    exact ⟨list, q, rfl, nodes, shared, known, Later.refl q⟩
  next =>
    rw [mapM_from_row fun row listed => readable row (rows_subset key listed)]
    obtain ⟨nodes, shared, known', later⟩ :=
      canonicalAll_spec known fun row listed => rows_subset key listed
    obtain ⟨known'', later'⟩ := known_remember known' nodes shared
    exact ⟨_, _, rfl, nodes, fun a listed => later' a (shared a listed), known'', later.trans later'⟩

theorem shared_of_by_id (known : Known conn q) {id : Str} {a : Arc}
    (hit : lookup q.by_id id = some (some a)) : Shared q a := by
  have stored := known.by_id id (some a) hit
  obtain ⟨row, found, node⟩ := Option.map_eq_some_iff.mp stored.symm
  have own : a.node.id = id := by
    rw [← node]
    exact ((find?_of_nodup conn.ids id).mp found).2
  rw [Shared, own]
  exact hit

theorem node_by_id_spec (readable : Readable conn) (known : Known conn q) (id : Str) :
    ∃ found q', q.node_by_id conn id = some (found, q') ∧
      found.map Arc.node = (conn.nodes.find? fun r => r.id = id).map decode ∧
      (∀ a, found = some a → Shared q' a) ∧ Known conn q' ∧ Later q q' := by
  rw [QueryLookups.node_by_id]
  split
  next hit here =>
    refine ⟨hit, q, rfl, known.by_id id hit here, ?_, known, Later.refl q⟩
    rintro a rfl
    exact shared_of_by_id known here
  next absent =>
    rw [List.head?_filter]
    split
    next none_ =>
      have right : (none : Option Arc).map Arc.node =
          (conn.nodes.find? fun r => r.id = id).map decode := by
        rw [none_]
        rfl
      obtain ⟨known', later⟩ := known_assign known
        (fun a here => nomatch absent.symm.trans here) right q.made
      exact ⟨none, _, rfl, right, fun a none_ => (nomatch none_), known', later⟩
    next row found =>
      obtain ⟨listed, own⟩ := (find?_of_nodup conn.ids id).mp found
      rw [from_row_of_some (readable row listed)]
      obtain ⟨node, shared, known', later⟩ := canonical_spec known listed
      have right : (some (q.canonical (decode row)).1).map Arc.node =
          (conn.nodes.find? fun r => r.id = id).map decode := by
        rw [found, Option.map_some, node]
        rfl
      have own' : (q.canonical (decode row)).1.node.id = id := by
        rw [node]
        exact own
      have stays : ∀ a, lookup (q.canonical (decode row)).2.by_id id = some (some a) →
          some (q.canonical (decode row)).1 = some a := by
        intro a here
        rw [Shared, own', here] at shared
        exact (Option.some.inj shared).symm
      obtain ⟨known'', later'⟩ := known_assign known' stays right (q.canonical (decode row)).2.made
      refine ⟨_, _, rfl, right, ?_, known'', later.trans later'⟩
      rintro a same
      cases same
      exact later' _ shared

theorem known_file_spec (known : Known conn q) (path : Str) :
    (q.known_file conn path).1 = decide (path ∈ conn.files) ∧
      Known conn (q.known_file conn path).2 ∧ Later q (q.known_file conn path).2 := by
  rw [QueryLookups.known_file]
  split
  next hit here => exact ⟨known.known_files path hit here, known, Later.refl q⟩
  next =>
    refine ⟨rfl, ⟨fun key list hit => ?_, known.by_id, fun other hit stored => ?_,
      known.sorted_files⟩, fun _ shared => shared⟩
    · have same : lookup (q.memo key) key.arg = some list := by
        cases key <;> exact hit
      exact known.memo key list same
    · rw [lookup_assign] at stored
      split at stored
      next same =>
        cases stored
        rw [same]
      next => exact known.known_files other hit stored

theorem all_files_spec (known : Known conn q) :
    (q.all_files conn).1 = sortBy (compareOn asBytes) conn.files ∧
      Known conn (q.all_files conn).2 ∧ Later q (q.all_files conn).2 := by
  rw [QueryLookups.all_files]
  split
  next files here => exact ⟨known.sorted_files files here, known, Later.refl q⟩
  next =>
    refine ⟨rfl, ⟨fun key list hit => ?_, known.by_id, known.known_files, fun files stored => ?_⟩,
      fun _ shared => shared⟩
    · have same : lookup (q.memo key) key.arg = some list := by
        cases key <;> exact hit
      exact known.memo key list same
    · cases stored
      rfl

def Agrees (t : NodeTable) : Lookup → Answer → Prop
  | .nodes key, .nodes list =>
    ∀ held, t.holds key = some held → list.map Arc.node = held.map Arc.node
  | .node_by_id id, .node found => found.map Arc.node = (lookup t.by_id id).map Arc.node
  | .known_file path, .known hit => hit = decide (path ∈ t.files)
  | .sorted_files, .files paths => ∀ path, path ∈ paths ↔ path ∈ t.files
  | _, _ => False

theorem perform_spec (loaded : Loaded conn t) (known : Known conn q) (op : Lookup) :
    ∃ answer q', perform conn q op = some (answer, q') ∧ Agrees t op answer ∧
      (∀ a ∈ answer.arcs, Shared q' a) ∧ Known conn q' ∧ Later q q' := by
  cases op with
  | nodes key =>
    obtain ⟨list, q', answered, nodes, shared, known', later⟩ := nodes_spec loaded.readable known key
    refine ⟨.nodes list, q', by rw [perform, answered]; rfl, ?_, shared, known', later⟩
    intro held holds
    rw [nodes, holds_nodes loaded key holds]
  | node_by_id id =>
    obtain ⟨found, q', answered, node, shared, known', later⟩ :=
      node_by_id_spec loaded.readable known id
    refine ⟨.node found, q', by rw [perform, answered]; rfl, ?_, ?_, known', later⟩
    · rw [Agrees, node, by_id_node loaded]
    · exact fun a listed => shared a (Option.mem_toList.mp listed)
  | known_file path =>
    obtain ⟨hit, known', later⟩ := known_file_spec known path
    refine ⟨.known (q.known_file conn path).1, _, rfl, ?_, fun a none_ => (nomatch none_), known',
      later⟩
    rw [Agrees, hit, loaded.files]
    exact decide_eq_decide.mpr (by simp [mem_foldl_addTo])
  | sorted_files =>
    obtain ⟨files, known', later⟩ := all_files_spec known
    refine ⟨.files (q.all_files conn).1, _, rfl, ?_, fun a none_ => (nomatch none_), known', later⟩
    intro path
    rw [files, mem_sortBy, loaded.files]
    simp [mem_foldl_addTo]

theorem answers_spec (loaded : Loaded conn t) (known : Known conn q) (ops : List Lookup) :
    ∃ out q', answers conn q ops = some out ∧ List.Forall₂ (Agrees t) ops out ∧
      (∀ a ∈ out.flatMap Answer.arcs, Shared q' a) ∧ Later q q' := by
  induction ops generalizing q with
  | nil => exact ⟨[], q, rfl, .nil, fun a none_ => (nomatch none_), Later.refl q⟩
  | cons op ops ih =>
    obtain ⟨answer, q', answered, agrees, shared, known', later⟩ := perform_spec loaded known op
    obtain ⟨rest, q'', others, agree, shared', later'⟩ := ih known'
    refine ⟨answer :: rest, q'', ?_, .cons agrees agree, fun a listed => ?_, later.trans later'⟩
    · rw [answers, answered, Option.bind_some]
      simp only [others, Option.map_some]
    · rw [List.flatMap_cons] at listed
      rcases List.mem_append.mp listed with listed | listed
      · exact later' a (shared a listed)
      · exact shared' a listed

/-- The lookups by query and the table are interchangeable, and each has one shared node for an
id. -/
theorem query_lookups_agree (conn : Connection) (t : NodeTable)
    (loaded : NodeTable.load_inner conn = some t) :
    (∀ ops, ∃ out, answers conn .empty ops = some out ∧ List.Forall₂ (Agrees t) ops out ∧
      ∀ a ∈ out.flatMap Answer.arcs, ∀ b ∈ out.flatMap Answer.arcs, a.node.id = b.node.id → a = b) ∧
    (∀ key held, t.holds key = some held → ∀ a ∈ held, lookup t.by_id a.node.id = some a) ∧
    ∀ id a, lookup t.by_id id = some a → a.node.id = id := by
  have loaded := loaded_of_load_inner loaded
  refine ⟨fun ops => ?_, fun key held holds a listed => ?_, fun id a found => ?_⟩
  · obtain ⟨out, q, answered, agree, shared, -⟩ := answers_spec loaded known_empty ops
    refine ⟨out, answered, agree, fun a first b second same => ?_⟩
    have one := shared a first
    have other := shared b second
    rw [Shared, same] at one
    rw [Shared, one] at other
    exact Option.some.inj (Option.some.inj other)
  · rw [lookup_by_id loaded]
    exact (find?_of_nodup (nodes_ids loaded) a.node.id).mpr
      ⟨holds_subset loaded key holds listed, rfl⟩
  · rw [lookup_by_id loaded] at found
    simpa using List.find?_some found

def sampleTables : Connection where
  nodes :=
    let row (rowid : Int) (id name file_path : String) (line : Int) : Row :=
      ⟨rowid, id.toList, "function".toList, name.toList, name.toList, file_path.toList,
        "typescript".toList, line, line, 0, 9, none, none, some 1, none, none, none, none, none, none⟩
    [row 3 "c" "run" "a.ts" 4, row 1 "a" "run" "b.ts" 2, row 2 "b" "Run" "a.ts" 4]
  files := ["b.ts".toList, "a.ts".toList]
  rowids := by decide
  ids := by decide

theorem query_lookups_agree_sample : ∃ t, NodeTable.load_inner sampleTables = some t ∧
    ∀ ops, ∃ out, answers sampleTables .empty ops = some out ∧ List.Forall₂ (Agrees t) ops out :=
  have ⟨t, loaded⟩ := Option.isSome_iff_exists.mp
    (show (NodeTable.load_inner sampleTables).isSome = true by decide)
  ⟨t, loaded, fun ops =>
    have ⟨out, answered, agree, _⟩ := (query_lookups_agree sampleTables t loaded).1 ops
    ⟨out, answered, agree⟩⟩

end CodeGraph.Resolution.NodeLookups
