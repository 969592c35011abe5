import CodeGraph.Kernel.WireRows

/-! What the kernel's walkers push is what the decoder reads. -/
namespace CodeGraph.Kernel

open LittleEndian Text

/-! ### Tables -/

/-- A table holds one row for each item, in order, and counts them modulo 2 ^ 32. -/
private def Tabled {R α : Type} (bytes : R → List UInt8) (spells : R → α → Prop)
    (buf : List UInt8) (count : UInt32) (items : List α) : Prop :=
  ∃ rows, List.Forall₂ spells rows items ∧ buf = rows.flatMap bytes ∧
    count = UInt32.ofNat rows.length

section Tabled

variable {R α β : Type} {bytes : R → List UInt8} {spells spells' : R → α → Prop}
  {buf : List UInt8} {count : UInt32} {items : List α}

private theorem tabled_nil : Tabled bytes spells [] 0 [] := ⟨[], .nil, rfl, rfl⟩

private theorem tabled_push (table : Tabled bytes spells buf count items) {r : R} {x : α}
    (spelled : spells r x) : Tabled bytes spells (buf ++ bytes r) (count + 1) (items ++ [x]) := by
  obtain ⟨rows, matched, rfl, rfl⟩ := table
  refine ⟨rows ++ [r], List.rel_append matched (.cons spelled .nil), by simp, ?_⟩
  rw [List.length_append, List.length_singleton, UInt32.ofNat_add]
  rfl

private theorem tabled_mono (table : Tabled bytes spells buf count items)
    (weaker : ∀ r x, spells r x → spells' r x) : Tabled bytes spells' buf count items := by
  obtain ⟨rows, matched, eqs⟩ := table
  exact ⟨rows, matched.imp weaker, eqs⟩

private theorem decodeTable_tabled (table : Tabled bytes spells buf count items) {size : Nat}
    (fixed : ∀ r, (bytes r).length = size) (few : items.length < 2 ^ 32)
    {decode : List UInt8 → Decoder β} {answer : α → β}
    (each : ∀ r, ∀ x ∈ items, spells r x → decode (bytes r) = .ok (answer x)) :
    decodeTable buf size count decode = .ok (items.map answer) := by
  obtain ⟨rows, matched, rfl, rfl⟩ := table
  have value : (UInt32.ofNat rows.length).toNat = rows.length := by
    rw [UInt32.toNat_ofNat']
    have := matched.length_eq
    omega
  rw [decodeTable, value, mapM_rowAt bytes size fixed]
  clear value few
  induction matched with
  | nil => rfl
  | cons spelled matched ih =>
    rw [List.mapM_cons, each _ _ List.mem_cons_self spelled, ok_bind,
      ih fun r x member => each r x (List.mem_cons_of_mem _ member)]
    rfl

end Tabled

namespace Written

private structure Grows (w later : Written) : Prop where
  texts : w.texts ⊆ later.texts
  lists : w.lists ⊆ later.lists

variable {w later : Written}

private theorem text_mono (grows : w.Grows later) {r : StrRef} {s : Option String}
    (spelled : w.Text r s) : later.Text r s := spelled.imp_right fun member => grows.texts member

private theorem items_mono (grows : w.Grows later) {r : StrRef} {items : List String}
    (spelled : w.Items r items) : later.Items r items :=
  spelled.imp_right fun member => grows.lists member

private theorem endpoint_mono (grows : w.Grows later) {idx : UInt32} {r : StrRef} {e : Endpoint}
    (spelled : SpellsEndpoint w idx r e) : SpellsEndpoint later idx r e := by
  cases e with
  | row i => exact spelled
  | named id => exact ⟨spelled.1, text_mono grows spelled.2⟩

end Written

open Written

section Monotone

variable {w later : Written} (grows : w.Grows later)

include grows

private theorem node_mono {r : NodeRow} {n : PushedNode} (h : SpellsNode w r n) :
    SpellsNode later r n :=
  { h with
    name := text_mono grows h.name
    qualifiedName := text_mono grows h.qualifiedName
    id := text_mono grows h.id
    docstring := text_mono grows h.docstring
    signature := text_mono grows h.signature
    decorators := items_mono grows h.decorators
    typeParameters := items_mono grows h.typeParameters
    returnType := text_mono grows h.returnType
    extraJson := text_mono grows h.extraJson }

private theorem edge_mono {r : EdgeRow} {e : PushedEdge} (h : SpellsEdge w r e) :
    SpellsEdge later r e :=
  { h with
    source := endpoint_mono grows h.source
    target := endpoint_mono grows h.target
    metadataJson := text_mono grows h.metadataJson }

private theorem ref_mono {r : RefRow} {flags : UInt8} {f : PushedRef}
    (h : SpellsRef w r flags f) : SpellsRef later r flags f :=
  { h with
    owner := endpoint_mono grows h.owner
    referenceName := text_mono grows h.referenceName
    candidates := items_mono grows h.candidates }

private theorem binding_mono {r : BindingRow} {b : PushedBinding} (h : SpellsBinding w r b) :
    SpellsBinding later r b :=
  { h with
    name := text_mono grows h.name
    targetSpec := text_mono grows h.targetSpec
    targetName := text_mono grows h.targetName
    exportedAs := text_mono grows h.exportedAs
    storage := text_mono grows h.storage }

end Monotone

/-- The tables hold the rows of `pushed`, which spell with the strings of `w`. -/
private structure TablesInv (t : Tables) (w pushed : Written) : Prop where
  nodes : Tabled nodeBytes (SpellsNode w) t.nodes t.node_count pushed.nodes
  edges : Tabled edgeBytes (SpellsEdge w) t.edges t.edge_count pushed.edges
  refs : Tabled (fun r : RefRow × UInt8 => refBytes r.1 r.2) (fun r => SpellsRef w r.1 r.2)
    t.refs t.ref_count pushed.refs
  bindings : Tabled bindingBytes (SpellsBinding w) t.bindings t.binding_count pushed.bindings

private theorem tablesInv_mono {t : Tables} {w later pushed : Written}
    (inv : TablesInv t w pushed) (grows : w.Grows later) : TablesInv t later pushed where
  nodes := tabled_mono inv.nodes fun _ _ => node_mono grows
  edges := tabled_mono inv.edges fun _ _ => edge_mono grows
  refs := tabled_mono inv.refs fun _ _ => ref_mono grows
  bindings := tabled_mono inv.bindings fun _ _ => binding_mono grows

private theorem emits_tables {a : Arena} {t : Tables} {w : Written} (run : Emits a t w) :
    TablesInv t w w := by
  induction run with
  | start => exact ⟨tabled_nil, tabled_nil, tabled_nil, tabled_nil⟩
  | @put a t w s run ih =>
    have grows : w.Grows { w with texts := ((a.put_opt s).1, s) :: w.texts } :=
      ⟨List.subset_cons_self _ _, List.Subset.refl _⟩
    have kept := tablesInv_mono ih grows
    exact ⟨kept.nodes, kept.edges, kept.refs, kept.bindings⟩
  | @putList a t w items clean run ih =>
    have grows : w.Grows { w with lists := ((a.put_list items).1, items) :: w.lists } :=
      ⟨List.Subset.refl _, List.subset_cons_self _ _⟩
    have kept := tablesInv_mono ih grows
    exact ⟨kept.nodes, kept.edges, kept.refs, kept.bindings⟩
  | @pushNode a t w r n run spelled ih =>
    have grows : w.Grows { w with nodes := w.nodes ++ [n] } :=
      ⟨List.Subset.refl _, List.Subset.refl _⟩
    have kept := tablesInv_mono ih grows
    exact ⟨tabled_push kept.nodes (node_mono grows spelled), kept.edges, kept.refs, kept.bindings⟩
  | @pushEdge a t w r e run spelled ih =>
    have grows : w.Grows { w with edges := w.edges ++ [e] } :=
      ⟨List.Subset.refl _, List.Subset.refl _⟩
    have kept := tablesInv_mono ih grows
    exact ⟨kept.nodes, tabled_push kept.edges (edge_mono grows spelled), kept.refs, kept.bindings⟩
  | @pushRef a t w r flags f run spelled ih =>
    have grows : w.Grows { w with refs := w.refs ++ [f] } :=
      ⟨List.Subset.refl _, List.Subset.refl _⟩
    have kept := tablesInv_mono ih grows
    exact ⟨kept.nodes, kept.edges, tabled_push (r := (r, flags)) kept.refs (ref_mono grows spelled),
      kept.bindings⟩
  | @pushBinding a t w r b run spelled ih =>
    have grows : w.Grows { w with bindings := w.bindings ++ [b] } :=
      ⟨List.Subset.refl _, List.Subset.refl _⟩
    have kept := tablesInv_mono ih grows
    exact ⟨kept.nodes, kept.edges, kept.refs,
      tabled_push kept.bindings (binding_mono grows spelled)⟩

private def metaCells (t : Tables) (arena_len : UInt32) (errors_json : StrRef)
    (duration_ms : UInt64) (flags : UInt8) : List Cell :=
  [.byte KERNEL_ABI_VERSION, .byte flags, .byte 0, .byte 0, .word t.node_count,
    .word t.edge_count, .word t.ref_count, .word arena_len, .word errors_json.off,
    .word errors_json.len, .quad duration_ms, .word t.binding_count]

private theorem rowBytes_metaCells (t : Tables) (arena_len : UInt32) (errors_json : StrRef)
    (duration_ms : UInt64) (flags : UInt8) :
    rowBytes (metaCells t arena_len errors_json duration_ms flags) =
      build_meta t arena_len errors_json duration_ms flags := by
  simp only [rowBytes, metaCells, build_meta, Cell.bytes, List.flatMap_cons, List.flatMap_nil,
    List.append_assoc, List.cons_append, List.nil_append, List.append_nil]

private structure MetaFields (block : List UInt8) (t : Tables) (errors_json : StrRef) : Prop where
  version : readUInt8 block META.version = .ok KERNEL_ABI_VERSION
  nodeCount : readUInt32LE block META.nodeCount = .ok t.node_count
  edgeCount : readUInt32LE block META.edgeCount = .ok t.edge_count
  refCount : readUInt32LE block META.refCount = .ok t.ref_count
  errors : Keeps block META.errorsOff errors_json
  bindingCount : readUInt32LE block META.bindingCount = .ok t.binding_count
  length : block.length = META_SIZE

private theorem meta_fields (t : Tables) (arena_len : UInt32) (errors_json : StrRef)
    (duration_ms : UInt64) (flags : UInt8) :
    MetaFields (build_meta t arena_len errors_json duration_ms flags) t errors_json := by
  have length : (build_meta t arena_len errors_json duration_ms flags).length = META_SIZE := by
    simp [build_meta, META_SIZE]
  rw [← rowBytes_metaCells] at length ⊢
  refine ⟨read8 ?_, read32 ?_, read32 ?_, read32 ?_, keeps ?_ ?_, read32 ?_, length⟩
  all_goals simp [metaCells, META.version, META.nodeCount, META.edgeCount, META.refCount,
    META.errorsOff, META.bindingCount]

private theorem decode_emitOut (a : Arena) (t : Tables) (errors_json : StrRef)
    (duration_ms : UInt64) (flags : UInt8) (filePath : String) (language : Language) (now : Nat) :
    decodeExtractBuffers (emitOut a t errors_json duration_ms flags) filePath language now = do
      let nodes ← decodeTable t.nodes NODE_ROW_SIZE t.node_count
        (decodeNode a.buf filePath language now)
      let edges ← decodeTable t.edges EDGE_ROW_SIZE t.edge_count
        (decodeEdge a.buf (nodes.map Node.id))
      let refs ← decodeTable t.refs REF_ROW_SIZE t.ref_count
        (decodeRef a.buf (nodes.map Node.id) filePath language)
      let errors ← decodeErrors a.buf (build_meta t a.len errors_json duration_ms flags)
      let bindings ← decodeTable t.bindings BINDING_ROW_SIZE t.binding_count
        (decodeBinding a.buf (nodes.map Node.id) filePath)
      return ⟨nodes, edges, refs, bindings, errors, 0⟩ := by
  have fields := meta_fields t a.len errors_json duration_ms flags
  simp only [decodeExtractBuffers, emitOut, fields.version, fields.nodeCount, fields.edgeCount,
    fields.refCount, fields.bindingCount, fields.length, ok_bind, Nat.lt_irrefl, if_false,
    ne_eq, not_true_eq_false]

private theorem decode_written {a : Arena} {t : Tables} {w : Written} (arena : ArenaInv a w)
    (tables : TablesInv t w w) {errors_json : StrRef} {errors : Option String}
    (reported : w.Text errors_json errors) (duration_ms : UInt64) (flags : UInt8)
    (filePath : String) (language : Language) (now : Nat) (small : a.buf.length < 2 ^ 32 - 1)
    (counted : w.Counted) (inRange : w.InRange) (parses : w.Parses) (errorsJson : IsJson errors) :
    decodeExtractBuffers (emitOut a t errors_json duration_ms flags) filePath language now =
      .ok (w.decoded errors filePath language now) := by
  have nodes := decodeTable_tabled tables.nodes length_nodeBytes counted.nodes
    fun r n member spelled => decodeNode_row arena small filePath language now spelled
      (parses.extras n member)
  have edges := decodeTable_tabled tables.edges length_edgeBytes counted.edges
    fun r e member spelled => decodeEdge_row arena small counted.nodes spelled
      (inRange.sources e member) (inRange.targets e member) (parses.metadatas e member)
  have refs := decodeTable_tabled tables.refs length_refBytes counted.refs
    fun r f member spelled => decodeRef_row arena small counted.nodes filePath language spelled
      (inRange.owners f member)
  have bindings := decodeTable_tabled tables.bindings length_bindingBytes counted.bindings
    fun r b member spelled => decodeBinding_row arena small counted.nodes filePath spelled
      (inRange.bindings b member)
  have fields := meta_fields t a.len errors_json duration_ms flags
  have parsed := decodeErrors_read arena small fields.errors reported errorsJson
  have ids : (w.nodes.map fun n => n.decoded filePath language now).map Node.id =
      w.nodes.map PushedNode.id := by rw [List.map_map]; rfl
  rw [decode_emitOut, nodes, ok_bind, ids, edges, ok_bind, refs, ok_bind, parsed, ok_bind,
    bindings, ok_bind, pure_ok, Written.decoded]

/-! ### Keeping the bindings only -/

private theorem clearNodeIdx_row (r : BindingRow) :
    clearNodeIdx (bindingBytes r) = bindingBytes { r with node_idx := NONE } := rfl

/-- Only the bindings are left, none of them naming a node. -/
private theorem bindings_only_tables {a : Arena} {t : Tables} {w : Written}
    (tables : TablesInv t w w) (errors_json : StrRef) (duration_ms : UInt64) (flags : UInt8) :
    ∃ t' duration, (emitOut a t errors_json duration_ms flags).bindings_only =
      emitOut a t' NONE_STR duration 0 ∧ TablesInv t' w.bindingsOnly w.bindingsOnly := by
  obtain ⟨rows, matched, buf, -⟩ := tables.bindings
  let cleared := rows.map fun r => { r with node_idx := NONE }
  let out := emitOut a t errors_json duration_ms flags
  have count : t.bindings.length / BINDING_ROW_SIZE = rows.length := by
    rw [buf, length_flatMap_rows bindingBytes _ length_bindingBytes]
    exact Nat.mul_div_cancel _ (by decide)
  have kept : (List.range rows.length).flatMap
      (fun i => clearNodeIdx (rowAt BINDING_ROW_SIZE t.bindings i)) =
        cleared.flatMap bindingBytes := by
    rw [buf, flatMap_rowAt bindingBytes _ length_bindingBytes, List.flatMap_map]
    rfl
  have rest : t.bindings.drop (rows.length * BINDING_ROW_SIZE) = [] := by
    rw [buf, ← length_flatMap_rows bindingBytes _ length_bindingBytes, List.drop_length]
  refine ⟨{ bindings := cleared.flatMap bindingBytes, binding_count := UInt32.ofNat rows.length },
    join64 (durationBytes out.meta), ?_, tabled_nil, tabled_nil, tabled_nil, cleared, ?_, rfl, ?_⟩
  · change EmitOut.bindings_only out = _
    unfold EmitOut.bindings_only
    simp only [count, out, emitOut, kept, rest, List.append_nil]
  · have grows : w.Grows w.bindingsOnly := ⟨List.Subset.refl _, List.Subset.refl _⟩
    exact List.forall₂_map_left_iff.mpr (List.forall₂_map_right_iff.mpr
      (matched.imp fun r b spelled => { binding_mono grows spelled with node := rfl }))
  · rw [List.length_map]

/-- What a walk pushes is what decoding its buffers answers, and after `bindings_only` the
bindings alone, without node ids. -/
theorem decode_emits {a : Arena} {t : Tables} {w : Written} (run : Emits a t w)
    {errors_json : StrRef} {errors : Option String} (reported : w.Text errors_json errors)
    (duration_ms : UInt64) (flags : UInt8) (filePath : String) (language : Language) (now : Nat)
    (small : a.buf.length < 2 ^ 32 - 1) (counted : w.Counted) (inRange : w.InRange)
    (parses : w.Parses) (errorsJson : IsJson errors) :
    let out := emitOut a t errors_json duration_ms flags
    decodeExtractBuffers out filePath language now =
        .ok (w.decoded errors filePath language now) ∧
      decodeExtractBuffers out.bindings_only filePath language now =
        .ok (w.bindingsOnly.decoded none filePath language now) := by
  have arena := emits_arena run
  have tables := emits_tables run
  refine ⟨decode_written arena tables reported duration_ms flags filePath language now small
    counted inRange parses errorsJson, ?_⟩
  obtain ⟨t', duration, eq, kept⟩ :=
    bindings_only_tables (a := a) tables errors_json duration_ms flags
  rw [eq]
  have few : w.bindingsOnly.Counted :=
    ⟨Nat.two_pow_pos _, Nat.two_pow_pos _, Nat.two_pow_pos _, by
      rw [Written.bindingsOnly, List.length_map]
      exact counted.bindings⟩
  have unbound : w.bindingsOnly.InRange := by
    refine ⟨by simp [Written.bindingsOnly], by simp [Written.bindingsOnly],
      by simp [Written.bindingsOnly], ?_⟩
    intro b member i node
    obtain ⟨old, -, rfl⟩ := List.mem_map.mp member
    cases node
  exact decode_written (w := w.bindingsOnly) ⟨arena.texts, arena.lists⟩ kept (.inl ⟨rfl, rfl⟩)
    duration 0 filePath language now small few unbound
    ⟨by simp [Written.bindingsOnly], by simp [Written.bindingsOnly]⟩ (by simp [IsJson])

private def oneNode : NodeRow :=
  ⟨7, 1, flagsOf (some true) none none none, 1, 3, 0, 1, ⟨0, 1⟩, ⟨0, 1⟩, ⟨0, 1⟩, NONE_STR, NONE_STR,
    NONE_STR, NONE_STR, NONE_STR, NONE_STR⟩

private def onePushed : PushedNode :=
  ⟨.function, some .pub, some true, none, none, none, 1, 3, 0, 1, some "f", some "f", some "f", none,
    none, [], [], none, none⟩

private theorem one_spelled {w : Written} (kept : (⟨0, 1⟩, some "f") ∈ w.texts) :
    SpellsNode w oneNode onePushed where
  kind := rfl
  visibility := rfl
  flags := rfl
  startLine := rfl
  endLine := rfl
  startColumn := rfl
  endColumn := rfl
  name := .inr kept
  qualifiedName := .inr kept
  id := .inr kept
  docstring := .inl ⟨rfl, rfl⟩
  signature := .inl ⟨rfl, rfl⟩
  decorators := .inl ⟨rfl, rfl⟩
  typeParameters := .inl ⟨rfl, rfl⟩
  returnType := .inl ⟨rfl, rfl⟩
  extraJson := .inl ⟨rfl, rfl⟩

private def selfCall : EdgeRow := ⟨0, 0, 1, 0, 2, NONE, NONE_STR, NONE_STR, NONE_STR⟩

private def selfCalled : PushedEdge :=
  ⟨.row 0, .row 0, .calls, none, some ⟨2, by decide⟩, none, none⟩

private theorem self_spelled (w : Written) : SpellsEdge w selfCall selfCalled :=
  ⟨rfl, rfl, rfl, rfl, rfl, rfl, .inl ⟨rfl, rfl⟩⟩

/-- One exported function that calls itself. -/
theorem decode_emits_function : ∃ a t w, Emits a t w ∧ w.nodes.length = 1 ∧ w.edges.length = 1 ∧
    decodeExtractBuffers (emitOut a t NONE_STR 0 0) "a.ts" .typescript 0 =
        .ok (w.decoded none "a.ts" .typescript 0) ∧
      decodeExtractBuffers (emitOut a t NONE_STR 0 0).bindings_only "a.ts" .typescript 0 =
        .ok (w.bindingsOnly.decoded none "a.ts" .typescript 0) := by
  have text := Emits.start.put (some "f")
  have node := text.pushNode oneNode onePushed (one_spelled (List.mem_singleton.mpr rfl))
  have run := node.pushEdge selfCall selfCalled (self_spelled _)
  refine ⟨_, _, _, run, rfl, rfl, decode_emits run (.inl ⟨rfl, rfl⟩) 0 0 "a.ts" .typescript 0
    (by decide) ⟨by simp, by simp, by simp, by simp⟩ ⟨?_, ?_, by simp, by simp⟩ ⟨?_, ?_⟩
    (by simp [IsJson])⟩
  · simp [selfCalled, Endpoint.InRange]
  · simp [selfCalled, Endpoint.InRange]
  · simp [onePushed, IsJson]
  · simp [selfCalled, IsJson]

/-! ### Texts that are no JSON, and counts that wrap -/

private def looseEdge (metadata_json : StrRef) : EdgeRow :=
  ⟨NONE, NONE, 0, 0, NONE, NONE, metadata_json, NONE_STR, NONE_STR⟩

private def loosePushed (metadataJson : Option String) : PushedEdge :=
  ⟨.named none, .named none, .contains, none, none, none, metadataJson⟩

private theorem loose_spelled {w : Written} {r : StrRef} {metadataJson : Option String}
    (spelled : w.Text r metadataJson) : SpellsEdge w (looseEdge r) (loosePushed metadataJson) where
  source := ⟨rfl, .inl ⟨rfl, rfl⟩⟩
  target := ⟨rfl, .inl ⟨rfl, rfl⟩⟩
  kind := rfl
  provenance := rfl
  line := rfl
  column := rfl
  metadataJson := spelled

private def looseTables : Nat → Tables
  | 0 => {}
  | n + 1 => (looseTables n).push_edge (looseEdge NONE_STR)

private def looseWritten (n : Nat) : Written := { edges := List.replicate n (loosePushed none) }

private theorem loose_emits (n : Nat) : Emits {} (looseTables n) (looseWritten n) := by
  induction n with
  | zero => exact .start
  | succ n ih =>
    have next := Emits.pushEdge (looseEdge NONE_STR) (loosePushed none) ih
      (loose_spelled (.inl ⟨rfl, rfl⟩))
    rw [looseWritten, List.replicate_succ']
    exact next

private theorem loose_tables (n : Nat) : (looseTables n).edge_count = UInt32.ofNat n ∧
    (looseTables n).node_count = 0 ∧ (looseTables n).ref_count = 0 ∧
      (looseTables n).binding_count = 0 := by
  induction n with
  | zero => exact ⟨rfl, rfl, rfl, rfl⟩
  | succ n ih =>
    refine ⟨?_, ih.2.1, ih.2.2.1, ih.2.2.2⟩
    rw [UInt32.ofNat_add]
    exact congrArg (· + 1) ih.1

private theorem loose_inRange (n : Nat) : (looseWritten n).InRange := by
  have each : ∀ e ∈ (looseWritten n).edges, e = loosePushed none := fun e member =>
    List.eq_of_mem_replicate member
  refine ⟨fun e member => ?_, fun e member => ?_, by simp [looseWritten], by simp [looseWritten]⟩
  · rw [each e member]
    trivial
  · rw [each e member]
    trivial

/-- With 2 ^ 32 edges the edge count is zero again. -/
private theorem loose_wraps (n : Nat) (wraps : UInt32.ofNat n = 0) :
    decodeExtractBuffers (emitOut {} (looseTables n) NONE_STR 0 0) "a.ts" .typescript 0 =
      .ok ⟨[], [], [], [], none, 0⟩ := by
  obtain ⟨edges, nodes, refs, bindings⟩ := loose_tables n
  have none_left {β : Type} (buf : List UInt8) (size : Nat) (decode : List UInt8 → Decoder β) :
      decodeTable buf size 0 decode = .ok [] := rfl
  have fields := meta_fields (looseTables n) (Arena.len {}) NONE_STR 0 0
  have unreported : Written.Text {} NONE_STR none := .inl ⟨rfl, rfl⟩
  have parsed := decodeErrors_read (a := {}) ⟨by simp, by simp⟩ (by decide) fields.errors
    unreported (by simp [IsJson])
  rw [decode_emitOut, nodes, none_left, ok_bind, edges, wraps, none_left, ok_bind, refs,
    none_left, ok_bind, parsed, ok_bind, bindings, none_left, ok_bind, pure_ok]
  rfl

private theorem loose_lost (n : Nat) (wraps : UInt32.ofNat n = 0) :
    ∃ a t w, Emits a t w ∧ a.buf.length < 2 ^ 32 - 1 ∧ w.InRange ∧ w.Parses ∧
      w.edges.length = n ∧
        decodeExtractBuffers (emitOut a t NONE_STR 0 0) "a.ts" .typescript 0 =
          .ok ⟨[], [], [], [], none, 0⟩ := by
  refine ⟨_, _, _, loose_emits n, by decide, loose_inRange n, ⟨by simp [looseWritten], ?_⟩,
    List.length_replicate, loose_wraps n wraps⟩
  intro e member
  rw [List.eq_of_mem_replicate member]
  simp [loosePushed, IsJson]

private theorem empty_metadata_throws :
    ∃ a t w, Emits a t w ∧ a.buf.length < 2 ^ 32 - 1 ∧ w.InRange ∧ w.Counted ∧
      decodeExtractBuffers (emitOut a t NONE_STR 0 0) "a.ts" .typescript 0 =
        .error .syntaxError := by
  have run := (Emits.start.put (some "")).pushEdge (looseEdge ⟨0, 0⟩) (loosePushed (some ""))
    (loose_spelled (.inr (by simp [Arena.put_opt, Arena.put])))
  refine ⟨_, _, _, run, by decide, ⟨?_, ?_, by simp, by simp⟩,
    ⟨by simp, by simp, by simp, by simp⟩, ?_⟩
  · simp [loosePushed, Endpoint.InRange]
  · simp [loosePushed, Endpoint.InRange]
  · rw [decode_emitOut]
    rfl

/-- Without the conditions on the parsed texts and on the counts the round trip fails: an empty
metadata text makes decoding throw, and 2 ^ 32 edges are all dropped. -/
theorem decode_differs :
    (∃ a t w, Emits a t w ∧ a.buf.length < 2 ^ 32 - 1 ∧ w.InRange ∧ w.Counted ∧
      decodeExtractBuffers (emitOut a t NONE_STR 0 0) "a.ts" .typescript 0 =
        .error .syntaxError) ∧
    ∃ a t w, Emits a t w ∧ a.buf.length < 2 ^ 32 - 1 ∧ w.InRange ∧ w.Parses ∧
      w.edges.length = 2 ^ 32 ∧
        decodeExtractBuffers (emitOut a t NONE_STR 0 0) "a.ts" .typescript 0 =
          .ok ⟨[], [], [], [], none, 0⟩ :=
  ⟨empty_metadata_throws, loose_lost (2 ^ 32) (UInt32.toNat_inj.mp (by simp))⟩

end CodeGraph.Kernel
