import CodeGraph.Kernel.Pushed

/-! Each row is read back from its bytes, at the decoder's own offsets. -/
namespace CodeGraph.Kernel

open LittleEndian Text

/-! ### The arena -/

def Placed (buf : List UInt8) (r : StrRef) (s : String) : Prop :=
  ∃ pre, pre ++ utf8 s <+: buf ∧ r = ⟨UInt32.ofNat pre.length, UInt32.ofNat (utf8 s).length⟩

private theorem placed_put (a : Arena) (s : String) : Placed (a.put s).2.buf (a.put s).1 s :=
  ⟨a.buf, List.prefix_rfl, rfl⟩

private theorem placed_mono {buf later : List UInt8} {r : StrRef} {s : String}
    (grows : buf <+: later) (placed : Placed buf r s) : Placed later r s := by
  obtain ⟨pre, inside, eq⟩ := placed
  exact ⟨pre, inside.trans grows, eq⟩

private theorem put_opt_grows (a : Arena) (s : Option String) : a.buf <+: (a.put_opt s).2.buf := by
  cases s with
  | none => exact List.prefix_rfl
  | some s => exact List.prefix_append _ _

private theorem put_list_grows (a : Arena) (items : List String) :
    a.buf <+: (a.put_list items).2.buf := by
  unfold Arena.put_list
  split
  · exact List.prefix_rfl
  · exact List.prefix_append _ _

def Means (buf : List UInt8) (r : StrRef) : Option String → Prop
  | none => r = NONE_STR
  | some s => Placed buf r s

def joined (items : List String) : Option String :=
  if items.isEmpty then none else some (joinNul items)

private theorem means_mono {buf later : List UInt8} {r : StrRef} {s : Option String}
    (grows : buf <+: later) (means : Means buf r s) : Means later r s := by
  cases s with
  | none => exact means
  | some s => exact placed_mono grows means

private theorem means_put_opt (a : Arena) (s : Option String) :
    Means (a.put_opt s).2.buf (a.put_opt s).1 s := by
  cases s with
  | none => rfl
  | some s => exact placed_put a s

private theorem means_put_list (a : Arena) (items : List String) :
    Means (a.put_list items).2.buf (a.put_list items).1 (joined items) := by
  unfold Arena.put_list joined
  cases items with
  | nil => rfl
  | cons s items => exact placed_put a (joinNul (s :: items))

structure ArenaInv (a : Arena) (w : Written) : Prop where
  texts : ∀ p ∈ w.texts, Means a.buf p.1 p.2
  lists : ∀ p ∈ w.lists, Means a.buf p.1 (joined p.2) ∧ ∀ s ∈ p.2, '\x00' ∉ s.toList

theorem emits_arena {a : Arena} {t : Tables} {w : Written} (run : Emits a t w) :
    ArenaInv a w := by
  induction run with
  | start => exact ⟨by simp, by simp⟩
  | put s run ih =>
    refine ⟨?_, fun p member => ?_⟩
    · intro p member
      rcases List.mem_cons.mp member with rfl | old
      · exact means_put_opt _ s
      · exact means_mono (put_opt_grows _ s) (ih.texts p old)
    · exact ⟨means_mono (put_opt_grows _ s) (ih.lists p member).1, (ih.lists p member).2⟩
  | putList items clean run ih =>
    refine ⟨fun p member => means_mono (put_list_grows _ items) (ih.texts p member), ?_⟩
    intro p member
    rcases List.mem_cons.mp member with rfl | old
    · exact ⟨means_put_list _ items, clean⟩
    · exact ⟨means_mono (put_list_grows _ items) (ih.lists p old).1, (ih.lists p old).2⟩
  | pushNode _ _ _ _ ih => exact ⟨ih.texts, ih.lists⟩
  | pushEdge _ _ _ _ ih => exact ⟨ih.texts, ih.lists⟩
  | pushRef _ _ _ _ _ ih => exact ⟨ih.texts, ih.lists⟩
  | pushBinding _ _ _ _ ih => exact ⟨ih.texts, ih.lists⟩

private theorem means_text {a : Arena} {w : Written} (inv : ArenaInv a w) {r : StrRef}
    {s : Option String} (spelled : w.Text r s) : Means a.buf r s := by
  rcases spelled with ⟨rfl, rfl⟩ | member
  · rfl
  · exact inv.texts (r, s) member

private theorem means_items {a : Arena} {w : Written} (inv : ArenaInv a w) {r : StrRef}
    {items : List String} (spelled : w.Items r items) :
    Means a.buf r (joined items) ∧ ∀ s ∈ items, '\x00' ∉ s.toList := by
  rcases spelled with ⟨rfl, rfl⟩ | member
  · exact ⟨rfl, by simp⟩
  · exact inv.lists (r, items) member

private theorem arenaText_placed {buf : List UInt8} {r : StrRef} {s : String}
    (bound : buf.length < 2 ^ 32 - 1) (placed : Placed buf r s) :
    r.off ≠ NONE ∧ arenaText buf r.off r.len = s := by
  obtain ⟨pre, ⟨post, eq⟩, rfl⟩ := placed
  have total : pre.length + (utf8 s).length + post.length = buf.length := by
    rw [← eq, List.length_append, List.length_append]
  have off : (UInt32.ofNat pre.length).toNat = pre.length := by
    rw [UInt32.toNat_ofNat']; omega
  have len : (UInt32.ofNat (utf8 s).length).toNat = (utf8 s).length := by
    rw [UInt32.toNat_ofNat']; omega
  constructor
  · intro clash
    have sentinel : (UInt32.ofNat pre.length).toNat = 2 ^ 32 - 1 := congrArg UInt32.toNat clash
    omega
  · rw [arenaText, off, len, ← eq, List.append_assoc, List.drop_left, List.take_left,
      utf8Decode_utf8]

/-! ### Fields -/

theorem read8 {cells : List Cell} {off : Nat} {v : UInt8}
    (found : cellAt cells off = some (.byte v)) : readUInt8 (rowBytes cells) off = .ok v := by
  rw [readUInt8, readU8_cell found]
  rfl

private theorem read16 {cells : List Cell} {off : Nat} {v : UInt16}
    (found : cellAt cells off = some (.half v)) : readUInt16LE (rowBytes cells) off = .ok v := by
  rw [readUInt16LE, readU16_cell found]
  rfl

theorem read32 {cells : List Cell} {off : Nat} {v : UInt32}
    (found : cellAt cells off = some (.word v)) : readUInt32LE (rowBytes cells) off = .ok v := by
  rw [readUInt32LE, readU32_cell found]
  rfl

def Keeps (row : List UInt8) (off : Nat) (r : StrRef) : Prop :=
  readUInt32LE row off = .ok r.off ∧ readUInt32LE row (off + 4) = .ok r.len

theorem keeps {cells : List Cell} {off : Nat} {r : StrRef}
    (first : cellAt cells off = some (.word r.off))
    (second : cellAt cells (off + 4) = some (.word r.len)) : Keeps (rowBytes cells) off r :=
  ⟨read32 first, read32 second⟩

private theorem str_keeps {buf row : List UInt8} {off : Nat} {r : StrRef} {s : Option String}
    (bound : buf.length < 2 ^ 32 - 1) (kept : Keeps row off r) (means : Means buf r s) :
    str buf row off = .ok s := by
  unfold str
  rw [kept.1]
  cases s with
  | none =>
    subst means
    rfl
  | some s =>
    obtain ⟨present, text⟩ := arenaText_placed bound means
    simp only [bind, Except.bind, if_neg present, kept.2, text, pure, Except.pure]

private theorem strList_keeps {buf row : List UInt8} {off : Nat} {r : StrRef}
    {items : List String} (bound : buf.length < 2 ^ 32 - 1) (kept : Keeps row off r)
    (means : Means buf r (joined items) ∧ ∀ s ∈ items, '\x00' ∉ s.toList) :
    strList buf row off = .ok (listOf items) := by
  unfold strList
  rw [str_keeps bound kept means.1]
  cases items with
  | nil => rfl
  | cons s items =>
    have back := splitNul_joinNul (s :: items) (by simp) means.2
    simp only [bind, Except.bind, joined, listOf, List.isEmpty_cons, Bool.false_eq_true, if_false,
      Option.map_some, back, pure, Except.pure]

private theorem parseOpt_ok {text : Option String} (json : IsJson text) :
    parseOpt text = .ok (jsonOf text) := by
  cases text with
  | none => rfl
  | some s =>
    obtain ⟨v, parsed⟩ := Option.isSome_iff_exists.mp (json s rfl)
    simp only [parseOpt, parseJson, jsonOf, Option.bind_some, parsed, Option.elim_some, bind,
      Except.bind, pure, Except.pure]

private theorem flags_read (a b c d : Option Bool) :
    flag (flagsOf a b c d).bits FLAG.isExported = a ∧ flag (flagsOf a b c d).bits FLAG.isAsync = b ∧
      flag (flagsOf a b c d).bits FLAG.isStatic = c ∧
      flag (flagsOf a b c d).bits FLAG.isAbstract = d := by
  rcases a with _ | _ | _ <;> rcases b with _ | _ | _ <;> rcases c with _ | _ | _ <;>
    rcases d with _ | _ | _ <;> decide

private theorem node_kind_read (k : NodeKind) : NODE_KINDS[(node_kind_index k).toNat]? = some k := by
  cases k <;> rfl

private theorem edge_kind_read (k : EdgeKind) : EDGE_KINDS[(edge_kind_index k).toNat]? = some k := by
  cases k <;> rfl

private theorem visibility_read (v : Option Visibility) :
    VISIBILITIES[(visibilityCode v).toNat]?.join = v := by
  rcases v with _ | v
  · rfl
  · cases v <;> rfl

private theorem provenance_read (v : Option Provenance) :
    PROVENANCES[(provenanceCode v).toNat]?.join = v := by
  rcases v with _ | v
  · rfl
  · cases v <;> rfl

private theorem binding_kind_read (k : BindingKind) :
    BINDING_KINDS[(bindingCode k).toNat]? = some k := by
  cases k <;> rfl

private theorem export_form_read (v : Option ExportForm) :
    EXPORT_FORMS[(exportCode v).toNat]?.join = v := by
  rcases v with _ | v
  · rfl
  · cases v <;> rfl

/-- The code of `function_ref` is no edge kind's index. -/
private theorem reference_kind_read (k : ReferenceKind) :
    (if referenceCode k = FUNCTION_REF_CODE then some .functionRef
      else EDGE_KINDS[(referenceCode k).toNat]?.map .edge) = some k := by
  cases k with
  | functionRef => rfl
  | edge k => cases k <;> rfl

private theorem u32opt_present {row : List UInt8} {off : Nat} (v : Option Present)
    (kept : readUInt32LE row off = .ok (presentCode v)) :
    u32opt row off = .ok (v.map Subtype.val) := by
  unfold u32opt
  rw [kept]
  cases v with
  | none => rfl
  | some v =>
    have differs : v.val ≠ NONE := v.property
    exact congrArg Except.ok (if_neg differs)

/-! ### Rows -/

private def refCells (r : StrRef) : List Cell := [.word r.off, .word r.len]

private def nodeCells (r : NodeRow) : List Cell :=
  [.byte r.kind, .byte r.visibility, .half r.flags.bits, .word r.start_line, .word r.end_line,
    .word r.start_column, .word r.end_column] ++ refCells r.name ++ refCells r.qualified_name ++
    refCells r.id ++ refCells r.docstring ++ refCells r.signature ++ refCells r.decorators ++
    refCells r.type_parameters ++ refCells r.return_type ++ refCells r.extra_json ++ [.word 0]

private theorem rowBytes_nodeCells (r : NodeRow) : rowBytes (nodeCells r) = nodeBytes r := by
  simp only [rowBytes, nodeCells, nodeBytes, refCells, push_str_ref, Cell.bytes, List.flatMap_cons,
    List.flatMap_nil, List.append_assoc, List.cons_append, List.nil_append, List.append_nil]

private def edgeCells (r : EdgeRow) : List Cell :=
  [.word r.source_idx, .word r.target_idx, .byte r.kind, .byte r.provenance, .half 0,
    .word r.line, .word r.column] ++ refCells r.metadata_json ++ refCells r.source_id_str ++
    refCells r.target_id_str

private theorem rowBytes_edgeCells (r : EdgeRow) : rowBytes (edgeCells r) = edgeBytes r := by
  simp only [rowBytes, edgeCells, edgeBytes, refCells, push_str_ref, Cell.bytes, List.flatMap_cons,
    List.flatMap_nil, List.append_assoc, List.cons_append, List.nil_append, List.append_nil]

private def refRowCells (r : RefRow) (flags : UInt8) : List Cell :=
  [.word r.from_idx, .byte r.kind, .byte flags, .byte 0, .byte 0, .word r.line, .word r.column] ++
    refCells r.reference_name ++ refCells r.candidates ++ refCells r.from_id_str

private theorem rowBytes_refRowCells (r : RefRow) (flags : UInt8) :
    rowBytes (refRowCells r flags) = refBytes r flags := by
  simp only [rowBytes, refRowCells, refBytes, refCells, push_str_ref, Cell.bytes,
    List.flatMap_cons, List.flatMap_nil, List.append_assoc, List.cons_append, List.nil_append,
    List.append_nil]

private def bindingCells (r : BindingRow) : List Cell :=
  [.byte r.kind, .byte r.export_form, .half 0, .word r.node_idx, .word r.scope_start,
    .word r.scope_end] ++ refCells r.name ++ refCells r.target_spec ++ refCells r.target_name ++
    refCells r.exported_as ++ refCells r.storage ++ [.word r.line, .word 0]

private theorem rowBytes_bindingCells (r : BindingRow) :
    rowBytes (bindingCells r) = bindingBytes r := by
  simp only [rowBytes, bindingCells, bindingBytes, refCells, push_str_ref, Cell.bytes,
    List.flatMap_cons, List.flatMap_nil, List.append_assoc, List.cons_append, List.nil_append,
    List.append_nil]

@[simp] private theorem length_push_str_ref (r : StrRef) : (push_str_ref r).length = 8 := rfl

theorem length_nodeBytes (r : NodeRow) : (nodeBytes r).length = NODE_ROW_SIZE := by
  simp [nodeBytes, NODE_ROW_SIZE]

theorem length_edgeBytes (r : EdgeRow) : (edgeBytes r).length = EDGE_ROW_SIZE := by
  simp [edgeBytes, EDGE_ROW_SIZE]

theorem length_refBytes (r : RefRow × UInt8) :
    (refBytes r.1 r.2).length = REF_ROW_SIZE := by
  simp [refBytes, REF_ROW_SIZE]

theorem length_bindingBytes (r : BindingRow) :
    (bindingBytes r).length = BINDING_ROW_SIZE := by
  simp [bindingBytes, BINDING_ROW_SIZE]

private structure NodeFields (row : List UInt8) (r : NodeRow) : Prop where
  kind : readUInt8 row NODE.kind = .ok r.kind
  visibility : readUInt8 row NODE.visibility = .ok r.visibility
  flags : readUInt16LE row NODE.flags = .ok r.flags.bits
  startLine : readUInt32LE row NODE.startLine = .ok r.start_line
  endLine : readUInt32LE row NODE.endLine = .ok r.end_line
  startColumn : readUInt32LE row NODE.startColumn = .ok r.start_column
  endColumn : readUInt32LE row NODE.endColumn = .ok r.end_column
  name : Keeps row NODE.name r.name
  qualifiedName : Keeps row NODE.qualifiedName r.qualified_name
  id : Keeps row NODE.id r.id
  docstring : Keeps row NODE.docstring r.docstring
  signature : Keeps row NODE.signature r.signature
  decorators : Keeps row NODE.decorators r.decorators
  typeParameters : Keeps row NODE.typeParameters r.type_parameters
  returnType : Keeps row NODE.returnType r.return_type
  extraJson : Keeps row NODE.extraJson r.extra_json

private theorem node_fields (r : NodeRow) : NodeFields (nodeBytes r) r := by
  rw [← rowBytes_nodeCells]
  refine ⟨read8 ?_, read8 ?_, read16 ?_, read32 ?_, read32 ?_, read32 ?_, read32 ?_, keeps ?_ ?_,
    keeps ?_ ?_, keeps ?_ ?_, keeps ?_ ?_, keeps ?_ ?_, keeps ?_ ?_, keeps ?_ ?_, keeps ?_ ?_,
    keeps ?_ ?_⟩
  all_goals simp [nodeCells, refCells, NODE.kind, NODE.visibility, NODE.flags,
    NODE.startLine, NODE.endLine, NODE.startColumn, NODE.endColumn, NODE.name, NODE.qualifiedName,
    NODE.id, NODE.docstring, NODE.signature, NODE.decorators, NODE.typeParameters,
    NODE.returnType, NODE.extraJson]

private structure EdgeFields (row : List UInt8) (r : EdgeRow) : Prop where
  sourceIdx : readUInt32LE row EDGE.sourceIdx = .ok r.source_idx
  targetIdx : readUInt32LE row EDGE.targetIdx = .ok r.target_idx
  kind : readUInt8 row EDGE.kind = .ok r.kind
  provenance : readUInt8 row EDGE.provenance = .ok r.provenance
  line : readUInt32LE row EDGE.line = .ok r.line
  column : readUInt32LE row EDGE.column = .ok r.column
  metadataJson : Keeps row EDGE.metadataJson r.metadata_json
  sourceIdStr : Keeps row EDGE.sourceIdStr r.source_id_str
  targetIdStr : Keeps row EDGE.targetIdStr r.target_id_str

private theorem edge_fields (r : EdgeRow) : EdgeFields (edgeBytes r) r := by
  rw [← rowBytes_edgeCells]
  refine ⟨read32 ?_, read32 ?_, read8 ?_, read8 ?_, read32 ?_, read32 ?_, keeps ?_ ?_, keeps ?_
    ?_, keeps ?_ ?_⟩
  all_goals simp [edgeCells, refCells, EDGE.sourceIdx, EDGE.targetIdx,
    EDGE.kind, EDGE.provenance, EDGE.line, EDGE.column, EDGE.metadataJson, EDGE.sourceIdStr,
    EDGE.targetIdStr]

private structure RefFields (row : List UInt8) (r : RefRow) (flags : UInt8) : Prop where
  fromIdx : readUInt32LE row REF.fromIdx = .ok r.from_idx
  kind : readUInt8 row REF.kind = .ok r.kind
  flags : readUInt8 row REF.flags = .ok flags
  line : readUInt32LE row REF.line = .ok r.line
  column : readUInt32LE row REF.column = .ok r.column
  referenceName : Keeps row REF.referenceName r.reference_name
  candidates : Keeps row REF.candidates r.candidates
  fromIdStr : Keeps row REF.fromIdStr r.from_id_str

private theorem ref_fields (r : RefRow) (flags : UInt8) : RefFields (refBytes r flags) r flags := by
  rw [← rowBytes_refRowCells]
  refine ⟨read32 ?_, read8 ?_, read8 ?_, read32 ?_, read32 ?_, keeps ?_ ?_, keeps ?_ ?_, keeps ?_
    ?_⟩
  all_goals simp [refRowCells, refCells, REF.fromIdx, REF.kind, REF.flags,
    REF.line, REF.column, REF.referenceName, REF.candidates, REF.fromIdStr]

private structure BindingFields (row : List UInt8) (r : BindingRow) : Prop where
  kind : readUInt8 row BINDING.kind = .ok r.kind
  exportForm : readUInt8 row BINDING.exportForm = .ok r.export_form
  nodeIdx : readUInt32LE row BINDING.nodeIdx = .ok r.node_idx
  scopeStart : readUInt32LE row BINDING.scopeStart = .ok r.scope_start
  scopeEnd : readUInt32LE row BINDING.scopeEnd = .ok r.scope_end
  name : Keeps row BINDING.name r.name
  targetSpec : Keeps row BINDING.targetSpec r.target_spec
  targetName : Keeps row BINDING.targetName r.target_name
  exportedAs : Keeps row BINDING.exportedAs r.exported_as
  storage : Keeps row BINDING.storage r.storage
  line : readUInt32LE row BINDING.line = .ok r.line

private theorem binding_fields (r : BindingRow) : BindingFields (bindingBytes r) r := by
  rw [← rowBytes_bindingCells]
  refine ⟨read8 ?_, read8 ?_, read32 ?_, read32 ?_, read32 ?_, keeps ?_ ?_, keeps ?_ ?_, keeps ?_
    ?_, keeps ?_ ?_, keeps ?_ ?_, read32 ?_⟩
  all_goals simp [bindingCells, refCells, BINDING.kind, BINDING.exportForm,
    BINDING.nodeIdx, BINDING.scopeStart, BINDING.scopeEnd, BINDING.name, BINDING.targetSpec,
    BINDING.targetName, BINDING.exportedAs, BINDING.storage, BINDING.line]

private theorem row_code {i count : Nat} (within : i < count) (few : count < 2 ^ 32) :
    (UInt32.ofNat i).toNat = i ∧ UInt32.ofNat i ≠ NONE := by
  have value : (UInt32.ofNat i).toNat = i := by rw [UInt32.toNat_ofNat']; omega
  refine ⟨value, fun clash => ?_⟩
  have sentinel : (UInt32.ofNat i).toNat = 2 ^ 32 - 1 := congrArg UInt32.toNat clash
  omega

theorem ok_bind {α β : Type} (x : α) (f : α → Decoder β) :
    ((Except.ok x : Decoder α) >>= f) = f x := rfl

theorem pure_ok {α : Type} (x : α) : (pure x : Decoder α) = .ok x := rfl

private theorem decodeErrors_eq (arena block : List UInt8) :
    decodeErrors arena block = str arena block META.errorsOff >>= parseOpt := by
  unfold decodeErrors str
  cases readUInt32LE block META.errorsOff with
  | error e => rfl
  | ok start =>
    simp only [ok_bind]
    split
    · rfl
    · change readUInt32LE block (META.errorsOff + 4) >>= _ = _
      cases readUInt32LE block (META.errorsOff + 4) with
      | error e => rfl
      | ok len => rfl

section Decoding

variable {a : Arena} {w : Written} (inv : ArenaInv a w) (bound : a.buf.length < 2 ^ 32 - 1)

include inv bound

private theorem text_read {row : List UInt8} {off : Nat} {r : StrRef} {s : Option String}
    (kept : Keeps row off r) (spelled : w.Text r s) : str a.buf row off = .ok s :=
  str_keeps bound kept (means_text inv spelled)

private theorem items_read {row : List UInt8} {off : Nat} {r : StrRef} {items : List String}
    (kept : Keeps row off r) (spelled : w.Items r items) :
    strList a.buf row off = .ok (listOf items) :=
  strList_keeps bound kept (means_items inv spelled)

theorem decodeNode_row (filePath : String) (language : Language) (now : Nat)
    {r : NodeRow} {n : PushedNode} (spelled : SpellsNode w r n) (json : IsJson n.extraJson) :
    decodeNode a.buf filePath language now (nodeBytes r) =
      .ok (n.decoded filePath language now) := by
  have fields := node_fields r
  obtain ⟨exported, async, static, abstract⟩ :=
    flags_read n.isExported n.isAsync n.isStatic n.isAbstract
  simp only [decodeNode, fields.kind, fields.visibility, fields.flags, fields.startLine,
    fields.endLine, fields.startColumn, fields.endColumn,
    text_read inv bound fields.id spelled.id, text_read inv bound fields.name spelled.name,
    text_read inv bound fields.qualifiedName spelled.qualifiedName,
    text_read inv bound fields.docstring spelled.docstring,
    text_read inv bound fields.signature spelled.signature,
    items_read inv bound fields.decorators spelled.decorators,
    items_read inv bound fields.typeParameters spelled.typeParameters,
    text_read inv bound fields.returnType spelled.returnType,
    text_read inv bound fields.extraJson spelled.extraJson, parseOpt_ok json, ok_bind, pure_ok]
  simp only [PushedNode.decoded, spelled.kind, spelled.visibility, spelled.flags,
    spelled.startLine, spelled.endLine, spelled.startColumn, spelled.endColumn, node_kind_read,
    visibility_read, exported, async, static, abstract]

private theorem endpoint_read {nodes : List PushedNode} (few : nodes.length < 2 ^ 32)
    {row : List UInt8} {idxAt strAt : Nat} {idx : UInt32} {r : StrRef} {e : Endpoint}
    (index : readUInt32LE row idxAt = .ok idx) (kept : Keeps row strAt r)
    (spelled : SpellsEndpoint w idx r e) (within : e.InRange nodes.length) :
    endpointId a.buf (nodes.map PushedNode.id) row idxAt strAt = .ok (e.idIn nodes) := by
  rw [endpointId, index, ok_bind]
  cases e with
  | row i =>
    obtain ⟨value, present⟩ := row_code within few
    rw [spelled, if_neg present, value, pure_ok, List.getElem?_map, Endpoint.idIn]
    cases nodes[i]? <;> rfl
  | named id =>
    rw [spelled.1, if_pos rfl]
    exact text_read inv bound kept spelled.2

theorem decodeEdge_row {nodes : List PushedNode} (few : nodes.length < 2 ^ 32)
    {r : EdgeRow} {e : PushedEdge} (spelled : SpellsEdge w r e)
    (source : e.source.InRange nodes.length) (target : e.target.InRange nodes.length)
    (json : IsJson e.metadataJson) :
    decodeEdge a.buf (nodes.map PushedNode.id) (edgeBytes r) = .ok (e.decoded nodes) := by
  have fields := edge_fields r
  have line := u32opt_present e.line (by rw [fields.line, spelled.line])
  have column := u32opt_present e.column (by rw [fields.column, spelled.column])
  simp only [decodeEdge, fields.kind, fields.provenance, line, column,
    endpoint_read inv bound few fields.sourceIdx fields.sourceIdStr spelled.source source,
    endpoint_read inv bound few fields.targetIdx fields.targetIdStr spelled.target target,
    text_read inv bound fields.metadataJson spelled.metadataJson, parseOpt_ok json, ok_bind,
    pure_ok]
  simp only [PushedEdge.decoded, spelled.kind, spelled.provenance, edge_kind_read,
    provenance_read]

theorem decodeRef_row {nodes : List PushedNode} (few : nodes.length < 2 ^ 32)
    (filePath : String) (language : Language) {r : RefRow} {flags : UInt8} {f : PushedRef}
    (spelled : SpellsRef w r flags f) (owner : f.owner.InRange nodes.length) :
    decodeRef a.buf (nodes.map PushedNode.id) filePath language (refBytes r flags) =
      .ok (f.decoded nodes filePath language) := by
  have fields := ref_fields r flags
  simp only [decodeRef, fields.kind, fields.line, fields.column, fields.flags,
    endpoint_read inv bound few fields.fromIdx fields.fromIdStr spelled.owner owner,
    text_read inv bound fields.referenceName spelled.referenceName,
    items_read inv bound fields.candidates spelled.candidates, ok_bind, pure_ok]
  simp only [PushedRef.decoded, spelled.kind, spelled.line, spelled.column, reference_kind_read,
    spelled.filePath, spelled.language]

omit inv bound in
private theorem row_read {nodes : List PushedNode} (few : nodes.length < 2 ^ 32)
    {row : List UInt8} {off : Nat} {node : Option Nat}
    (kept : readUInt32LE row off = .ok (node.elim NONE UInt32.ofNat))
    (within : ∀ i, node = some i → i < nodes.length) :
    u32opt row off = .ok (node.map UInt32.ofNat) ∧
      (node.map UInt32.ofNat).bind (fun idx => (nodes.map PushedNode.id)[idx.toNat]?.join) =
        node.bind fun i => nodes[i]?.bind PushedNode.id := by
  rw [u32opt, kept, ok_bind]
  cases node with
  | none => exact ⟨rfl, rfl⟩
  | some i =>
    obtain ⟨value, present⟩ := row_code (within i rfl) few
    refine ⟨congrArg Except.ok (if_neg present), ?_⟩
    simp only [Option.map_some, Option.bind_some, value, List.getElem?_map]
    cases nodes[i]? <;> rfl

theorem decodeBinding_row {nodes : List PushedNode} (few : nodes.length < 2 ^ 32)
    (filePath : String) {r : BindingRow} {b : PushedBinding} (spelled : SpellsBinding w r b)
    (within : ∀ i, b.node = some i → i < nodes.length) :
    decodeBinding a.buf (nodes.map PushedNode.id) filePath (bindingBytes r) =
      .ok (b.decoded nodes filePath) := by
  have fields := binding_fields r
  obtain ⟨index, node⟩ := row_read few (fields.nodeIdx.trans (congrArg _ spelled.node)) within
  simp only [decodeBinding, fields.kind, fields.exportForm, index, fields.scopeStart,
    fields.scopeEnd, fields.line, text_read inv bound fields.name spelled.name,
    text_read inv bound fields.targetSpec spelled.targetSpec,
    text_read inv bound fields.targetName spelled.targetName,
    text_read inv bound fields.exportedAs spelled.exportedAs,
    text_read inv bound fields.storage spelled.storage, ok_bind, pure_ok]
  simp only [PushedBinding.decoded, node, spelled.kind, spelled.exportForm, spelled.scopeStart,
    spelled.scopeEnd, spelled.line, binding_kind_read, export_form_read]

theorem decodeErrors_read {block : List UInt8} {r : StrRef} {errors : Option String}
    (kept : Keeps block META.errorsOff r) (spelled : w.Text r errors) (json : IsJson errors) :
    decodeErrors a.buf block = .ok (jsonOf errors) := by
  rw [decodeErrors_eq, text_read inv bound kept spelled, ok_bind, parseOpt_ok json]

end Decoding

end CodeGraph.Kernel
