import CodeGraph.Graph.SymbolScopes

/-!
# Narrowing a name

What a qualified query is accepted for, and what is left of it when its first qualifiers are dropped.
-/
namespace CodeGraph.Graph.SymbolLookup

open Text Tails Lines

variable {node : Node} {qs dropped left front : Qualifiers} {arity near : JsString} {s : Separator}

/-! ### Scopes of a node -/

theorem mem_joinColons {u : UInt16} {text : JsString} (listed : u ∈ joinColons text) :
    u ∈ text ∨ u = dot := by
  induction text using joinColons.induct with
  | case1 => cases listed
  | case2 w => exact Or.inl listed
  | case3 w x rest double ih =>
    rw [joinColons, if_pos double, List.mem_cons] at listed
    rcases listed with is | later
    · exact Or.inr is
    · exact (ih later).imp_left fun member => by simp [member]
  | case4 w x rest single ih =>
    rw [joinColons, if_neg single, List.mem_cons] at listed
    rcases listed with rfl | later
    · exact Or.inl List.mem_cons_self
    · exact (ih later).imp_left fun member => List.mem_cons_of_mem w member

theorem mem_canonicalScope {u : UInt16} {text : JsString} (listed : u ∈ canonicalScope text) :
    u ≠ slash ∧ u ≠ backslash ∧ (u ∈ text ∨ u = dot) := by
  obtain ⟨v, member, rfl⟩ := List.mem_map.mp listed
  by_cases mark : v = slash ∨ v = backslash
  · rw [if_pos mark]
    exact ⟨by decide, by decide, Or.inr rfl⟩
  · rw [if_neg mark]
    exact ⟨fun is => mark (Or.inl is), fun is => mark (Or.inr is), mem_joinColons member⟩

theorem canonicalScope_plain {p : JsString} (plain : isQualifiedSymbol p = false)
    (other : backslash ∉ p) : canonicalScope p = p := by
  have same : ∀ u ∈ p, (if u = slash ∨ u = backslash then dot else u) = id u := by
    intro u listed
    rw [if_neg]
    · rfl
    · rintro (rfl | rfl)
      · exact (not_mem_of_plain plain).2 listed
      · exact other listed
  rw [canonicalScope, joinColons_plain plain, List.map_congr_left same, List.map_id]

theorem Regular.split (regular : Regular node) :
    (canonicalNode node).splitOn dot = scopeOf node ++ [node.name] :=
  (List.dropLast_append_getLast? node.name (Option.mem_def.mpr regular.ends)).symm

theorem mem_split_of_mem_scope {q : JsString} (listed : q ∈ scopeOf node) :
    q ∈ (canonicalNode node).splitOn dot := List.mem_of_mem_dropLast listed

theorem Regular.name_mem (regular : Regular node) : node.name ∈ (canonicalNode node).splitOn dot := by
  rw [regular.split]
  exact List.mem_append_right _ (List.mem_singleton.mpr rfl)

theorem splitOn_part {q : JsString} (listed : q ∈ (canonicalNode node).splitOn dot)
    (plain : isQualifiedSymbol q = false) : (canonicalScope q).splitOn dot = [q] := by
  have other : backslash ∉ q := fun member =>
    (mem_canonicalScope (subset_of_mem_splitOn listed member)).2.1 rfl
  rw [canonicalScope_plain plain other, List.splitOn_eq_singleton (not_mem_of_plain plain).1]

theorem line_of_part (regular : Regular node) (has : (arity? node.qualifiedName).isSome)
    {q : JsString} (listed : q ∈ (canonicalNode node).splitOn dot) :
    ∀ u ∈ q, isLineTerminator u = false := by
  intro u member
  rcases (mem_canonicalScope (subset_of_mem_splitOn listed member)).2.2 with within | rfl
  · refine regular.line has u ?_
    rw [withoutArity] at within
    cases found : arity? node.qualifiedName with
    | none => rwa [found] at within
    | some parts =>
      obtain ⟨before, digits⟩ := parts
      rw [found] at within
      rw [(arity?_eq_some found).1]
      exact List.mem_append_left _ within
  · decide

/-- A query names a node by its scopes just where its qualifiers spell the last of these. -/
theorem endsOnBoundary_write (regular : Regular node) (spelled : Spelled qs) :
    endsOnBoundary node (write qs node.name) = true ↔ pieces qs <:+ scopeOf node := by
  have suffix : (canonicalScope (write qs node.name)).splitOn dot <:+
      (canonicalNode node).splitOn dot ↔ canonicalScope (write qs node.name) = canonicalNode node ∨
        dot :: canonicalScope (write qs node.name) <:+ canonicalNode node := splitOn_suffix_iff
  rw [splitOn_canonicalScope_write spelled, splitOn_part regular.name_mem regular.plain,
    regular.split, List.suffix_append_self_iff] at suffix
  rw [endsOnBoundary, Bool.or_eq_true, beq_iff_eq, List.isSuffixOf_iff_suffix, suffix,
    eq_comm (a := canonicalNode node)]

theorem pieces_append (dropped left : Qualifiers) :
    pieces (dropped ++ left) = pieces dropped ++ pieces left := by
  simp [pieces, Qualifiers.names]

theorem pieces_scopes (spelled : Spelled qs) (within : qs.names <:+ scopeOf node) :
    pieces qs = qs.names := by
  rw [pieces]
  have each : ∀ q ∈ qs.names, (canonicalScope q).splitOn dot = [q] := by
    intro q listed
    obtain ⟨⟨q, s⟩, member, rfl⟩ := List.mem_map.mp listed
    exact splitOn_part (mem_split_of_mem_scope (within.subset listed)) (spelled q s member).1
  rw [List.flatMap_congr each]
  simp

theorem matchesSymbol_write (regular : Regular node) (some_ : qs ≠ []) (of : ArityOf node arity)
    (line : arity ≠ [] → ∀ u ∈ write qs node.name, isLineTerminator u = false) :
    matchesSymbol node (write qs node.name ++ arity) none =
      matchesQualified node (write qs node.name) none := by
  have qualified := isQualifiedSymbol_write some_ node.name
  have other : node.name ≠ write qs node.name := by
    intro same
    rw [← same, regular.plain] at qualified
    cases qualified
  have extension := withoutExtension_plain regular.plain
  rw [matchesSymbol, comparedSymbol_write regular of line]
  simp [other, extension, qualified]

theorem matchesSymbol_name (regular : Regular node) (of : ArityOf node arity)
    (line : arity ≠ [] → ∀ u ∈ node.name, isLineTerminator u = false) :
    matchesSymbol node (node.name ++ arity) none = true := by
  have compared := @comparedSymbol_write [] node regular arity of line
  rw [write] at compared
  rw [matchesSymbol, compared]
  exact if_pos rfl

theorem line_of_accepted (regular : Regular node) (of : ArityOf node arity) (some_ : arity ≠ [])
    (spelled : Spelled qs) (accepted : matchesSymbol node (write qs node.name ++ arity) none = true) :
    ∀ u ∈ write qs node.name, isLineTerminator u = false := by
  rcases of with rfl | ⟨before, digits, found, rfl⟩
  · exact absurd rfl some_
  have number := (arity?_eq_some found).2
  by_contra broken
  have clean : (write qs node.name).any isLineTerminator = true := by
    rw [List.any_eq_true]
    by_contra none_
    exact broken fun u listed => Bool.eq_false_iff.mpr fun is => none_ ⟨u, listed, is⟩
  -- The text is then compared as it is, and its last part is the number.
  have whole : write qs node.name ++ slash :: digits =
      write (qs ++ [(node.name, .slash)]) digits := by
    clear accepted broken clean spelled
    induction qs with
    | nil => rfl
    | cons first qs ih =>
      obtain ⟨q, s⟩ := first
      rw [List.cons_append, write, write, ← ih, List.append_assoc, List.append_assoc]
  have spelled' : Spelled (qs ++ [(node.name, .slash)]) := by
    intro q s listed
    rcases mem_snoc.mp listed with earlier | last
    · exact spelled q s earlier
    · cases last
      exact ⟨regular.plain, fun none_ => by cases none_⟩
  have compared : comparedSymbol node (write qs node.name ++ slash :: digits) =
      some (write qs node.name ++ slash :: digits) := by
    rw [comparedSymbol, aritySpelling?, arity?_append number, Option.filter_some, clean]
    simp
  have other : node.name ≠ write qs node.name ++ slash :: digits := by
    intro same
    have listed : slash ∈ node.name := by
      rw [same]
      simp
    exact (not_mem_of_plain regular.plain).2 listed
  have apart : (qualifierParts (write qs node.name ++ slash :: digits)).getLast? ≠ some node.name := by
    have digits_ : digits ≠ [] := List.ne_nil_of_length_pos number.1
    rw [whole, qualifierParts, splitScopes_write spelled' (plain_of_number number), List.filter_append,
      List.filter_cons_of_pos (by simpa using digits_), List.filter_nil, List.getLast?_concat]
    intro same
    cases Option.some.inj same
    exact regular.word (Option.isSome_iff_exists.mpr ⟨_, found⟩) number
  rw [matchesSymbol, compared] at accepted
  simp [other, withoutExtension_plain regular.plain, matchesQualified, apart] at accepted

theorem accepted_iff (regular : Regular node) (some_ : qs ≠ []) (spelled : Spelled qs)
    (full : [] ∉ qs.names) (of : ArityOf node arity) :
    matchesSymbol node (write qs node.name ++ arity) none = true ↔
      Accepts node qs ∧ (arity ≠ [] → ∀ u ∈ write qs node.name, isLineTerminator u = false) := by
  constructor
  · intro accepted
    have line := fun some_ => line_of_accepted regular of some_ spelled accepted
    rw [matchesSymbol_write regular some_ of line] at accepted
    exact ⟨(matchesQualified_write regular some_ spelled full).mp accepted, line⟩
  · rintro ⟨accepts, line⟩
    rw [matchesSymbol_write regular some_ of line]
    exact (matchesQualified_write regular some_ spelled full).mpr accepts

theorem names_append (dropped left : Qualifiers) :
    (dropped ++ left).names = dropped.names ++ left.names := List.map_append

theorem hints_append (dropped left : Qualifiers) :
    (dropped ++ left).hints = dropped.hints ++ left.hints := by
  rw [Qualifiers.hints, names_append, List.filter_append]
  rfl

theorem suffix_write (dropped left : Qualifiers) (name : JsString) :
    write left name <:+ write (dropped ++ left) name := by
  induction dropped with
  | nil => exact List.suffix_refl _
  | cons first dropped ih =>
    obtain ⟨q, s⟩ := first
    exact (ih.trans (List.suffix_append _ _)).trans (List.suffix_append _ _)

/-- What is left of an accepted query is accepted, where the qualifiers that name nothing are no
part of it or all that is dropped. -/
theorem Accepts.drop (regular : Regular node) (spelled : Spelled (dropped ++ left)) (some_ : left ≠ [])
    (apart : (∀ q ∈ dropped.names, q ∈ RUST_PATH_PREFIXES) ∨ ∀ q ∈ left.names, q ∉ RUST_PATH_PREFIXES)
    (accepts : Accepts node (dropped ++ left)) : Accepts node left := by
  have spelled' : Spelled left := spelled.append_right
  have named {inner : List JsString} (whole : left.hints = left.names) (within : left.hints <:+ inner)
      (ends : inner <:+ scopeOf node) : Accepts node left := by
    rw [whole] at within
    have scopes := within.trans ends
    exact .named ((endsOnBoundary_write regular spelled').mpr (by rwa [pieces_scopes spelled' scopes]))
  rcases apart with none_ | plain
  · have hints : (dropped ++ left).hints = left.hints := by
      rw [hints_append, Qualifiers.hints, List.filter_eq_nil_iff.mpr (by simpa using none_),
        List.nil_append]
    cases accepts with
    | named ends =>
      rw [endsOnBoundary_write regular spelled, pieces_append] at ends
      exact .named ((endsOnBoundary_write regular spelled').mpr ((List.suffix_append _ _).trans ends))
    | path some_ can located =>
      rw [hints] at some_ can located
      exact .path some_ can located
    | packaged package inner cut some_ deep within located =>
      rw [hints] at cut
      exact .packaged package inner cut some_ deep within located
  · have whole : left.hints = left.names := List.filter_eq_self.mpr fun q listed => by
      simpa using plain q listed
    have full : left.hints ≠ [] := by
      rw [whole, Qualifiers.names, ne_eq, List.map_eq_nil_iff]
      exact some_
    cases accepts with
    | named ends =>
      rw [endsOnBoundary_write regular spelled, pieces_append] at ends
      exact .named ((endsOnBoundary_write regular spelled').mpr ((List.suffix_append _ _).trans ends))
    | path _ can located =>
      rw [hints_append] at can located
      rw [pathCanName, List.getLast?_append_of_ne_nil _ full] at can
      exact .path full can fun hint listed => located hint (List.mem_append_right _ listed)
    | packaged package inner cut first deep within located =>
      rw [hints_append] at cut
      rcases List.append_eq_append_iff.mp cut with ⟨more, rfl, right⟩ | ⟨more, -, right⟩
      · cases more with
        | nil => exact named whole (by rw [right, List.nil_append]) within
        | cons hint more =>
          refine .packaged (hint :: more) inner right (List.cons_ne_nil _ _) deep within ?_
          exact fun h listed => located h (List.mem_append_right _ listed)
      · exact named whole (by rw [right]; exact List.suffix_append _ _) within

theorem drop_accepted (regular : Regular node) (spelled : Spelled (dropped ++ left))
    (full : [] ∉ (dropped ++ left).names) (of : ArityOf node arity)
    (accepted : matchesSymbol node (write (dropped ++ left) node.name ++ arity) none = true)
    (apart : (∀ q ∈ dropped.names, q ∈ RUST_PATH_PREFIXES) ∨
      ∀ q ∈ left.names, q ∉ RUST_PATH_PREFIXES) :
    matchesSymbol node (write left node.name ++ arity) none = true := by
  by_cases bare : dropped ++ left = []
  · obtain ⟨rfl, rfl⟩ := List.append_eq_nil_iff.mp bare
    exact accepted
  obtain ⟨accepts, line⟩ := (accepted_iff regular bare spelled full of).mp accepted
  have line' : arity ≠ [] → ∀ u ∈ write left node.name, isLineTerminator u = false :=
    fun some_ u listed => line some_ u ((suffix_write dropped left node.name).subset listed)
  by_cases some_ : left = []
  · subst some_
    exact matchesSymbol_name regular of line'
  · rw [names_append, List.mem_append, not_or] at full
    exact (accepted_iff regular some_ spelled.append_right full.2 of).mpr
      ⟨accepts.drop regular spelled some_ apart, line'⟩

theorem mem_write {u : UInt16} {name : JsString} (listed : u ∈ write qs name) :
    (∃ q ∈ qs.names, u ∈ q) ∨ u ∈ name ∨ u = dot ∨ u = slash ∨ u = colon := by
  induction qs with
  | nil => exact Or.inr (Or.inl listed)
  | cons first qs ih =>
    obtain ⟨q, s⟩ := first
    rw [write, List.mem_append, List.mem_append] at listed
    rcases listed with qualifier | separator | later
    · exact Or.inl ⟨q, List.mem_cons_self, qualifier⟩
    · right; right
      cases s with
      | colons => exact Or.inr (Or.inr (by simpa [Separator.text] using separator))
      | dot => exact Or.inl (List.mem_singleton.mp separator)
      | slash => exact Or.inr (Or.inl (List.mem_singleton.mp separator))
    · refine (ih later).imp_left ?_
      rintro ⟨q', member, inside⟩
      exact ⟨q', List.mem_cons_of_mem _ member, inside⟩

theorem own_spelling (regular : Regular node) (spelled : Spelled qs)
    (within : qs.names <:+ scopeOf node) (some_ : ∃ q ∈ qs.names, q ≠ []) (of : ArityOf node arity) :
    matchesSymbol node (write qs node.name ++ arity) none = true := by
  obtain ⟨q, member, full⟩ := some_
  have some_ : qs ≠ [] := by
    rintro rfl
    cases member
  have line : arity ≠ [] → ∀ u ∈ write qs node.name, isLineTerminator u = false := by
    intro has u listed
    rcases of with none_ | ⟨before, digits, found, -⟩
    · exact absurd none_ has
    have numbered := Option.isSome_iff_exists.mpr ⟨_, found⟩
    rcases mem_write listed with ⟨q, member, inside⟩ | inside | rfl | rfl | rfl
    · exact line_of_part regular numbered (mem_split_of_mem_scope (within.subset member)) u inside
    · exact line_of_part regular numbered regular.name_mem u inside
    all_goals decide
  have ends : endsOnBoundary node (write qs node.name) = true := by
    rwa [endsOnBoundary_write regular spelled, pieces_scopes spelled within]
  have parts : qualifierParts (write qs node.name) = qs.names.filter (· ≠ []) ++ [node.name] := by
    rw [qualifierParts, splitScopes_write spelled regular.plain, List.filter_append,
      List.filter_cons_of_pos (by simpa using regular.named), List.filter_nil]
  have long : ¬((qs.names.filter (· ≠ []) ++ [node.name]).length < 2 ∨
      (qs.names.filter (· ≠ []) ++ [node.name]).getLast? ≠ some node.name) := by
    have least : 0 < (qs.names.filter (· ≠ [])).length :=
      List.length_pos_of_mem (List.mem_filter.mpr ⟨member, by simpa using full⟩)
    rw [not_or, List.getLast?_concat, List.length_append]
    exact ⟨by simp only [List.length_cons, List.length_nil]; omega, not_not.mpr rfl⟩
  rw [matchesSymbol_write regular some_ of line, matchesQualified]
  simp only [parts, if_neg long, ends, if_true]

/-- The qualifier nearest the name of a member is its type, or names nothing, and then the nearest
one that names something is. -/
theorem member_qualifier (regular : Regular node) (spelled : Spelled (front ++ [(near, s)]))
    (full : [] ∉ (front ++ [(near, s)]).names) (of : ArityOf node arity)
    (member : node.kind ∈ TYPE_MEMBER_KINDS) (language : node.language ∉ PATH_MODULE_LANGUAGES)
    (some_ : scopeOf node ≠ [])
    (accepted : matchesSymbol node (write (front ++ [(near, s)]) node.name ++ arity) none = true) :
    ((canonicalScope near).splitOn dot).getLast? = (scopeOf node).getLast? ∨
      near ∈ RUST_PATH_PREFIXES ∧
        (front ++ [(near, s)]).hints.getLast? = (scopeOf node).getLast? := by
  have nearest (last : (front ++ [(near, s)]).hints.getLast? = (scopeOf node).getLast?) :
      ((canonicalScope near).splitOn dot).getLast? = (scopeOf node).getLast? ∨
        near ∈ RUST_PATH_PREFIXES ∧
          (front ++ [(near, s)]).hints.getLast? = (scopeOf node).getLast? := by
    by_cases word : near ∈ RUST_PATH_PREFIXES
    · exact Or.inr ⟨word, last⟩
    · left
      have hints : (front ++ [(near, s)]).hints = front.hints ++ [near] := by
        rw [hints_append]
        congr 1
        exact List.filter_cons_of_pos (by simpa using word)
      rw [hints, List.getLast?_concat] at last
      have listed := mem_split_of_mem_scope (List.mem_of_getLast? last.symm)
      have plain := (spelled near s (by simp)).1
      rw [splitOn_part listed plain, ← last]
      rfl
  obtain ⟨accepts, -⟩ := (accepted_iff regular (by simp) spelled full of).mp accepted
  cases accepts with
  | named ends =>
    left
    rw [endsOnBoundary_write regular spelled, pieces_append] at ends
    have last : pieces [(near, s)] = (canonicalScope near).splitOn dot := List.flatMap_singleton _ _
    rw [last] at ends
    obtain ⟨outer, cut⟩ := ends
    rw [← cut, ← List.append_assoc, List.getLast?_append_of_ne_nil _ (List.splitOn_ne_nil _ _)]
  | path full can located =>
    rw [pathCanName] at can
    simp only [member, language, decide_false, not_true_eq_false, Bool.false_or, Bool.or_eq_true,
      List.isEmpty_iff, some_, false_or, beq_iff_eq] at can
    exact nearest can.symm
  | packaged package inner cut first deep within located =>
    refine nearest ?_
    obtain ⟨outer, cut'⟩ := within
    rw [cut, ← cut', List.getLast?_append_of_ne_nil _ deep, List.getLast?_append_of_ne_nil _ deep]

/-- Without a package reader: what is left of an accepted query is accepted, down to the name, where
`crate`, `super` and `self` are no part of it or all that is dropped; a node is found by its name
behind its own scopes, however these are separated; and a member of a type is found behind its type. -/
theorem qualified_names_narrow {node : Node} (regular : Regular node) {arity : JsString}
    (of : ArityOf node arity) :
    (∀ dropped left : Qualifiers, Spelled (dropped ++ left) → [] ∉ (dropped ++ left).names →
      matchesSymbol node (write (dropped ++ left) node.name ++ arity) none = true →
      ((∀ q ∈ dropped.names, q ∈ RUST_PATH_PREFIXES) ∨ ∀ q ∈ left.names, q ∉ RUST_PATH_PREFIXES) →
      matchesSymbol node (write left node.name ++ arity) none = true) ∧
    (∀ qs : Qualifiers, Spelled qs → qs.names <:+ scopeOf node → (∃ q ∈ qs.names, q ≠ []) →
      matchesSymbol node (write qs node.name ++ arity) none = true) ∧
    (node.kind ∈ TYPE_MEMBER_KINDS → node.language ∉ PATH_MODULE_LANGUAGES → scopeOf node ≠ [] →
      ∀ (front : Qualifiers) (near : JsString) (s : Separator),
        Spelled (front ++ [(near, s)]) → [] ∉ (front ++ [(near, s)]).names →
        matchesSymbol node (write (front ++ [(near, s)]) node.name ++ arity) none = true →
        ((canonicalScope near).splitOn dot).getLast? = (scopeOf node).getLast? ∨
          near ∈ RUST_PATH_PREFIXES ∧
            (front ++ [(near, s)]).hints.getLast? = (scopeOf node).getLast?) :=
  ⟨fun _ _ spelled full accepted apart => drop_accepted regular spelled full of accepted apart,
    fun _ spelled within some_ => own_spelling regular spelled within some_ of,
    fun member language some_ _ _ _ spelled full accepted =>
      member_qualifier regular spelled full of member language some_ accepted⟩

def price : Node :=
  ⟨utf16 "a", .method, utf16 "price", utf16 "App.Format::price", utf16 "billing/Money.cs", .csharp⟩

theorem price_regular : Regular price where
  named := by decide
  plain := by decide
  ends := by decide +kernel
  word has := absurd has (by decide)
  line := by decide +kernel

theorem qualified_names_narrow_price :
    matchesSymbol price (utf16 "price") none = true ∧
      matchesSymbol price (utf16 "App/Format.price") none = true ∧
      ((canonicalScope (utf16 "Format")).splitOn dot).getLast? = (scopeOf price).getLast? := by
  have three := @qualified_names_narrow price price_regular [] (Or.inl rfl)
  have spelled : Spelled [(utf16 "App", .slash), (utf16 "Format", .dot)] := by
    intro q s listed
    rcases List.mem_cons.mp listed with is | listed
    · cases is
      exact ⟨by decide, nofun⟩
    · cases List.mem_singleton.mp listed
      exact ⟨by decide, nofun⟩
  have own := three.2.1 [(utf16 "App", .slash), (utf16 "Format", .dot)] spelled (by decide +kernel)
    ⟨utf16 "App", by decide, by decide⟩
  refine ⟨?_, own, ?_⟩
  · exact three.1 [(utf16 "App", .slash), (utf16 "Format", .dot)] [] spelled (by decide) own
      (Or.inr (by decide))
  · exact (three.2.2 (by decide) (by decide) (by decide +kernel) [(utf16 "App", .slash)]
      (utf16 "Format") .dot spelled (by decide) own).resolve_right fun word =>
        absurd word.1 (by decide)

/-- `self` alone names nothing, and a property without a scope is found by the file it is in. -/
theorem self_not_narrowed :
    let run : Node := ⟨utf16 "r", .function, utf16 "run", utf16 "run", utf16 "src/a/x.rs", .rust⟩
    let total : Node := ⟨utf16 "t", .property, utf16 "total", utf16 "total", utf16 "Money.cs", .csharp⟩
    (matchesSymbol run (utf16 "a::self::run") none = true ∧
      matchesSymbol run (utf16 "self::run") none = false) ∧
    (matchesSymbol total (utf16 "Money.total") none = true ∧ scopeOf total = []) := by
  decide +kernel

end CodeGraph.Graph.SymbolLookup
