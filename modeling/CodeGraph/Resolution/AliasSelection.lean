import CodeGraph.Resolution.Paths

/-!
# The alias an import is read through

Which pattern of a config an import is resolved by, and the places it then means.
-/
namespace CodeGraph.Resolution.PathAliases

open Text InsertionMap PosixPaths

/-! ### The rules -/

def declared (effective : EffectiveOptions) : List (JsString × List JsString) :=
  ((Map.entriesOf effective.paths).map fun e => (e.1, stringTargets e.2)).filter (·.2 ≠ [])

def Stands (pattern specifier front text : JsString) : Prop :=
  ∃ back, star ∉ front ∧ pattern = front ++ star :: back ∧ specifier = front ++ text ++ back

def Matches (pattern specifier : JsString) : Prop :=
  star ∉ pattern ∧ pattern = specifier ∨ ∃ front text, Stands pattern specifier front text

/-- The targets that a specifier is read through, and what a wildcard stands for. -/
inductive Selected (entries : List (JsString × List JsString)) (specifier : JsString) :
    List JsString → Option JsString → Prop where
  /-- A pattern without a wildcard is the specifier. -/
  | exact {targets : List JsString} (listed : (specifier, targets) ∈ entries)
      (plain : star ∉ specifier) : Selected entries specifier targets none
  /-- Otherwise, the wildcard pattern with the longest text before the wildcard, and the first of
  those. -/
  | wildcard {before after : List (JsString × List JsString)} {pattern front text : JsString}
      {targets : List JsString} (split : entries = before ++ (pattern, targets) :: after)
      (stands : Stands pattern specifier front text)
      (none_ : star ∉ specifier → ∀ e ∈ entries, e.1 ≠ specifier)
      (earlier : ∀ e ∈ before, ∀ other middle, Stands e.1 specifier other middle →
        other.length < front.length)
      (later : ∀ e ∈ after, ∀ other middle, Stands e.1 specifier other middle →
        other.length ≤ front.length) :
      Selected entries specifier targets (some text)

/-- A target with its first `*` filled in. -/
def fill (text : Option JsString) (target : JsString) : JsString :=
  match text with
  | none => target
  | some text =>
    if star ∈ target then
      target.takeWhile (· != star) ++ text ++ (target.dropWhile (· != star)).tail
    else target

/-- Below the root, and not to be taken for a path that leaves it on Windows. -/
def below? (cwd projectRoot baseUrl filled : JsString) : Option JsString :=
  let root := segments cwd [projectRoot]
  let path := segments cwd [baseUrl, filled]
  let rel := join (path.drop root.length)
  if root.isPrefixOf path ∧ !(utf16 "..\\").isPrefixOf rel then some (posix rel) else none

/-- No `$` in the text stands for something else in a replacement. -/
def Literal : JsString → Prop
  | [] => True
  | [_] => True
  | u :: v :: rest =>
    (u = codeUnit '$' → v ≠ codeUnit '$' ∧ v ≠ codeUnit '&' ∧ v ≠ 0x60 ∧ v ≠ 0x27) ∧ Literal (v :: rest)

theorem substitution_literal (before behind : JsString) {text : JsString} (literal : Literal text) :
    substitution before behind text = text := by
  match text with
  | [] => rfl
  | [u] => rfl
  | u :: v :: rest =>
    have further := substitution_literal before behind literal.2
    by_cases dollar : u = codeUnit '$'
    · obtain ⟨first, second, third, fourth⟩ := literal.1 dollar
      simp only [substitution, dollar, first, second, third, fourth, if_true, if_false, further]
    · simp only [substitution, dollar, if_false, further]

theorem replaceStar_eq {target text : JsString} (literal : star ∈ target → Literal text) :
    replaceStar target text = fill (some text) target := by
  unfold replaceStar fill
  by_cases listed : star ∈ target
  · obtain ⟨front, back, rfl, plain⟩ := List.eq_append_cons_of_mem listed
    have kept : ∀ u ∈ front, (u != star) = true := by
      intro u member
      rw [bne_iff_ne]
      rintro rfl
      exact plain member
    rw [Lines.idxOf?_line plain]
    simp only [if_pos listed, substitution_literal _ _ (literal listed), List.take_left',
      List.takeWhile_append_of_pos kept, List.dropWhile_append_of_pos kept]
    simp
  · rw [List.idxOf?_eq_none_iff.mpr listed]
    simp [listed]

theorem escapesRoot_up (rest : List JsString) : escapesRoot (join (up :: rest)) = true := by
  cases rest with
  | nil => decide
  | cons segment rest =>
    have text : join (up :: segment :: rest) = utf16 "../" ++ join (segment :: rest) := by
      rw [join, List.intercalate_cons_cons]
      rfl
    rw [escapesRoot, text]
    simp

theorem escapesRoot_proper {rest : List JsString} (proper : ∀ s ∈ rest, Proper s) :
    escapesRoot (join rest) = (utf16 "..\\").isPrefixOf (join rest) := by
  cases rest with
  | nil => decide
  | cons segment rest =>
    have first := proper segment List.mem_cons_self
    have start := takeWhile_join rest first.plain
    have not_up : (join (segment :: rest) == up) = false := by
      rw [beq_eq_false_iff_ne]
      intro same
      rw [same] at start
      exact first.down (start.symm.trans (by decide))
    have not_further : (utf16 "../").isPrefixOf (join (segment :: rest)) = false := by
      rw [Bool.eq_false_iff, ne_eq, List.isPrefixOf_iff_prefix]
      rintro ⟨further, same⟩
      rw [← same] at start
      exact first.down start.symm
    have not_absolute : isAbsolute (join (segment :: rest)) = false := by
      rw [Bool.eq_false_iff]
      intro absolute
      obtain ⟨further, same⟩ := List.head?_eq_some_iff.mp (beq_iff_eq.mp absolute)
      rw [same] at start
      exact first.nonempty (start.symm.trans (by simp))
    rw [escapesRoot, not_up, not_further, not_absolute, Bool.or_false, Bool.false_or, Bool.false_or]

theorem candidate?_eq (cwd projectRoot baseUrl filled : JsString) :
    candidate? cwd projectRoot baseUrl filled = below? cwd projectRoot baseUrl filled := by
  simp only [candidate?, below?, relative, segments_resolve]
  by_cases below : segments cwd [projectRoot] <+: segments cwd [baseUrl, filled]
  · obtain ⟨rest, path⟩ := below
    have listed : ∀ s ∈ rest, Proper s := fun s member =>
      segments_proper cwd [baseUrl, filled] s (path ▸ List.mem_append_right _ member)
    rw [relativeSegments_below rest path.symm, escapesRoot_proper listed, ← path,
      List.drop_left]
    cases (utf16 "..\\").isPrefixOf (join rest) <;> simp
  · obtain ⟨rest, outside⟩ := relativeSegments_of_not_prefix below
    have not_below : (segments cwd [projectRoot]).isPrefixOf (segments cwd [baseUrl, filled]) =
        false := by
      rwa [Bool.eq_false_iff, ne_eq, List.isPrefixOf_iff_prefix]
    rw [outside, escapesRoot_up, if_pos rfl, not_below]
    simp

def patternOf (e : JsString × List JsString) : AliasPattern :=
  let split := splitWildcard e.1
  ⟨split.literalPrefix, split.literalSuffix, split.hasWildcard, e.2⟩

theorem splitWildcard_literal {pattern : JsString} (plain : star ∉ pattern) :
    splitWildcard pattern = ⟨pattern, [], false⟩ := by
  rw [splitWildcard, List.idxOf?_eq_none_iff.mpr plain]

theorem splitWildcard_wildcard {front back : JsString} (plain : star ∉ front) :
    splitWildcard (front ++ star :: back) = ⟨front, back, true⟩ := by
  rw [splitWildcard, Lines.idxOf?_line plain]
  simp

theorem applies_literal {e : JsString × List JsString} {specifier : JsString}
    (plain : star ∉ e.1) : applies specifier (patternOf e) = true ↔ e.1 = specifier := by
  simp only [applies, patternOf, splitWildcard_literal plain]
  constructor
  · intro applied
    simp only [beq_self_eq_true, Bool.true_or, Bool.and_true, Bool.false_eq_true, if_false,
      Bool.and_eq_true, beq_iff_eq] at applied
    exact applied.2.symm
  · rintro rfl
    simp

theorem applies_wildcard {pattern specifier front back : JsString} {targets : List JsString}
    (plain : star ∉ front) (split : pattern = front ++ star :: back) :
    applies specifier (patternOf (pattern, targets)) = true ↔
      ∃ text, specifier = front ++ text ++ back := by
  subst split
  simp only [applies, patternOf, splitWildcard_wildcard plain, if_true, Bool.and_eq_true,
    Bool.or_eq_true, beq_iff_eq, List.isPrefixOf_iff_prefix, List.isSuffixOf_iff_suffix,
    decide_eq_true_eq]
  constructor
  · rintro ⟨⟨⟨rest, rfl⟩, ends⟩, room⟩
    -- The literals share no characters, so the one behind is at the end of what follows the other.
    have suffix : back <:+ front ++ rest := by
      rcases ends with rfl | ends
      · exact List.nil_suffix
      · exact ends
    have short : back.length ≤ rest.length := by
      rw [List.length_append] at room
      omega
    obtain ⟨text, rfl⟩ := List.suffix_of_suffix_length_le suffix (List.suffix_append front rest) short
    exact ⟨text, by rw [List.append_assoc]⟩
  · rintro ⟨text, rfl⟩
    refine ⟨⟨⟨text ++ back, by rw [List.append_assoc]⟩, .inr (List.suffix_append _ back)⟩, ?_⟩
    simp only [List.length_append]
    omega

theorem captured_wildcard {front text back : JsString} {targets : List JsString}
    (plain : star ∉ front) :
    captured (front ++ text ++ back) (patternOf (front ++ star :: back, targets)) = text := by
  simp only [captured, patternOf, splitWildcard_wildcard plain, List.length_append,
    Nat.add_sub_cancel]
  rw [← List.length_append, List.take_left, List.drop_left]

theorem applies_iff {e : JsString × List JsString} {specifier : JsString} :
    applies specifier (patternOf e) = true ↔ Matches e.1 specifier := by
  obtain ⟨pattern, targets⟩ := e
  by_cases listed : star ∈ pattern
  · obtain ⟨front, back, split, plain⟩ := List.eq_append_cons_of_mem listed
    rw [applies_wildcard plain split]
    constructor
    · rintro ⟨text, whole⟩
      exact .inr ⟨front, text, back, plain, split, whole⟩
    · rintro (⟨none_, _⟩ | ⟨other, text, behind, bare, cut, whole⟩)
      · exact absurd listed none_
      · obtain ⟨rfl, rfl⟩ := Lines.line_inj plain bare (split.symm.trans cut)
        exact ⟨text, whole⟩
  · rw [applies_literal listed]
    constructor
    · exact fun same => .inl ⟨listed, same⟩
    · rintro (⟨_, same⟩ | ⟨front, text, back, _, cut, _⟩)
      · exact same
      · have starred : star ∈ pattern := by
          rw [show pattern = front ++ star :: back from cut]
          exact List.mem_append_right front List.mem_cons_self
        exact absurd starred listed

/-! ### The order of the patterns -/

instance : IsTrans AliasPattern Specific where
  trans a b c first second := by
    unfold Specific at first second ⊢
    rcases first with shorter | ⟨same, literal⟩ <;> rcases second with shorter' | ⟨same', literal'⟩
    · exact .inl (by omega)
    · exact .inl (by omega)
    · exact .inl (by omega)
    · exact .inr ⟨by omega, fun wild => literal' (literal wild)⟩

instance : Std.Total Specific where
  total a b := by
    unfold Specific
    rcases Nat.lt_trichotomy a.literalPrefix.length b.literalPrefix.length with less | same | more
    · exact .inr (.inl less)
    · cases wild : a.hasWildcard with
      | true => exact .inr (.inr ⟨same.symm, fun _ => rfl⟩)
      | false => exact .inl (.inr ⟨same, fun contra => (Bool.false_ne_true contra).elim⟩)
    · exact .inl (.inl more)

def listed (effective : EffectiveOptions) : List (JsString × List JsString) :=
  match effective.paths with
  | none => []
  | some paths => ((objectEntries paths).map fun e => (e.1, stringTargets e.2)).filter (·.2 ≠ [])

theorem filterMap_aliasPattern? (entries : List (JsString × Json)) :
    entries.filterMap aliasPattern? =
      ((entries.map fun e => (e.1, stringTargets e.2)).filter (·.2 ≠ [])).map patternOf := by
  induction entries with
  | nil => rfl
  | cons e entries ih =>
    by_cases none_ : stringTargets e.2 = []
    · have skipped : aliasPattern? e = none := by simp [aliasPattern?, none_]
      simp [skipped, none_, ih]
    · have made : aliasPattern? e = some (patternOf (e.1, stringTargets e.2)) := by
        simp [aliasPattern?, none_, patternOf]
      simp [made, none_, ih]

theorem aliasMapFromOptions_patterns {effective : EffectiveOptions} {projectRoot : JsString}
    {aliases : AliasMap} (built : aliasMapFromOptions effective projectRoot = some aliases) :
    aliases.patterns = ((listed effective).map patternOf).insertionSort Specific := by
  unfold aliasMapFromOptions at built
  obtain ⟨_, map⟩ := Option.ite_none_left_eq_some.mp built
  rw [← Option.some.inj map, listed]
  cases effective.paths with
  | none => rfl
  | some paths => simp only [filterMap_aliasPattern?]

theorem star_not_mem_of_numbered {key : JsString} (numbered : (arrayIndex? key).isSome) :
    star ∉ key := by
  intro starred
  unfold arrayIndex? at numbered
  dsimp only at numbered
  split at numbered
  next digits =>
    have digit := List.all_eq_true.mp digits.2.1 star starred
    exact absurd digit (by decide)
  · cases numbered

/-- The object lists numbered keys first, and the others as they are declared. -/
theorem listed_eq (effective : EffectiveOptions) :
    ∃ numbered, listed effective =
      numbered ++ (declared effective).filter (fun e => (arrayIndex? e.1).isNone) ∧
      ∀ e, e ∈ numbered ↔ e ∈ declared effective ∧ (arrayIndex? e.1).isSome := by
  cases given : effective.paths with
  | none => exact ⟨[], by simp [listed, declared, given, Map.entriesOf, Map.empty]⟩
  | some paths =>
    let sorted := (paths.entries.filter fun e => (arrayIndex? e.1).isSome).insertionSort
      fun a b => (arrayIndex? a.1).getD 0 ≤ (arrayIndex? b.1).getD 0
    refine ⟨(sorted.map fun e => (e.1, stringTargets e.2)).filter (·.2 ≠ []), ?_, ?_⟩
    · simp only [listed, given, objectEntries, declared, Map.entriesOf, Option.getD_some,
        List.map_append, List.filter_append]
      congr 1
      simp [List.filter_map, List.filter_filter, Function.comp_def, Bool.and_comm]
    · intro e
      simp only [declared, given, Map.entriesOf, Option.getD_some, List.mem_filter, List.mem_map,
        sorted, List.mem_insertionSort]
      constructor
      · rintro ⟨⟨entry, ⟨member, some_⟩, rfl⟩, targets⟩
        exact ⟨⟨⟨entry, member, rfl⟩, targets⟩, some_⟩
      · rintro ⟨⟨⟨entry, member, rfl⟩, targets⟩, some_⟩
        exact ⟨⟨entry, ⟨member, some_⟩, rfl⟩, targets⟩

theorem declared_distinct (effective : EffectiveOptions) :
    ((declared effective).map Prod.fst).Nodup := by
  have kept : ((declared effective).map Prod.fst).Sublist
      ((Map.entriesOf effective.paths).map Prod.fst) := by
    have cut := (List.filter_sublist (p := fun e : JsString × List JsString => decide (e.2 ≠ []))
      (l := (Map.entriesOf effective.paths).map fun e => (e.1, stringTargets e.2))).map Prod.fst
    simpa [declared, Function.comp_def] using cut
  exact kept.nodup (Map.distinct _)

theorem mem_listed {effective : EffectiveOptions} {e : JsString × List JsString} :
    e ∈ listed effective ↔ e ∈ declared effective := by
  obtain ⟨numbered, order, which⟩ := listed_eq effective
  rw [order, List.mem_append, which, List.mem_filter]
  cases (arrayIndex? e.1) <;> simp

/-! ### The pattern that is used -/

/-- A pattern that stands for a text in the specifier is read by its literal text. -/
theorem Stands.patternOf_eq {pattern specifier front text : JsString}
    (stands : Stands pattern specifier front text) (targets : List JsString) :
    (patternOf (pattern, targets)).literalPrefix = front ∧
      (patternOf (pattern, targets)).hasWildcard = true ∧
      captured specifier (patternOf (pattern, targets)) = text := by
  obtain ⟨back, plain, rfl, rfl⟩ := stands
  refine ⟨?_, ?_, captured_wildcard plain⟩
  · simp only [patternOf, splitWildcard_wildcard plain]
  · simp only [patternOf, splitWildcard_wildcard plain]

theorem patternOf_literal {e : JsString × List JsString} (plain : star ∉ e.1) :
    (patternOf e).literalPrefix = e.1 ∧ (patternOf e).hasWildcard = false := by
  simp only [patternOf, splitWildcard_literal plain, and_self]

theorem applies_prefix {specifier : JsString} {pat : AliasPattern}
    (applied : applies specifier pat = true) :
    pat.literalPrefix.length ≤ specifier.length := by
  simp only [applies, Bool.and_eq_true, List.isPrefixOf_iff_prefix] at applied
  exact applied.1.1.length_le

/-- The pattern that is the specifier is the longest, and has no wildcard. -/
theorem find?_exact {effective : EffectiveOptions} {specifier : JsString} {targets : List JsString}
    (member : (specifier, targets) ∈ declared effective) (plain : star ∉ specifier) :
    (((listed effective).map patternOf).insertionSort Specific).find? (applies specifier) =
      some (patternOf (specifier, targets)) := by
  obtain ⟨before, after, split, first⟩ := List.eq_append_cons_of_mem (mem_listed.mpr member)
  obtain ⟨whole, literal⟩ := patternOf_literal (e := (specifier, targets)) plain
  rw [split, List.map_append, List.map_cons]
  apply StableSort.find?_insertionSort
  · exact (applies_literal plain).mpr rfl
  · intro y behind applied order
    obtain ⟨e, earlier, rfl⟩ := List.mem_map.mp behind
    have short := applies_prefix applied
    rcases applies_iff.mp applied with ⟨_, same⟩ | ⟨front, text, stands⟩
    · -- No other entry has the specifier as its key.
      have also : e ∈ declared effective :=
        mem_listed.mp (split ▸ List.mem_append_left _ earlier)
      have one := List.inj_on_of_nodup_map (declared_distinct effective) also member same
      exact first (one ▸ earlier)
    · obtain ⟨_, wild, _⟩ := stands.patternOf_eq e.2
      rcases order with longer | ⟨_, no_wildcard⟩
      · rw [whole] at longer
        exact absurd longer (Nat.not_lt.mpr short)
      · rw [no_wildcard wild] at literal
        cases literal
  · intro y behind applied
    have short := applies_prefix applied
    rw [Specific, whole, literal]
    rcases Nat.lt_or_eq_of_le short with shorter | same
    · exact .inl shorter
    · exact .inr ⟨same.symm, fun contra => (Bool.false_ne_true contra).elim⟩

theorem find?_wildcard {effective : EffectiveOptions} {specifier pattern front text : JsString}
    {targets : List JsString} {before after : List (JsString × List JsString)}
    (split : declared effective = before ++ (pattern, targets) :: after)
    (stands : Stands pattern specifier front text)
    (none_ : star ∉ specifier → ∀ e ∈ declared effective, e.1 ≠ specifier)
    (earlier : ∀ e ∈ before, ∀ other middle, Stands e.1 specifier other middle →
      other.length < front.length)
    (later : ∀ e ∈ after, ∀ other middle, Stands e.1 specifier other middle →
      other.length ≤ front.length) :
    (((listed effective).map patternOf).insertionSort Specific).find? (applies specifier) =
      some (patternOf (pattern, targets)) := by
  obtain ⟨numbered, order, which⟩ := listed_eq effective
  obtain ⟨long, wild, _⟩ := stands.patternOf_eq targets
  have starred : star ∈ pattern := by
    obtain ⟨back, _, rfl, _⟩ := stands
    exact List.mem_append_right front List.mem_cons_self
  have unnumbered : (arrayIndex? pattern).isNone := by
    rw [← Option.not_isSome, Bool.not_eq_true']
    exact Bool.eq_false_iff.mpr fun some_ => star_not_mem_of_numbered some_ starred
  -- What applies without a wildcard would be the specifier.
  have wildcards : ∀ e ∈ declared effective, applies specifier (patternOf e) = true →
      ∃ other middle, Stands e.1 specifier other middle := by
    intro e member applied
    rcases applies_iff.mp applied with ⟨plain, same⟩ | found
    · exact absurd same (none_ (same ▸ plain) e member)
    · exact found
  rw [order, split, List.filter_append, List.filter_cons_of_pos (by simpa using unnumbered),
    ← List.append_assoc, List.map_append, List.map_cons]
  apply StableSort.find?_insertionSort
  · exact applies_iff.mpr (.inr ⟨front, text, stands⟩)
  · intro y behind applied specific
    obtain ⟨e, member, rfl⟩ := List.mem_map.mp behind
    have shorter : (patternOf e).literalPrefix.length < front.length := by
      rcases List.mem_append.mp member with number | plain
      · obtain ⟨also, some_⟩ := (which e).mp number
        obtain ⟨other, middle, back, _, cut, _⟩ := wildcards e also applied
        exact absurd (cut ▸ List.mem_append_right other List.mem_cons_self)
          (star_not_mem_of_numbered some_)
      · have first := List.mem_of_mem_filter plain
        obtain ⟨other, middle, found⟩ :=
          wildcards e (split ▸ List.mem_append_left _ first) applied
        rw [(found.patternOf_eq e.2).1]
        exact earlier e first other middle found
    rw [Specific, long] at specific
    omega
  · intro y behind applied
    obtain ⟨e, member, rfl⟩ := List.mem_map.mp behind
    have last := List.mem_of_mem_filter member
    obtain ⟨other, middle, found⟩ :=
      wildcards e (split ▸ List.mem_append_right _ (List.mem_cons_of_mem _ last)) applied
    obtain ⟨its, too, _⟩ := found.patternOf_eq e.2
    have short := later e last other middle found
    rw [Specific, long, its]
    rcases Nat.lt_or_eq_of_le short with shorter | same
    · exact .inl shorter
    · exact .inr ⟨same.symm, fun _ => too⟩

theorem exists_selected {entries : List (JsString × List JsString)} {specifier : JsString}
    {e : JsString × List JsString} (member : e ∈ entries) (matched : Matches e.1 specifier) :
    ∃ targets text, Selected entries specifier targets text := by
  by_cases whole : star ∉ specifier ∧ ∃ e ∈ entries, e.1 = specifier
  · obtain ⟨plain, ⟨pattern, targets⟩, there, rfl⟩ := whole
    exact ⟨targets, none, .exact there plain⟩
  · have none_ : star ∉ specifier → ∀ e ∈ entries, e.1 ≠ specifier :=
      fun plain e there same => whole ⟨plain, e, there, same⟩
    have wildcards : ∀ e ∈ entries, applies specifier (patternOf e) = true →
        ∃ other middle, Stands e.1 specifier other middle := by
      intro e there applied
      rcases applies_iff.mp applied with ⟨plain, same⟩ | found
      · exact absurd same (none_ (same ▸ plain) e there)
      · exact found
    obtain ⟨front, y, back, split, applied, later, least⟩ :=
      StableSort.exists_first_least (r := Specific) (List.mem_map_of_mem (f := patternOf) member)
        (applies_iff.mpr matched)
    obtain ⟨before, rest, cut, rfl, behind⟩ := List.map_eq_append_iff.mp split
    obtain ⟨⟨pattern, targets⟩, after, rfl, rfl, rfl⟩ := List.map_eq_cons_iff.mp behind
    have here : (pattern, targets) ∈ entries := cut ▸ List.mem_append_right _ List.mem_cons_self
    obtain ⟨start, text, stands⟩ := wildcards _ here applied
    obtain ⟨long, wild, _⟩ := stands.patternOf_eq targets
    refine ⟨targets, some text, .wildcard cut stands none_ ?_ ?_⟩
    · intro e earlier other middle found
      obtain ⟨its, too, _⟩ := found.patternOf_eq e.2
      have also := later _ (List.mem_map_of_mem earlier)
        (applies_iff.mpr (.inr ⟨other, middle, found⟩))
      by_contra not_shorter
      apply also
      rw [Specific, its, long]
      rcases Nat.lt_or_eq_of_le (Nat.le_of_not_lt not_shorter) with longer | same
      · exact .inl longer
      · exact .inr ⟨same.symm, fun _ => wild⟩
    · intro e last other middle found
      have also := least _ (List.mem_map_of_mem last)
        (applies_iff.mpr (.inr ⟨other, middle, found⟩))
      rw [Specific, long, (found.patternOf_eq e.2).1] at also
      omega

/-- The candidates of an import are those of the pattern that the rules select, with the text its
wildcard stands for in place of the first `*`, below the root; without a match there are none. -/
theorem applyAliases_selects {effective : EffectiveOptions} {projectRoot : JsString}
    {aliases : AliasMap} (built : aliasMapFromOptions effective projectRoot = some aliases)
    (cwd specifier : JsString) :
    (∀ targets text, Selected (declared effective) specifier targets text →
      (∀ t ∈ text, (∃ target ∈ targets, star ∈ target) → Literal t) →
      applyAliases cwd specifier aliases projectRoot =
        targets.filterMap fun target =>
          below? cwd projectRoot aliases.baseUrl (fill text target)) ∧
    ((∀ e ∈ declared effective, ¬Matches e.1 specifier) →
      applyAliases cwd specifier aliases projectRoot = []) ∧
    ((∃ e ∈ declared effective, Matches e.1 specifier) →
      ∃ targets text, Selected (declared effective) specifier targets text) := by
  have order := aliasMapFromOptions_patterns built
  refine ⟨?_, ?_, ?_⟩
  · intro targets text selected literal
    cases selected with
    | exact member plain =>
      have found := find?_exact member plain
      obtain ⟨_, no_wildcard⟩ := patternOf_literal (e := (specifier, targets)) plain
      rw [applyAliases, order, found]
      simp only [no_wildcard, candidate?_eq]
      rfl
    | wildcard split stands none_ earlier later =>
      have found := find?_wildcard split stands none_ earlier later
      obtain ⟨_, wild, taken⟩ := stands.patternOf_eq targets
      rw [applyAliases, order, found]
      simp only [wild, taken, candidate?_eq, if_true]
      refine List.filterMap_congr fun target listed => ?_
      rw [replaceStar_eq fun starred => literal _ rfl ⟨target, listed, starred⟩]
  · intro none_
    have nothing : ((((listed effective).map patternOf).insertionSort Specific).find?
        (applies specifier)) = none := by
      rw [List.find?_eq_none]
      intro y member applied
      obtain ⟨e, there, rfl⟩ := List.mem_map.mp ((List.mem_insertionSort _).mp member)
      exact none_ e (mem_listed.mp there) (applies_iff.mp applied)
    rw [applyAliases, order, nothing]
  · rintro ⟨e, member, matched⟩
    exact exists_selected member matched

private def srcOptions : EffectiveOptions :=
  ⟨none, some ⟨[(utf16 "@/*", .arr [.str (utf16 "src/*")])], by decide⟩, none⟩

private def srcAliases : AliasMap :=
  ⟨utf16 "/p", false, [⟨utf16 "@/", [], true, [utf16 "src/*"]⟩]⟩

/-- `@/ui` is `src/ui` under `@/*`. -/
theorem applyAliases_selects_src :
    applyAliases [] (utf16 "@/ui") srcAliases (utf16 "/p") = [utf16 "src/ui"] := by
  have built : aliasMapFromOptions srcOptions (utf16 "/p") = some srcAliases := rfl
  have only : declared srcOptions = [] ++ (utf16 "@/*", [utf16 "src/*"]) :: [] := rfl
  have stands : Stands (utf16 "@/*") (utf16 "@/ui") (utf16 "@/") (utf16 "ui") :=
    ⟨[], by decide, rfl, rfl⟩
  have others : star ∉ utf16 "@/ui" → ∀ e ∈ declared srcOptions, e.1 ≠ utf16 "@/ui" := by
    intro _ e member
    rw [only, List.nil_append, List.mem_singleton] at member
    rw [member]
    decide
  have selected : Selected (declared srcOptions) (utf16 "@/ui") [utf16 "src/*"]
      (some (utf16 "ui")) :=
    .wildcard only stands others (fun _ none_ => nomatch none_) fun _ none_ => nomatch none_
  have literal : ∀ t ∈ some (utf16 "ui"), (∃ target ∈ [utf16 "src/*"], star ∈ target) → Literal t := by
    rintro _ ⟨⟩ _
    exact ⟨fun dollar => absurd dollar (by decide), trivial⟩
  rw [(applyAliases_selects built [] (utf16 "@/ui")).1 _ _ selected literal]
  decide

private def emptyTargets : EffectiveOptions :=
  ⟨none, some ⟨[(utf16 "a/b", .arr []), (utf16 "a/*", .arr [.str (utf16 "x/*")])], by decide⟩, none⟩

private def starSpecifier : EffectiveOptions :=
  ⟨none, some ⟨[(utf16 "a/*", .arr [.str (utf16 "x/*")]), (utf16 "a/*b", .arr [.str (utf16 "y/*")])],
    by decide⟩, none⟩

/-- A pattern that equals the specifier is passed over if it has no target, and if it has a wildcard
and another pattern with the same text before it is declared first. -/
theorem equal_pattern_passed_over :
    (aliasMapFromOptions emptyTargets (utf16 "/p")).map
        (fun aliases => applyAliases [] (utf16 "a/b") aliases (utf16 "/p")) =
      some [utf16 "x/b"] ∧
    (aliasMapFromOptions starSpecifier (utf16 "/p")).map
        (fun aliases => applyAliases [] (utf16 "a/*b") aliases (utf16 "/p")) =
      some [utf16 "x/*b"] := by
  decide

end CodeGraph.Resolution.PathAliases
