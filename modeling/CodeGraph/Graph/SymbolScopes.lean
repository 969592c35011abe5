import CodeGraph.Foundation.Lines
import CodeGraph.Graph.SymbolLookup

/-!
# Qualifiers and scopes

Queries as they are written: a name after its qualifiers, each followed by a separator, and at the
end an arity if the node has one.
-/
namespace CodeGraph.Graph.SymbolLookup

open Text Tails Lines

inductive Separator where
  | colons | dot | slash
  deriving DecidableEq, Repr

namespace Separator

def text : Separator → JsString
  | colons => [colon, colon]
  | dot => [SymbolLookup.dot]
  | slash => [SymbolLookup.slash]

def mark : Separator → UInt16
  | colons => SymbolLookup.dot
  | dot => SymbolLookup.dot
  | slash => SymbolLookup.slash

end Separator

abbrev Qualifiers := List (JsString × Separator)

def write : Qualifiers → JsString → JsString
  | [], name => name
  | (q, s) :: qs, name => q ++ (s.text ++ write qs name)

def Qualifiers.names (qs : Qualifiers) : List JsString := qs.map Prod.fst

/-- The qualifiers hold no separator, and none of them runs into the one that follows. -/
def Spelled (qs : Qualifiers) : Prop :=
  ∀ q s, (q, s) ∈ qs → isQualifiedSymbol q = false ∧ (s = .colons → q.getLast? ≠ some colon)

def IsNumber (text : JsString) : Prop :=
  1 ≤ text.length ∧ text.length ≤ 3 ∧ ∀ u ∈ text, isDigit u = true

/-- The name has no separator, and the qualified name ends with it. A qualified name that has an
arity is on one line, and its name is not a number. -/
structure Regular (node : Node) : Prop where
  named : node.name ≠ []
  plain : isQualifiedSymbol node.name = false
  ends : ((canonicalNode node).splitOn dot).getLast? = some node.name
  word : (arity? node.qualifiedName).isSome → ¬IsNumber node.name
  line : (arity? node.qualifiedName).isSome → ∀ u ∈ node.qualifiedName, isLineTerminator u = false

def ArityOf (node : Node) (arity : JsString) : Prop :=
  arity = [] ∨ ∃ before digits, arity? node.qualifiedName = some (before, digits) ∧
    arity = slash :: digits

variable {p t : JsString}

theorem not_mem_of_plain (plain : isQualifiedSymbol p = false) : dot ∉ p ∧ slash ∉ p := by
  rw [isQualifiedSymbol, Bool.or_eq_false_iff] at plain
  have marks := List.any_eq_false.mp plain.1
  exact ⟨fun listed => marks dot listed rfl, fun listed => marks slash listed rfl⟩

theorem plain_tail {u : UInt16} (plain : isQualifiedSymbol (u :: p) = false) :
    isQualifiedSymbol p = false := by
  simp only [isQualifiedSymbol, List.any_cons, List.tails, Bool.or_eq_false_iff] at plain ⊢
  exact ⟨plain.1.2, plain.2.2⟩

theorem joinColons_plain (plain : isQualifiedSymbol p = false) : joinColons p = p := by
  induction p using joinColons.induct with
  | case1 => rfl
  | case2 u => rfl
  | case3 u v rest double ih =>
    obtain ⟨rfl, rfl⟩ := double
    simp [isQualifiedSymbol, List.tails] at plain
  | case4 u v rest single ih => rw [joinColons, if_neg single, ih (plain_tail plain)]

theorem joinColons_mark {c : UInt16} (mark : c ≠ colon) (p t : JsString) :
    joinColons (p ++ c :: t) = joinColons p ++ c :: joinColons t := by
  induction p using joinColons.induct with
  | case1 =>
    cases t with
    | nil => rfl
    | cons v t => simp [joinColons, mark]
  | case2 u =>
    cases t with
    | nil => simp [joinColons, mark]
    | cons v t => simp [joinColons, mark]
  | case3 u v rest double ih => simp [joinColons, double, ih]
  | case4 u v rest single ih =>
    simp only [List.cons_append] at ih ⊢
    simp only [joinColons, if_neg single, ih, List.cons_append]

theorem joinColons_colons (apart : p.getLast? ≠ some colon) (t : JsString) :
    joinColons (p ++ colon :: colon :: t) = joinColons p ++ dot :: joinColons t := by
  induction p using joinColons.induct with
  | case1 => simp [joinColons]
  | case2 u =>
    have other : u ≠ colon := by simpa using apart
    simp [joinColons, other]
  | case3 u v rest double ih =>
    have some_ : rest ≠ [] := by
      rintro rfl
      simp [double.2] at apart
    have last : rest.getLast? ≠ some colon := by
      rwa [List.getLast?_cons_of_ne_nil (List.cons_ne_nil v rest),
        List.getLast?_cons_of_ne_nil some_] at apart
    simp [joinColons, double, ih last]
  | case4 u v rest single ih =>
    simp only [List.cons_append] at ih ⊢
    rw [List.getLast?_cons_cons] at apart
    simp only [joinColons, if_neg single, ih apart, List.cons_append]

/-! ### Queries as they are read -/

variable {q name : JsString} {s : Separator} {qs : Qualifiers} {node : Node}

theorem mark_cases (s : Separator) : s.mark = dot ∨ s.mark = slash := by
  cases s with
  | colons => exact Or.inl rfl
  | dot => exact Or.inl rfl
  | slash => exact Or.inr rfl

theorem joinColons_separator (apart : s = .colons → q.getLast? ≠ some colon) (t : JsString) :
    joinColons (q ++ (s.text ++ t)) = joinColons q ++ s.mark :: joinColons t := by
  cases s with
  | colons => exact joinColons_colons (apart rfl) t
  | dot => exact joinColons_mark (by decide) q t
  | slash => exact joinColons_mark (by decide) q t

theorem Spelled.tail (spelled : Spelled ((q, s) :: qs)) : Spelled qs :=
  fun q' s' listed => spelled q' s' (List.mem_cons_of_mem _ listed)

theorem Spelled.append_right {left : Qualifiers} (spelled : Spelled (qs ++ left)) : Spelled left :=
  fun q' s' listed => spelled q' s' (List.mem_append_right _ listed)

theorem canonicalScope_write (spelled : Spelled ((q, s) :: qs)) (name : JsString) :
    canonicalScope (write ((q, s) :: qs) name) =
      canonicalScope q ++ dot :: canonicalScope (write qs name) := by
  have head := spelled q s List.mem_cons_self
  have mark : (if s.mark = slash ∨ s.mark = backslash then dot else s.mark) = dot := by
    rcases mark_cases s with is | is <;> rw [is] <;> decide
  rw [canonicalScope, write, joinColons_separator head.2, List.map_append, List.map_cons, mark]
  rfl

def pieces (qs : Qualifiers) : List JsString :=
  qs.names.flatMap fun q => (canonicalScope q).splitOn dot

theorem splitOn_canonicalScope_write (spelled : Spelled qs) (name : JsString) :
    (canonicalScope (write qs name)).splitOn dot =
      pieces qs ++ (canonicalScope name).splitOn dot := by
  induction qs with
  | nil => rfl
  | cons first qs ih =>
    obtain ⟨q, s⟩ := first
    rw [canonicalScope_write spelled, List.splitOn_append_cons_self, ih spelled.tail,
      ← List.append_assoc]
    rfl

theorem splitScopes_write (spelled : Spelled qs) (plain : isQualifiedSymbol name = false) :
    splitScopes (write qs name) = qs.names ++ [name] := by
  have cut : ∀ {p : JsString}, isQualifiedSymbol p = false →
      ((joinColons p).map fun u => if u = slash then dot else u) = p := by
    intro p plain
    obtain ⟨-, slashes⟩ := not_mem_of_plain plain
    have same : ∀ u ∈ p, (if u = slash then dot else u) = id u := by
      rintro u listed
      rw [if_neg]
      · rfl
      · rintro rfl
        exact slashes listed
    rw [joinColons_plain plain, List.map_congr_left same, List.map_id]
  induction qs with
  | nil =>
    rw [write, splitScopes, cut plain, List.splitOn_eq_singleton (not_mem_of_plain plain).1]
    rfl
  | cons first qs ih =>
    obtain ⟨q, s⟩ := first
    have head := spelled q s List.mem_cons_self
    have mark : (if s.mark = slash then dot else s.mark) = dot := by
      rcases mark_cases s with is | is <;> rw [is] <;> decide
    have rest := ih spelled.tail
    rw [splitScopes] at rest ⊢
    rw [write, joinColons_separator head.2, List.map_append, List.map_cons, cut head.1, mark,
      List.splitOn_append_cons_self_of_not_mem (not_mem_of_plain head.1).1, rest]
    rfl

theorem qualifierParts_write (spelled : Spelled qs) (plain : isQualifiedSymbol name = false)
    (some_ : name ≠ []) (full : [] ∉ qs.names) :
    qualifierParts (write qs name) = qs.names ++ [name] := by
  rw [qualifierParts, splitScopes_write spelled plain, List.filter_eq_self]
  intro part listed
  rw [decide_eq_true_eq]
  rintro rfl
  rcases mem_snoc.mp listed with qualifier | last
  · exact full qualifier
  · exact some_ last.symm

theorem write_last (some_ : qs ≠ []) (name : JsString) :
    ∃ front m, write qs name = front ++ m :: name ∧ (m = dot ∨ m = slash ∨ m = colon) := by
  induction qs with
  | nil => exact absurd rfl some_
  | cons first qs ih =>
    obtain ⟨q, s⟩ := first
    cases qs with
    | nil =>
      rw [write, write]
      cases s with
      | colons => exact ⟨q ++ [colon], colon, by simp [Separator.text], Or.inr (Or.inr rfl)⟩
      | dot => exact ⟨q, dot, rfl, Or.inl rfl⟩
      | slash => exact ⟨q, slash, rfl, Or.inr (Or.inl rfl)⟩
    | cons second qs =>
      obtain ⟨front, m, cut, mark⟩ := ih (List.cons_ne_nil _ _)
      exact ⟨q ++ (s.text ++ front), m, by rw [write, cut]; simp, mark⟩

theorem isQualifiedSymbol_write (some_ : qs ≠ []) (name : JsString) :
    isQualifiedSymbol (write qs name) = true := by
  cases qs with
  | nil => exact absurd rfl some_
  | cons first qs =>
    obtain ⟨q, s⟩ := first
    rw [write, isQualifiedSymbol, Bool.or_eq_true]
    cases s with
    | colons =>
      refine Or.inr (List.any_eq_true.mpr ⟨[colon, colon] ++ write qs name, ?_, ?_⟩)
      · rw [List.mem_tails]
        exact List.suffix_append q _
      · exact List.isPrefixOf_iff_prefix.mpr (List.prefix_append _ _)
    | dot => exact Or.inl (List.any_eq_true.mpr ⟨dot, by simp [Separator.text], rfl⟩)
    | slash => exact Or.inl (List.any_eq_true.mpr ⟨slash, by simp [Separator.text], rfl⟩)

theorem withoutExtension_plain (plain : isQualifiedSymbol name = false) :
    withoutExtension name = name :=
  if_neg fun some_ => (not_mem_of_plain plain).1 some_.1

/-! ### Arities -/

theorem arity?_append {digits : JsString} (number : IsNumber digits) (front : JsString) :
    arity? (front ++ slash :: digits) = some (front, digits) := by
  have mark : isDigit slash = false := by decide
  rw [arity?, rtakeWhile_append_cons mark number.2.2, rdropWhile_append_cons mark number.2.2,
    if_pos ⟨number.1, number.2.1, by simp⟩, List.dropLast_concat]

theorem arity?_eq_some {text before digits : JsString} (found : arity? text = some (before, digits)) :
    text = before ++ slash :: digits ∧ IsNumber digits := by
  rw [arity?] at found
  split at found
  next sized =>
    obtain ⟨least, most, mark⟩ := sized
    cases found
    refine ⟨?_, least, most, fun u listed => List.mem_rtakeWhile_imp listed⟩
    have cut := List.dropLast_append_getLast? slash (Option.mem_def.mpr mark)
    rw [← List.singleton_append, ← List.append_assoc, cut, List.rdropWhile_append_rtakeWhile]
  next => cases found

theorem number_of_arity (some_ : qs ≠ []) (plain : isQualifiedSymbol name = false)
    {before digits : JsString} (found : arity? (write qs name) = some (before, digits)) :
    IsNumber name := by
  obtain ⟨front, m, cut, mark⟩ := write_last some_ name
  obtain ⟨shape, number⟩ := arity?_eq_some found
  rw [cut] at shape
  rcases List.append_eq_append_iff.mp shape with ⟨more, left, right⟩ | ⟨more, left, right⟩
  · cases more with
    | nil =>
      rw [List.nil_append, List.cons.injEq] at right
      exact right.2 ▸ number
    | cons c more =>
      rw [List.cons_append, List.cons.injEq] at right
      exact absurd (by simp [right.2]) (not_mem_of_plain plain).2
  · cases more with
    | nil =>
      rw [List.nil_append, List.cons.injEq] at right
      exact right.2 ▸ number
    | cons c more =>
      rw [List.cons_append, List.cons.injEq] at right
      have digit := number.2.2 m (by simp [right.2])
      rcases mark with rfl | rfl | rfl <;> cases digit

theorem arity?_plain (plain : isQualifiedSymbol name = false) : arity? name = none := by
  cases found : arity? name with
  | none => rfl
  | some parts =>
    obtain ⟨before, digits⟩ := parts
    obtain ⟨shape, -⟩ := arity?_eq_some found
    exact absurd (by rw [shape]; simp) (not_mem_of_plain plain).2

theorem plain_of_number {digits : JsString} (number : IsNumber digits) :
    isQualifiedSymbol digits = false := by
  have other : ∀ u ∈ digits, u ≠ dot ∧ u ≠ slash ∧ u ≠ colon := by
    intro u listed
    have digit := number.2.2 u listed
    refine ⟨?_, ?_, ?_⟩ <;> (rintro rfl; cases digit)
  rw [isQualifiedSymbol, Bool.or_eq_false_iff, List.any_eq_false, List.any_eq_false]
  constructor
  · intro u listed
    simp [other u listed]
  · intro end_ listed begins
    have within := (List.mem_tails end_ digits).mp listed
    have first : colon ∈ end_ := (List.isPrefixOf_iff_prefix.mp begins).subset List.mem_cons_self
    exact (other colon (within.subset first)).2.2 rfl

theorem comparedSymbol_write (regular : Regular node) {arity : JsString} (of : ArityOf node arity)
    (line : arity ≠ [] → ∀ u ∈ write qs node.name, isLineTerminator u = false) :
    comparedSymbol node (write qs node.name ++ arity) = some (write qs node.name) := by
  rcases of with rfl | ⟨before, digits, found, rfl⟩
  · rw [List.append_nil, comparedSymbol, aritySpelling?]
    cases spelled : arity? (write qs node.name) with
    | none => rfl
    | some parts =>
      have none_ : arity? node.qualifiedName = none := by
        have some_ : qs ≠ [] := by
          rintro rfl
          rw [write, arity?_plain regular.plain] at spelled
          cases spelled
        have number := number_of_arity some_ regular.plain spelled
        by_contra has
        exact regular.word (Option.isSome_iff_ne_none.mpr has) number
      rw [none_]
      cases (some parts).filter fun parts => !parts.1.isEmpty && !parts.1.any isLineTerminator <;> rfl
  · have number := (arity?_eq_some found).2
    have full : write qs node.name ≠ [] := by
      intro empty
      cases qs with
      | nil => exact regular.named empty
      | cons first qs =>
        have qualified := isQualifiedSymbol_write (List.cons_ne_nil first qs) node.name
        rw [empty] at qualified
        cases qualified
    have clean : (write qs node.name).any isLineTerminator = false :=
      List.any_eq_false.mpr fun u listed => by simp [line (List.cons_ne_nil _ _) u listed]
    rw [comparedSymbol, aritySpelling?, arity?_append number, Option.filter_some, clean, found]
    simp [full]

def Qualifiers.hints (qs : Qualifiers) : List JsString := qs.names.filter (· ∉ RUST_PATH_PREFIXES)

inductive Accepts (node : Node) (qs : Qualifiers) : Prop
  | named (ends : endsOnBoundary node (write qs node.name) = true)
  | path (some_ : qs.hints ≠ []) (can : pathCanName node qs.hints = true)
      (located : ∀ hint ∈ qs.hints, inPath node.filePath hint = true)
  | packaged (package inner : List JsString) (cut : qs.hints = package ++ inner) (some_ : package ≠ [])
      (deep : inner ≠ []) (within : inner <:+ scopeOf node)
      (located : ∀ hint ∈ package, inPath node.filePath hint = true)

theorem mem_splits {hints : List JsString} {k : Nat} :
    k ∈ splits node hints ↔ 1 ≤ k ∧ k < hints.length ∧ hints.drop k <:+ scopeOf node := by
  rw [splits, List.mem_filter, List.mem_range', List.isSuffixOf_iff_suffix]
  constructor
  · rintro ⟨⟨i, less, rfl⟩, within⟩
    exact ⟨by omega, by omega, within⟩
  · rintro ⟨least, less, within⟩
    exact ⟨⟨k - 1, by omega, by omega⟩, within⟩

theorem splits_any {hints : List JsString} :
    ((splits node hints).any fun k => (hints.take k).all (inPath node.filePath)) = true ↔
      ∃ package inner, hints = package ++ inner ∧ package ≠ [] ∧ inner ≠ [] ∧
        inner <:+ scopeOf node ∧ ∀ hint ∈ package, inPath node.filePath hint = true := by
  simp only [List.any_eq_true, mem_splits, List.all_eq_true]
  constructor
  · rintro ⟨k, ⟨least, less, within⟩, located⟩
    refine ⟨hints.take k, hints.drop k, (List.take_append_drop k hints).symm, ?_, ?_, within, located⟩
    · exact List.ne_nil_of_length_pos (by rw [List.length_take]; omega)
    · exact List.ne_nil_of_length_pos (by rw [List.length_drop]; omega)
  · rintro ⟨package, inner, rfl, some_, deep, within, located⟩
    have first := List.length_pos_of_ne_nil some_
    have second := List.length_pos_of_ne_nil deep
    refine ⟨package.length, ⟨first, ?_, ?_⟩, ?_⟩
    · rw [List.length_append]
      omega
    · rwa [List.drop_left]
    · rwa [List.take_left]

theorem matchesQualified_write (regular : Regular node) (some_ : qs ≠ []) (spelled : Spelled qs)
    (full : [] ∉ qs.names) :
    matchesQualified node (write qs node.name) none = true ↔ Accepts node qs := by
  have parts := qualifierParts_write spelled regular.plain regular.named full
  have hints : containerHints (qs.names ++ [node.name]) = qs.hints := by
    rw [containerHints, List.dropLast_concat]
    rfl
  have long : ¬((qs.names ++ [node.name]).length < 2 ∨
      (qs.names ++ [node.name]).getLast? ≠ some node.name) := by
    have least := List.length_pos_of_ne_nil some_
    rw [not_or, List.getLast?_concat, List.length_append, Qualifiers.names, List.length_map]
    exact ⟨by simp; omega, by simp⟩
  rw [matchesQualified]
  simp only [parts, hints, if_neg long]
  constructor
  · intro accepted
    split at accepted
    next ends => exact .named ends
    next =>
      split at accepted
      next => cases accepted
      next some_ =>
        have some_ : qs.hints ≠ [] := by simpa using some_
        split at accepted
        next both =>
          rw [Bool.and_eq_true, List.all_eq_true] at both
          exact .path some_ both.1 both.2
        next =>
          split at accepted
          next inner =>
            obtain ⟨package, inner, cut, some_, deep, within, located⟩ := splits_any.mp inner
            exact .packaged package inner cut some_ deep within located
          next => cases accepted
  · intro accepts
    split
    next => rfl
    next other =>
      have some_ : qs.hints ≠ [] := by
        cases accepts with
        | named ends => exact absurd ends other
        | path some_ can located => exact some_
        | packaged package inner cut some_ deep within located => simp [cut, some_]
      rw [if_neg (by simpa using some_)]
      split
      next => rfl
      next apart =>
        cases accepts with
        | named ends => exact absurd ends other
        | path some_ can located =>
          exact absurd ((Bool.and_eq_true _ _).mpr ⟨can, List.all_eq_true.mpr located⟩) apart
        | packaged package inner cut some_ deep within located =>
          rw [if_pos (splits_any.mpr ⟨package, inner, cut, some_, deep, within, located⟩)]

end CodeGraph.Graph.SymbolLookup
