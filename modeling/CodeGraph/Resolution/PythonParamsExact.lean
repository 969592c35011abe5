import CodeGraph.Resolution.PythonParamNames

/-!
# When the names are the bound ones

The names that a header gives are the ones it binds just when the patterns can take its names whole,
its type parameters hold no square bracket, and no lambda outside brackets names a later parameter.
-/
namespace CodeGraph.Resolution.PythonParams

open RustText

variable {classes : WordClasses} {c : Char} {name text : List Char}

/-! ### Names that the pattern takes whole -/

def Whole (classes : WordClasses) (name : List Char) : Prop := nameAt classes name = some name

theorem whole_of_nameAt (found : nameAt classes text = some name) : Whole classes name := by
  cases text with
  | nil => cases found
  | cons c rest =>
    rw [nameAt] at found
    split at found
    next start =>
      cases found
      rw [Whole, nameAt, if_pos start, List.takeWhile_takeWhile]
      simp
    next => cases found

theorem Head.whole {head : Head} (mem : head.seen classes = some name) : Whole classes name := by
  obtain ⟨text, _, found⟩ := Option.bind_eq_some_iff.mp mem
  exact whole_of_nameAt found

theorem Ident.plain_iff {ident : Ident} : ident.Plain classes ↔ Whole classes ident.text := by
  obtain ⟨c, cs, shape⟩ := List.exists_cons_of_ne_nil ident.ne_nil
  rw [Ident.Plain, Ident.Worded, Whole, shape, nameAt]
  constructor
  · rintro ⟨words, start⟩
    have first : (classes.word c && !classes.digit c) = true := by
      rw [words c List.mem_cons_self, start c rfl]
      rfl
    rw [if_pos first, List.takeWhile_eq_self_iff.mpr fun d mem => words d (List.mem_cons_of_mem c mem)]
  · intro whole
    split at whole
    next first =>
      rw [Bool.and_eq_true, Bool.not_eq_true'] at first
      have all := List.takeWhile_eq_self_iff.mp (List.cons.inj (Option.some.inj whole)).2
      refine ⟨fun d mem => ?_, ?_⟩
      · rcases List.mem_cons.mp mem with rfl | later
        · exact first.1
        · exact all d later
      · rintro d ⟨⟩
        exact first.2
    next => cases whole

theorem Head.unseen_iff {head : Head} : head.Unseen classes ↔ head.seen classes = none := by
  rw [Head.Unseen, Head.seen]
  cases head.binds with
  | none => simp
  | some name =>
    cases name with
    | nil => simp [nameAt]
    | cons c cs =>
      simp only [Option.mem_def, Option.some.injEq, forall_eq', List.head?_cons, Option.bind_some,
        nameAt]
      split
      next first =>
        rw [Bool.and_eq_true, Bool.not_eq_true'] at first
        simp [first]
      next other =>
        simp only [iff_true]
        rw [Bool.and_eq_true, Bool.not_eq_true', not_and_or] at other
        exact other.imp eq_false_of_ne_true eq_true_of_ne_false

mutual

theorem Expr.whole : (e : Expr) → ∀ name ∈ e.extras classes, Whole classes name
  | .done => nofun
  | .char _ _ rest => rest.whole
  | .group _ _ rest => rest.whole
  | .lambda _ params rest => by
    intro name mem
    rcases List.mem_append.mp mem with inside | later
    · exact params.whole name inside
    · exact rest.whole name later

theorem Lambda.whole : (l : Lambda) → ∀ name ∈ l.extras classes, Whole classes name
  | .done => nofun
  | .comma _ => nofun
  | .bare _ _ more => more.laterWhole
  | .valued _ _ value more => by
    intro name mem
    rcases List.mem_append.mp mem with inside | later
    · exact value.whole name inside
    · exact more.laterWhole name later

theorem Lambda.laterWhole : (l : Lambda) → ∀ name ∈ l.laterExtras classes, Whole classes name
  | .done => nofun
  | .comma _ => nofun
  | .bare head _ more => by
    intro name mem
    rcases List.mem_append.mp mem with own | later
    · exact Head.whole (Option.mem_toList.mp own)
    · exact more.laterWhole name later
  | .valued head _ value more => by
    intro name mem
    rcases List.mem_append.mp mem with own | later
    · exact Head.whole (Option.mem_toList.mp own)
    · rcases List.mem_append.mp later with inside | later
      · exact value.whole name inside
      · exact more.laterWhole name later

end

mutual

theorem Expr.quiet_iff : (e : Expr) → (e.Quiet classes ↔ e.extras classes = [])
  | .done => by simp [Expr.Quiet, Expr.extras]
  | .char _ _ rest => by
    rw [Expr.Quiet, Expr.extras]
    exact rest.quiet_iff
  | .group _ _ rest => by
    rw [Expr.Quiet, Expr.extras]
    exact rest.quiet_iff
  | .lambda _ params rest => by
    rw [Expr.Quiet, Expr.extras, List.append_eq_nil_iff, params.quiet_iff, rest.quiet_iff]

theorem Lambda.quiet_iff : (l : Lambda) → (l.Quiet classes ↔ l.extras classes = [])
  | .done => by simp [Lambda.Quiet, Lambda.extras]
  | .comma _ => by simp [Lambda.Quiet, Lambda.extras]
  | .bare _ _ more => by
    rw [Lambda.Quiet, Lambda.extras]
    exact more.laterQuiet_iff
  | .valued _ _ value more => by
    rw [Lambda.Quiet, Lambda.extras, List.append_eq_nil_iff, value.quiet_iff, more.laterQuiet_iff]

theorem Lambda.laterQuiet_iff : (l : Lambda) → (l.LaterQuiet classes ↔ l.laterExtras classes = [])
  | .done => by simp [Lambda.LaterQuiet, Lambda.laterExtras]
  | .comma _ => by simp [Lambda.LaterQuiet, Lambda.laterExtras]
  | .bare head _ more => by
    rw [Lambda.LaterQuiet, Lambda.laterExtras, List.append_eq_nil_iff, Option.toList_eq_nil_iff,
      Head.unseen_iff, more.laterQuiet_iff]
  | .valued head _ value more => by
    rw [Lambda.LaterQuiet, Lambda.laterExtras, List.append_eq_nil_iff, Option.toList_eq_nil_iff,
      List.append_eq_nil_iff, Head.unseen_iff, value.quiet_iff, more.laterQuiet_iff]

end

/-! ### The names of a list -/

def Param.extras (classes : WordClasses) (p : Param) : List (List Char) :=
  optionExtras classes p.annotation ++ optionExtras classes p.default

theorem optionExtras_nil {e : Option Expr} :
    optionExtras classes e = [] ↔ ∀ x ∈ e, x.Quiet classes := by
  cases e with
  | none => simp [optionExtras]
  | some e => simp [optionExtras, e.quiet_iff]

theorem optionExtras_whole {e : Option Expr} (mem : name ∈ optionExtras classes e) :
    Whole classes name := by
  cases e with
  | none => cases mem
  | some e => exact e.whole name mem

theorem Param.whole {p : Param} (mem : name ∈ p.gives classes) : Whole classes name := by
  rw [Param.gives, List.mem_append, List.mem_append] at mem
  rcases mem with own | inside | inside
  · exact Head.whole (Option.mem_toList.mp own)
  · exact optionExtras_whole inside
  · exact optionExtras_whole inside

theorem Param.readable_iff {p : Param} :
    p.Readable classes ↔ (∀ bound ∈ p.head.binds, Whole classes bound) ∧ p.extras classes = [] := by
  rw [Param.Readable, Param.extras, List.append_eq_nil_iff, optionExtras_nil, optionExtras_nil]
  apply and_congr_left'
  cases p.head with
  | slash before => simp [Head.binds]
  | star before => simp [Head.binds]
  | name before stars between ident =>
    constructor
    · rintro plain _ ⟨⟩
      exact Ident.plain_iff.mp (plain before stars between ident rfl)
    · rintro whole _ _ _ _ ⟨⟩
      exact Ident.plain_iff.mpr (whole _ rfl)

theorem Head.seen_of_whole {head : Head} (whole : ∀ bound ∈ head.binds, Whole classes bound) :
    head.seen classes = head.binds := by
  rw [Head.seen]
  cases found : head.binds with
  | none => rfl
  | some bound => exact whole bound found

theorem Param.gives_eq {p : Param} (whole : ∀ bound ∈ p.head.binds, Whole classes bound) :
    p.gives classes = p.head.binds.toList ++ p.extras classes := by
  rw [Param.gives, Head.seen_of_whole whole, Param.extras]

theorem bound_cons (p : Param) (list : List Param) :
    (p :: list).filterMap (fun p => p.head.binds) =
      p.head.binds.toList ++ list.filterMap (fun p => p.head.binds) := by
  rw [List.filterMap_cons]
  cases p.head.binds with
  | none => rfl
  | some bound => rfl

theorem bound_length_le {list : List Param}
    (whole : ∀ p ∈ list, ∀ bound ∈ p.head.binds, Whole classes bound) :
    (list.filterMap fun p => p.head.binds).length ≤ (list.flatMap (Param.gives classes)).length := by
  induction list with
  | nil => exact Nat.le_refl _
  | cons p list ih =>
    have later := ih fun q mem => whole q (List.mem_cons_of_mem p mem)
    rw [bound_cons, List.flatMap_cons, Param.gives_eq (whole p List.mem_cons_self)]
    simp only [List.length_append]
    omega

/-- The names that a list gives are the bound ones just when each parameter is readable. -/
theorem gives_eq_iff (list : List Param) :
    list.flatMap (Param.gives classes) = list.filterMap (fun p => p.head.binds) ↔
      ∀ p ∈ list, p.Readable classes := by
  constructor
  · intro same
    have whole : ∀ p ∈ list, ∀ bound ∈ p.head.binds, Whole classes bound := by
      intro p mem bound binds
      have listed : bound ∈ list.flatMap (Param.gives classes) :=
        same ▸ List.mem_filterMap.mpr ⟨p, mem, binds⟩
      obtain ⟨q, _, given⟩ := List.mem_flatMap.mp listed
      exact Param.whole given
    -- Every name is given, so there is no room for another.
    induction list with
    | nil => nofun
    | cons p list ih =>
      have first := whole p List.mem_cons_self
      have others : ∀ q ∈ list, ∀ bound ∈ q.head.binds, Whole classes bound :=
        fun q mem => whole q (List.mem_cons_of_mem p mem)
      rw [bound_cons, List.flatMap_cons, Param.gives_eq first, List.append_assoc,
        List.append_cancel_left_eq] at same
      have none_ : p.extras classes = [] := by
        have lengths := congrArg List.length same
        have enough := bound_length_le others
        rw [List.length_append] at lengths
        exact List.length_eq_zero_iff.mp (by omega)
      rw [none_, List.nil_append] at same
      intro q mem
      rcases List.mem_cons.mp mem with rfl | later
      · exact Param.readable_iff.mpr ⟨first, none_⟩
      · exact ih same others q later
  · intro readable
    induction list with
    | nil => rfl
    | cons p list ih =>
      obtain ⟨whole, extras⟩ := Param.readable_iff.mp (readable p List.mem_cons_self)
      rw [List.flatMap_cons, ih fun q mem => readable q (List.mem_cons_of_mem p mem), bound_cons,
        Param.gives_eq whole, extras, List.append_nil]

end CodeGraph.Resolution.PythonParams
