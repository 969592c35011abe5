import CodeGraph.Resolution.MacroCalls

/-!
# When all calls are expanded

A pass rewrites the first call of a text, and there are six passes.
-/
namespace CodeGraph.Resolution.Macros

open JsText

variable {env : List (Text × MacroDef)} {before name rest t u : Text}

/-! ### One call -/

def Call.expansion (call : Call env) : Text :=
  call.before ++ (substituteMacro call.macro_ ((splitTopLevel call.body ',').map trim) ++ call.after)

theorem Call.rewritten_iff (call : Call env) : call.Rewritten u ↔ u = call.expansion := by
  constructor
  · rintro ⟨args, body, are, is, rfl⟩
    rw [substituteMacro_iff] at is
    rw [Call.expansion, splitTopLevel_of_arguments are, is]
  · rintro rfl
    exact ⟨_, _, arguments_splitTopLevel call.body, (substituteMacro_iff _ _).mpr rfl, rfl⟩

theorem Call.pattern (call : Call env) :
    callPattern call.rest = some (call.name.1, '(' :: (call.body ++ ')' :: call.after)) := by
  have stop : ∀ c ∈ (call.space ++ '(' :: (call.body ++ ')' :: call.after)).head?, isWord c = false := by
    intro c first
    cases gap : call.space with
    | nil =>
      rw [gap] at first
      cases first
      rfl
    | cons d space =>
      rw [gap] at first
      cases first
      exact isWord_of_isSpace (call.white c (by rw [gap]; exact List.mem_cons_self))
  have skip : skipSpace (call.space ++ '(' :: (call.body ++ ')' :: call.after)) =
      '(' :: (call.body ++ ')' :: call.after) := by
    rw [skipSpace, List.dropWhile_append_of_pos call.white]
    rfl
  rw [callPattern, Call.rest, wordAt_append call.name.2.2 stop, afterWord_append call.name.2.2 stop, skip]
  simp only [if_neg call.name.2.1]

theorem callPattern_some (found : callPattern t = some (name, rest)) :
    ∃ (w : Word) (space u : Text), w.1 = name ∧ rest = '(' :: u ∧ t = w.1 ++ (space ++ '(' :: u) ∧
      ∀ c ∈ space, isSpace c = true := by
  rw [callPattern] at found
  split at found
  · next u paren =>
    split at found
    · cases found
    · next some_ =>
      cases found
      refine ⟨⟨wordAt t, some_, fun c listed => List.mem_takeWhile_imp listed⟩,
        (afterWord t).takeWhile isSpace, u, rfl, rfl, ?_, fun c listed => List.mem_takeWhile_imp listed⟩
      rw [← paren, skipSpace, List.takeWhile_append_dropWhile]
      exact (wordAt_append_afterWord t).symm
  · cases found

theorem Call.rest_cons (call : Call env) : ∃ c t, call.rest = c :: t := by
  obtain ⟨c, word, shape⟩ := List.exists_cons_of_ne_nil call.name.2.1
  exact ⟨c, _, by rw [Call.rest, shape, List.cons_append]⟩

theorem expandFrom_call (call : Call env) :
    expandFrom env call.before 0 call.rest = some call.expansion := by
  have pattern := call.pattern
  have close := matchParen_append call.balanced call.after
  have boundary : call.before.getLast?.all (fun d => !isWord d) = true := by
    cases last : call.before.getLast? with
    | none => rfl
    | some d => simp [call.apart d last]
  have inner : (('(' :: (call.body ++ ')' :: call.after)).take (call.body.length + 1)).drop 1 = call.body := by
    rw [List.take_succ_cons, List.drop_one, List.tail_cons, List.take_left]
  have after : ('(' :: (call.body ++ ')' :: call.after)).drop (call.body.length + 1 + 1) = call.after := by
    rw [List.drop_succ_cons, ← List.drop_drop, List.drop_left]
    rfl
  obtain ⟨c, t, shape⟩ := call.rest_cons
  rw [shape] at pattern ⊢
  rw [expandFrom]
  simp only [boundary, if_true, pattern, call.known, close, inner, after]
  rfl

theorem Call.of_rest {call : Call env} (here : call.text = before ++ t)
    (length : call.before.length = before.length) : call.before = before ∧ call.rest = t :=
  List.append_inj here length

theorem Call.first_word (call : Call env) :
    ∃ c, call.text[call.before.length]? = some c ∧ isWord c = true := by
  obtain ⟨c, word, shape⟩ := List.exists_cons_of_ne_nil call.name.2.1
  refine ⟨c, ?_, call.name.2.2 c (by rw [shape]; exact List.mem_cons_self)⟩
  rw [Call.text, Call.rest, shape, List.getElem?_append_right (Nat.le_refl _), Nat.sub_self]
  rfl

theorem Call.before_apart (call : Call env) {i : Nat} (last : i + 1 = call.before.length) :
    ∃ c, call.text[i]? = some c ∧ isWord c = false := by
  obtain none_ | ⟨start, c, shape⟩ := List.eq_nil_or_concat' call.before
  · rw [none_] at last
    cases last
  · have place : i = start.length := by
      rw [shape, List.length_append, List.length_singleton] at last
      omega
    refine ⟨c, ?_, call.apart c (by rw [shape, List.getLast?_concat]; rfl)⟩
    rw [Call.text, shape, place, List.append_assoc, List.getElem?_append_right (Nat.le_refl _), Nat.sub_self]
    rfl

/-- No call begins within the name, the white space and the parenthesis of a match. -/
theorem Call.beyond_match {w : Word} {space : Text} {call : Call env} (white : ∀ c ∈ space, isSpace c = true)
    (here : call.text = before ++ (w.1 ++ (space ++ '(' :: u))) (later : before.length < call.before.length) :
    before.length + (w.1.length + space.length) < call.before.length := by
  by_contra within
  obtain ⟨c, at_, word⟩ := call.first_word
  obtain ⟨i, place⟩ := Nat.exists_eq_succ_of_ne_zero (Nat.ne_zero_of_lt later)
  obtain ⟨d, previous, apart⟩ := call.before_apart place.symm
  by_cases inWord : call.before.length ≤ before.length + w.1.length
  · have inside : i - before.length < w.1.length := by omega
    rw [here, List.getElem?_append_right (by omega), List.getElem?_append_left inside] at previous
    rw [w.2.2 d (List.mem_of_getElem? previous)] at apart
    cases apart
  · rw [here, List.getElem?_append_right (by omega), List.getElem?_append_right (by omega)] at at_
    by_cases inSpace : call.before.length - before.length - w.1.length < space.length
    · rw [List.getElem?_append_left inSpace] at at_
      rw [isWord_of_isSpace (white c (List.mem_of_getElem? at_))] at word
      cases word
    · have end_ : call.before.length - before.length - w.1.length = space.length := by omega
      rw [end_, List.getElem?_append_right (Nat.le_refl _), Nat.sub_self] at at_
      cases at_
      cases word

def Found (env : List (Text × MacroDef)) (before t : Text) : Option Text → Prop
  | none => ∀ call : Call env, call.text = before ++ t → call.before.length < before.length
  | some u => ∃ call : Call env, call.text = before ++ t ∧ u = call.expansion ∧
      ∀ other : Call env, other.text = before ++ t → before.length ≤ other.before.length →
        call.before.length ≤ other.before.length

theorem Found.later {c : Char} {found : Option Text} (later : Found env (before ++ [c]) t found)
    (apart : ∀ call : Call env, call.text = before ++ c :: t → call.before.length ≠ before.length) :
    Found env before (c :: t) found := by
  have whole : before ++ [c] ++ t = before ++ c :: t := by rw [List.append_assoc, List.singleton_append]
  cases found with
  | none =>
    intro call here
    have other := apart call here
    have short := later call (by rw [here, whole])
    rw [List.length_append, List.length_singleton] at short
    omega
  | some u =>
    obtain ⟨call, here, is, first⟩ := later
    refine ⟨call, by rw [here, whole], is, fun other there behind => ?_⟩
    have beyond := apart other there
    refine first other (by rw [there, whole]) ?_
    rw [List.length_append, List.length_singleton]
    omega

theorem no_call {w : Word} {space : Text} (parts : t = w.1 ++ (space ++ '(' :: u))
    (white : ∀ c ∈ space, isSpace c = true)
    (apart : ∀ call : Call env, call.text = before ++ t → call.before.length ≠ before.length)
    (boundary : before.getLast?.all (fun d => !isWord d) = true) (macro_ : MacroDef) (close : Nat)
    (known : InsertionMap.lookup env w.1 = some macro_) : matchParen ('(' :: u) ≠ some close := by
  intro found
  obtain ⟨body, after, rfl, -, balanced⟩ := matchParen_some found
  have limit : ∀ c ∈ before.getLast?, isWord c = false := by
    intro c last
    rw [last] at boundary
    simpa using boundary
  let call : Call env := ⟨before, w, space, body, after, macro_, limit, white, balanced, known⟩
  refine apart call ?_ rfl
  rw [parts]
  rfl

theorem expandFrom_found (skip : Nat) (before t : Text)
    (passed : ∀ call : Call env, call.text = before ++ t → before.length ≤ call.before.length →
      before.length + skip ≤ call.before.length) :
    Found env before t (expandFrom env before skip t) := by
  induction t generalizing before skip with
  | nil =>
    intro call here
    obtain ⟨c, rest, shape⟩ := call.rest_cons
    have length := congrArg List.length here
    rw [Call.text, shape, List.append_nil, List.length_append, List.length_cons] at length
    omega
  | cons c t ih =>
    have whole : before ++ [c] ++ t = before ++ c :: t := by rw [List.append_assoc, List.singleton_append]
    have longer : (before ++ [c]).length = before.length + 1 := by
      rw [List.length_append, List.length_singleton]
    cases skip with
    | succ skip =>
      have apart : ∀ call : Call env, call.text = before ++ c :: t → call.before.length ≠ before.length := by
        intro call here same
        have far := passed call here (by omega)
        omega
      refine Found.later (ih skip (before ++ [c]) fun call here behind => ?_) apart
      rw [longer] at behind ⊢
      have far := passed call (by rw [here, whole]) (by omega)
      omega
    | zero =>
      by_cases here : ∃ call : Call env, call.text = before ++ c :: t ∧ call.before.length = before.length
      · obtain ⟨call, here, length⟩ := here
        obtain ⟨start, rest⟩ := Call.of_rest here length
        have found := expandFrom_call call
        rw [start, rest] at found
        rw [found]
        exact ⟨call, here, rfl, fun other _ behind => by omega⟩
      · have apart : ∀ call : Call env, call.text = before ++ c :: t →
            call.before.length ≠ before.length := fun call at_ same => here ⟨call, at_, same⟩
        rw [expandFrom]
        split
        · refine Found.later (ih 0 (before ++ [c]) fun call _ behind => behind) apart
        · next name rest found =>
          split at found
          · next boundary =>
            obtain ⟨w, space, u, rfl, rfl, parts, white⟩ := callPattern_some found
            have goes : Found env before (c :: t)
                (expandFrom env (before ++ [c]) (t.length + 1 - ('(' :: u).length) t) := by
              refine Found.later (ih _ (before ++ [c]) fun call at_ behind => ?_) apart
              rw [whole, parts] at at_
              rw [longer] at behind ⊢
              have far := Call.beyond_match white at_ (by omega)
              have length := congrArg List.length parts
              simp only [List.length_append, List.length_cons] at length ⊢
              omega
            split
            · next macro_ close known close_ =>
              exact absurd close_ (no_call parts white apart boundary macro_ close known)
            · exact goes
          · cases found

/-! ### The passes -/

theorem expandFrom_none : expandFrom env [] 0 t = none → Done env t := by
  intro none_ call here
  have found : Found env [] t (expandFrom env [] 0 t) :=
    expandFrom_found 0 [] t fun call _ behind => behind
  rw [none_] at found
  exact Nat.not_lt_zero _ (found call here)

theorem expandFrom_first (found : expandFrom env [] 0 t = some u) : ExpandsFirst env t u := by
  have first : Found env [] t (expandFrom env [] 0 t) :=
    expandFrom_found 0 [] t fun call _ behind => behind
  rw [found] at first
  obtain ⟨call, here, is, least⟩ := first
  exact ⟨call, here, call.rewritten_iff.mpr is, fun other there => least other there (Nat.zero_le _)⟩

theorem ExpandsFirst.unique {v : Text} (left : ExpandsFirst env t u) (right : ExpandsFirst env t v) : u = v := by
  obtain ⟨call, here, rewritten, least⟩ := left
  obtain ⟨other, there, rewritten', least'⟩ := right
  have length : call.before.length = other.before.length :=
    Nat.le_antisymm (least other there) (least' call here)
  obtain ⟨start, rest⟩ := Call.of_rest (here.trans there.symm) length
  have found := expandFrom_call call
  rw [start, rest, expandFrom_call other] at found
  rw [call.rewritten_iff] at rewritten
  rw [other.rewritten_iff] at rewritten'
  rw [rewritten, rewritten', Option.some.inj found]

theorem expandFrom_iff : expandFrom env [] 0 t = some u ↔ ExpandsFirst env t u := by
  constructor
  · exact expandFrom_first
  · intro first
    cases found : expandFrom env [] 0 t with
    | none =>
      obtain ⟨call, here, -⟩ := first
      exact absurd here (expandFrom_none found call)
    | some v => rw [(expandFrom_first found).unique first]

theorem ExpandsFirst.expands (first : ExpandsFirst env t u) : Expands env t u := by
  obtain ⟨call, here, rewritten, -⟩ := first
  exact ⟨call, here, rewritten⟩

theorem expandPasses_expands (n : Nat) (t : Text) :
    Relation.ReflTransGen (Expands env) t (expandPasses env n t) := by
  induction n generalizing t with
  | zero => exact .refl
  | succ n ih =>
    rw [expandPasses]
    cases found : expandFrom env [] 0 t with
    | none => exact .refl
    | some u => exact .head (expandFrom_first found).expands (ih u)

theorem expandPasses_done (n : Nat) (t : Text) :
    Done env (expandPasses env n t) ↔ DoneWithin env n t := by
  constructor
  · intro none_
    induction n generalizing t with
    | zero => exact .done none_
    | succ n ih =>
      rw [expandPasses] at none_
      cases found : expandFrom env [] 0 t with
      | none => exact .done (expandFrom_none found)
      | some u =>
        rw [found] at none_
        exact .next (expandFrom_first found) (ih u none_)
  · intro within
    induction within with
    | @done n t none_ =>
      cases n with
      | zero => exact none_
      | succ n =>
        rw [expandPasses]
        cases found : expandFrom env [] 0 t with
        | none => exact none_
        | some u =>
          obtain ⟨call, here, -⟩ := expandFrom_first found
          exact absurd here (none_ call)
    | next first later ih => rw [expandPasses, expandFrom_iff.mpr first]; exact ih

/-- A text is fully expanded exactly if rewriting its first call, time after time, is done after six
rewritings. -/
theorem expandMacroCalls_expanded_iff (text : Text) (env : List (Text × MacroDef)) :
    Expanded env text (expandMacroCalls text env) ↔ DoneWithin env 6 text := by
  by_cases empty : env = []
  · have none_ : Done env text := by
      intro call
      have known := call.known
      simp only [empty] at known
      cases known
    rw [expandMacroCalls, if_pos empty]
    exact ⟨fun _ => .done none_, fun _ => ⟨.refl, none_⟩⟩
  · rw [expandMacroCalls, if_neg empty]
    exact ⟨fun full => (expandPasses_done 6 text).mp full.2,
      fun within => ⟨expandPasses_expands 6 text, (expandPasses_done 6 text).mpr within⟩⟩

/-- The seventh of seven calls side by side is left. -/
theorem expandMacroCalls_leaves_seventh :
    ¬Expanded [(['F'], ⟨[['x']], ['x']⟩)] "F(1),F(1),F(1),F(1),F(1),F(1),F(1)".toList
      (expandMacroCalls "F(1),F(1),F(1),F(1),F(1),F(1),F(1)".toList [(['F'], ⟨[['x']], ['x']⟩)]) := by
  have result : expandMacroCalls "F(1),F(1),F(1),F(1),F(1),F(1),F(1)".toList [(['F'], ⟨[['x']], ['x']⟩)] =
      "1,1,1,1,1,1,F(1)".toList := by decide
  have balanced : Balanced ['1'] := by
    refine ⟨rfl, fun a part => ?_⟩
    have short : a = [] ∨ a = ['1'] := by
      rcases a with _ | ⟨c, a⟩
      · exact Or.inl rfl
      · obtain ⟨rfl, rest⟩ := List.cons_prefix_cons.mp part
        rw [List.prefix_nil.mp rest]
        exact Or.inr rfl
    rcases short with rfl | rfl <;> decide
  let call : Call [(['F'], ⟨[['x']], ['x']⟩)] :=
    ⟨"1,1,1,1,1,1,".toList, ⟨['F'], by decide⟩, [], ['1'], [], ⟨[['x']], ['x']⟩, by decide, by decide,
      balanced, rfl⟩
  rw [result]
  exact fun full => full.2 call rfl

end CodeGraph.Resolution.Macros
