import CodeGraph.Resolution.GoBuildTokens

/-!
# The grammar of constraints

What an expression is and means, and that the recursive descent reads exactly that: it is sound by
induction on its fuel, and complete by induction on the derivation.
-/
namespace CodeGraph.Resolution.GoBuild

abbrev Meaning := (String → Bool) → Bool

inductive Level where
  | or
  | and
  | not

/-- The words of the grammar, from the operator that binds least to the one that binds most. -/
inductive Reads : Level → List String → Meaning → Prop
  | and {w : List String} {φ : Meaning} : Reads .and w φ → Reads .or w φ
  | orMore {v w : List String} {φ ψ : Meaning} : Reads .or v φ → Reads .and w ψ →
      Reads .or (v ++ "||" :: w) fun h => φ h || ψ h
  | not {w : List String} {φ : Meaning} : Reads .not w φ → Reads .and w φ
  | andMore {v w : List String} {φ ψ : Meaning} : Reads .and v φ → Reads .not w ψ →
      Reads .and (v ++ "&&" :: w) fun h => φ h && ψ h
  | negation {w : List String} {φ : Meaning} : Reads .not w φ → Reads .not ("!" :: w) fun h => !φ h
  | parens {w : List String} {φ : Meaning} : Reads .or w φ → Reads .not ("(" :: w ++ [")"]) φ
  | tag {token : String} : Tag token → Reads .not [token] fun h => h token

theorem Reads.legal {level : Level} {w : List String} {φ : Meaning} (reads : Reads level w φ) :
    ∀ token ∈ w, token ∈ operators ∨ Tag token := by
  have listed {op : String} (op_ : op ∈ operators) : op ∈ operators ∨ Tag op := .inl op_
  induction reads with
  | and _ ih => exact ih
  | not _ ih => exact ih
  | orMore _ _ left right =>
    simp only [List.mem_append, List.mem_cons]
    rintro token (first | rfl | later)
    · exact left token first
    · exact listed (by decide)
    · exact right token later
  | andMore _ _ left right =>
    simp only [List.mem_append, List.mem_cons]
    rintro token (first | rfl | later)
    · exact left token first
    · exact listed (by decide)
    · exact right token later
  | negation _ ih =>
    rw [List.forall_mem_cons]
    exact ⟨listed (by decide), ih⟩
  | parens _ ih =>
    simp only [List.cons_append, List.mem_cons, List.mem_append, List.not_mem_nil, or_false]
    rintro token (rfl | inner | rfl)
    · exact listed (by decide)
    · exact ih token inner
    · exact listed (by decide)
  | tag tagged =>
    intro token single
    rw [List.mem_singleton.mp single]
    exact .inr tagged

theorem Reads.nonempty {level : Level} {w : List String} {φ : Meaning} (reads : Reads level w φ) :
    w ≠ [] := by
  induction reads with
  | and _ ih => exact ih
  | not _ ih => exact ih
  | orMore _ _ left _ => exact List.append_ne_nil_of_left_ne_nil left _
  | andMore _ _ left _ => exact List.append_ne_nil_of_left_ne_nil left _
  | negation _ _ => exact List.cons_ne_nil _ _
  | parens _ _ => exact List.cons_ne_nil _ _
  | tag _ => exact List.cons_ne_nil _ _

def BuildExpr.means : BuildExpr → Meaning
  | .tag name, h => h name
  | .not e, h => !e.means h
  | .and a b, h => a.means h && b.means h
  | .or a b, h => a.means h || b.means h

theorem BuildExpr.holds_eq (t : GoTarget) (e : BuildExpr) :
    e.holds t = e.means fun tag => goTagHolds tag t := by
  induction e with
  | tag name => rfl
  | not e ih => rw [holds, means, ih]
  | and a b left right => rw [holds, means, left, right]
  | or a b left right => rw [holds, means, left, right]

variable {fuel : Nat} {toks rest : List String} {e left : BuildExpr}

private theorem bind_ok {x : Parse} {f : BuildExpr × List String → Parse}
    {r : BuildExpr × List String} (ran : (x >>= f) = .ok r) : ∃ y, x = .ok y ∧ f y = .ok r := by
  cases x with
  | error _ => cases ran
  | ok y => exact ⟨y, rfl, ran⟩

private theorem cons_of_head {token : String} (first : toks.head? = some token) :
    toks = token :: toks.tail := by
  cases toks with
  | nil => cases first
  | cons other toks =>
    cases first
    rfl

/-- What the parsers have read is a word of the grammar, and their expression means what it means. -/
private structure Sound (fuel : Nat) : Prop where
  or : ∀ {toks e rest}, parseOr fuel toks = .ok (e, rest) →
    ∃ w, toks = w ++ rest ∧ Reads .or w e.means
  orLoop : ∀ {left toks e rest v}, Reads .or v left.means → orLoop fuel left toks = .ok (e, rest) →
    ∃ w, toks = w ++ rest ∧ Reads .or (v ++ w) e.means
  and : ∀ {toks e rest}, parseAnd fuel toks = .ok (e, rest) →
    ∃ w, toks = w ++ rest ∧ Reads .and w e.means
  andLoop : ∀ {left toks e rest v}, Reads .and v left.means → andLoop fuel left toks = .ok (e, rest) →
    ∃ w, toks = w ++ rest ∧ Reads .and (v ++ w) e.means
  not : ∀ {toks e rest}, parseNot fuel toks = .ok (e, rest) →
    ∃ w, toks = w ++ rest ∧ Reads .not w e.means

private theorem sound (fuel : Nat) : Sound fuel := by
  induction fuel with
  | zero =>
    constructor
    · intro toks e rest ran
      cases ran
    · intro left toks e rest v _ ran
      cases ran
    · intro toks e rest ran
      cases ran
    · intro left toks e rest v _ ran
      cases ran
    · intro toks e rest ran
      cases ran
  | succ fuel ih =>
    constructor
    · intro toks e rest ran
      rw [parseOr] at ran
      obtain ⟨⟨left, later⟩, first, loop⟩ := bind_ok ran
      obtain ⟨v, rfl, reads⟩ := ih.and first
      obtain ⟨w, rfl, all⟩ := ih.orLoop reads.and loop
      exact ⟨v ++ w, (List.append_assoc v w rest).symm, all⟩
    · intro left toks e rest v reads ran
      rw [orLoop] at ran
      split at ran
      next more =>
        obtain ⟨⟨right, later⟩, first, loop⟩ := bind_ok ran
        obtain ⟨w, split, reads'⟩ := ih.and first
        obtain ⟨u, rfl, all⟩ := ih.orLoop (reads.orMore reads') loop
        refine ⟨"||" :: w ++ u, ?_, by simpa using all⟩
        rw [cons_of_head more, split]
        simp
      next =>
        cases ran
        exact ⟨[], rfl, by simpa using reads⟩
    · intro toks e rest ran
      rw [parseAnd] at ran
      obtain ⟨⟨left, later⟩, first, loop⟩ := bind_ok ran
      obtain ⟨v, rfl, reads⟩ := ih.not first
      obtain ⟨w, rfl, all⟩ := ih.andLoop reads.not loop
      exact ⟨v ++ w, (List.append_assoc v w rest).symm, all⟩
    · intro left toks e rest v reads ran
      rw [andLoop] at ran
      split at ran
      next more =>
        obtain ⟨⟨right, later⟩, first, loop⟩ := bind_ok ran
        obtain ⟨w, split, reads'⟩ := ih.not first
        obtain ⟨u, rfl, all⟩ := ih.andLoop (reads.andMore reads') loop
        refine ⟨"&&" :: w ++ u, ?_, by simpa using all⟩
        rw [cons_of_head more, split]
        simp
      next =>
        cases ran
        exact ⟨[], rfl, by simpa using reads⟩
    · intro toks e rest ran
      cases toks with
      | nil => cases ran
      | cons token toks =>
        rw [parseNot] at ran
        split at ran
        next bang =>
          obtain ⟨⟨inner, later⟩, first, done⟩ := bind_ok ran
          cases done
          obtain ⟨w, rfl, reads⟩ := ih.not first
          exact ⟨"!" :: w, by rw [bang, List.cons_append], reads.negation⟩
        next =>
          split at ran
          next open_ =>
            obtain ⟨⟨inner, later⟩, first, done⟩ := bind_ok ran
            obtain ⟨w, rfl, reads⟩ := ih.or first
            dsimp only at done
            split at done
            next close =>
              cases done
              refine ⟨"(" :: w ++ [")"], ?_, reads.parens⟩
              have shape := cons_of_head close
              rw [open_, List.cons_append, List.cons_append, List.append_assoc, List.singleton_append,
                ← shape]
            next => cases done
          next =>
            split at ran
            next tagged =>
              cases ran
              exact ⟨[token], rfl, .tag (isTag_iff.mp tagged)⟩
            next => cases ran

theorem parseOr_sound (ran : parseOr fuel toks = .ok (e, rest)) :
    ∃ w, toks = w ++ rest ∧ Reads .or w e.means := (sound fuel).or ran

/-! ### Fuel -/

/-- A run that did not end for want of fuel does not change with more. -/
private def Settled (a b : Parse) : Prop := a = .error .fuel ∨ a = b

private theorem Settled.bind {a b : Parse} {f g : BuildExpr × List String → Parse}
    (first : Settled a b) (later : ∀ r, Settled (f r) (g r)) : Settled (a >>= f) (b >>= g) := by
  rcases first with rfl | rfl
  · exact .inl rfl
  · cases a with
    | error _ => exact .inr rfl
    | ok r => exact later r

private structure Steady (fuel : Nat) : Prop where
  or : ∀ toks, Settled (parseOr fuel toks) (parseOr (fuel + 1) toks)
  orLoop : ∀ left toks, Settled (orLoop fuel left toks) (orLoop (fuel + 1) left toks)
  and : ∀ toks, Settled (parseAnd fuel toks) (parseAnd (fuel + 1) toks)
  andLoop : ∀ left toks, Settled (andLoop fuel left toks) (andLoop (fuel + 1) left toks)
  not : ∀ toks, Settled (parseNot fuel toks) (parseNot (fuel + 1) toks)

private theorem steady (fuel : Nat) : Steady fuel := by
  induction fuel with
  | zero => exact ⟨fun _ => .inl rfl, fun _ _ => .inl rfl, fun _ => .inl rfl, fun _ _ => .inl rfl,
      fun _ => .inl rfl⟩
  | succ fuel ih =>
    constructor
    · intro toks
      rw [parseOr, parseOr]
      exact (ih.and toks).bind fun r => ih.orLoop r.1 r.2
    · intro left toks
      rw [orLoop, orLoop]
      split
      next => exact (ih.and _).bind fun r => ih.orLoop _ _
      next => exact .inr rfl
    · intro toks
      rw [parseAnd, parseAnd]
      exact (ih.not toks).bind fun r => ih.andLoop r.1 r.2
    · intro left toks
      rw [andLoop, andLoop]
      split
      next => exact (ih.not _).bind fun r => ih.andLoop _ _
      next => exact .inr rfl
    · intro toks
      cases toks with
      | nil => exact .inr rfl
      | cons token toks =>
        rw [parseNot, parseNot]
        split
        next => exact (ih.not _).bind fun r => .inr rfl
        next =>
          split
          next => exact (ih.or _).bind fun r => .inr rfl
          next => exact .inr rfl

private theorem parseOr_more {more : Nat} (le : fuel ≤ more)
    (enough : parseOr fuel toks ≠ .error .fuel) : parseOr more toks = parseOr fuel toks := by
  induction le with
  | refl => rfl
  | step _ ih =>
    rcases (steady _).or toks with ended | same
    · exact absurd (ih.symm.trans ended) enough
    · rw [← same, ih]

private theorem bind_ends {x : Parse} {f : BuildExpr × List String → Parse}
    (first : x ≠ .error .fuel) (later : ∀ y, x = .ok y → f y ≠ .error .fuel) :
    (x >>= f) ≠ .error .fuel := by
  cases x with
  | error _ => exact first
  | ok y => exact later y rfl

private theorem shorter {level : Level} {w toks rest : List String} {φ : Meaning}
    (reads : Reads level w φ) (split : toks = w ++ rest) : rest.length < toks.length := by
  have positive := List.length_pos_of_ne_nil reads.nonempty
  rw [split, List.length_append]
  omega

private theorem length_tail {token : String} (first : toks.head? = some token) :
    toks.tail.length + 1 = toks.length := by
  rw [cons_of_head first]
  rfl

private structure Enough (fuel : Nat) : Prop where
  or : ∀ toks, 4 * toks.length + 3 ≤ fuel → parseOr fuel toks ≠ .error .fuel
  orLoop : ∀ left toks, 4 * toks.length + 1 ≤ fuel → orLoop fuel left toks ≠ .error .fuel
  and : ∀ toks, 4 * toks.length + 2 ≤ fuel → parseAnd fuel toks ≠ .error .fuel
  andLoop : ∀ left toks, 4 * toks.length + 1 ≤ fuel → andLoop fuel left toks ≠ .error .fuel
  not : ∀ toks, 4 * toks.length + 1 ≤ fuel → parseNot fuel toks ≠ .error .fuel

private theorem enough (fuel : Nat) : Enough fuel := by
  induction fuel with
  | zero =>
    constructor
    all_goals
      intros
      omega
  | succ fuel ih =>
    constructor
    · intro toks room
      rw [parseOr]
      refine bind_ends (ih.and toks (by omega)) fun y ran => ih.orLoop _ _ ?_
      obtain ⟨w, split, reads⟩ := (sound fuel).and ran
      have less := shorter reads split
      omega
    · intro left toks room
      rw [orLoop]
      split
      next more =>
        have size := length_tail more
        refine bind_ends (ih.and _ (by omega)) fun y ran => ih.orLoop _ _ ?_
        obtain ⟨w, split, reads⟩ := (sound fuel).and ran
        have less := shorter reads split
        omega
      next => exact fun ended => nomatch ended
    · intro toks room
      rw [parseAnd]
      refine bind_ends (ih.not toks (by omega)) fun y ran => ih.andLoop _ _ ?_
      obtain ⟨w, split, reads⟩ := (sound fuel).not ran
      have less := shorter reads split
      omega
    · intro left toks room
      rw [andLoop]
      split
      next more =>
        have size := length_tail more
        refine bind_ends (ih.not _ (by omega)) fun y ran => ih.andLoop _ _ ?_
        obtain ⟨w, split, reads⟩ := (sound fuel).not ran
        have less := shorter reads split
        omega
      next => exact fun ended => nomatch ended
    · intro toks room
      cases toks with
      | nil => exact fun ended => nomatch ended
      | cons token toks =>
        rw [List.length_cons] at room
        rw [parseNot]
        split
        next => exact bind_ends (ih.not _ (by omega)) fun y _ ended => nomatch ended
        next =>
          split
          next =>
            refine bind_ends (ih.or _ (by omega)) fun y _ => ?_
            dsimp only
            split
            next => exact fun ended => nomatch ended
            next => exact fun ended => nomatch ended
          next =>
            split
            next => exact fun ended => nomatch ended
            next => exact fun ended => nomatch ended

/-- The fuel of the program is enough. -/
theorem parseOr_ends (toks : List String) :
    parseOr (4 * toks.length + 3) toks ≠ .error .fuel := (enough _).or toks (Nat.le_refl _)

/-! ### Completeness -/

/-- What a parser returns once its fuel is large enough. -/
private def Eventually (run : Nat → Parse) (r : Parse) : Prop :=
  ∃ least, ∀ fuel, least ≤ fuel → run fuel = r

private theorem Eventually.next {run call : Nat → Parse} {r : Parse} (called : Eventually call r)
    (step : ∀ fuel, run (fuel + 1) = call fuel) : Eventually run r := by
  obtain ⟨least, later⟩ := called
  refine ⟨least + 1, fun fuel le => ?_⟩
  obtain ⟨more, rfl⟩ := Nat.exists_eq_add_of_le le
  rw [Nat.add_right_comm, step, later _ (Nat.le_add_right _ _)]

private theorem Eventually.bind {run : Nat → Parse} {f : Nat → BuildExpr × List String → Parse}
    {y : BuildExpr × List String} {r : Parse} (first : Eventually run (.ok y))
    (later : Eventually (f · y) r) : Eventually (fun fuel => run fuel >>= f fuel) r := by
  obtain ⟨m, ran⟩ := first
  obtain ⟨n, went⟩ := later
  refine ⟨max m n, fun fuel le => ?_⟩
  dsimp only
  rw [ran fuel (Nat.le_trans (Nat.le_max_left m n) le)]
  exact went fuel (Nat.le_trans (Nat.le_max_right m n) le)

private theorem Eventually.const (r : Parse) : Eventually (fun _ => r) r := ⟨0, fun _ _ => rfl⟩

private theorem orLoop_stops {e : BuildExpr} (other : rest.head? ≠ some "||") :
    Eventually (orLoop · e rest) (.ok (e, rest)) :=
  (Eventually.const _).next fun fuel => by rw [orLoop, if_neg other]

private theorem andLoop_stops {e : BuildExpr} (other : rest.head? ≠ some "&&") :
    Eventually (andLoop · e rest) (.ok (e, rest)) :=
  (Eventually.const _).next fun fuel => by rw [andLoop, if_neg other]

/-- What a word of each level is parsed to, whatever follows; the words that begin a chain hand over
to the loop. -/
private def Complete : Level → List String → Meaning → Prop
  | .not, w, φ => ∀ rest, ∃ e : BuildExpr, e.means = φ ∧
      Eventually (parseNot · (w ++ rest)) (.ok (e, rest))
  | .and, w, φ => ∀ rest, ∃ e : BuildExpr, e.means = φ ∧ ∀ r,
      Eventually (andLoop · e rest) r → Eventually (parseAnd · (w ++ rest)) r
  | .or, w, φ => ∀ rest, rest.head? ≠ some "&&" → ∃ e : BuildExpr, e.means = φ ∧ ∀ r,
      Eventually (orLoop · e rest) r → Eventually (parseOr · (w ++ rest)) r

private theorem complete {level : Level} {w : List String} {φ : Meaning}
    (reads : Reads level w φ) : Complete level w φ := by
  induction reads with
  | and _ ih =>
    intro rest other
    obtain ⟨e, means, ran⟩ := ih rest
    refine ⟨e, means, fun r loop => ?_⟩
    exact ((ran _ (andLoop_stops other)).bind (f := fun fuel y => orLoop fuel y.1 y.2) loop).next
      fun fuel => by rw [parseOr]
  | @orMore v w φ ψ _ _ left right =>
    intro rest other
    obtain ⟨f, second, parsed⟩ := right rest
    obtain ⟨e, first, ran⟩ := left ("||" :: w ++ rest) (by simp)
    refine ⟨.or e f, funext fun h => by rw [BuildExpr.means, first, second], fun r loop => ?_⟩
    rw [List.append_assoc]
    apply ran
    exact ((parsed _ (andLoop_stops other)).bind
      (f := fun fuel y => orLoop fuel (.or e y.1) y.2) loop).next fun fuel => by
        rw [orLoop, if_pos (by rfl)]
        rfl
  | not _ ih =>
    intro rest
    obtain ⟨e, means, ran⟩ := ih rest
    refine ⟨e, means, fun r loop => ?_⟩
    exact (ran.bind (f := fun fuel y => andLoop fuel y.1 y.2) loop).next fun fuel => by rw [parseAnd]
  | @andMore v w φ ψ _ _ left right =>
    intro rest
    obtain ⟨f, second, parsed⟩ := right rest
    obtain ⟨e, first, ran⟩ := left ("&&" :: w ++ rest)
    refine ⟨.and e f, funext fun h => by rw [BuildExpr.means, first, second], fun r loop => ?_⟩
    rw [List.append_assoc]
    apply ran
    exact (parsed.bind (f := fun fuel y => andLoop fuel (.and e y.1) y.2) loop).next fun fuel => by
      rw [andLoop, if_pos (by rfl)]
      rfl
  | negation _ ih =>
    intro rest
    obtain ⟨e, means, ran⟩ := ih rest
    refine ⟨.not e, funext fun h => by rw [BuildExpr.means, means], ?_⟩
    exact (ran.bind (f := fun _ y => .ok (.not y.1, y.2)) (Eventually.const _)).next fun fuel => by
      rw [List.cons_append, parseNot, if_pos rfl]
  | @parens w φ _ ih =>
    intro rest
    obtain ⟨e, means, ran⟩ := ih (")" :: rest) (by simp)
    refine ⟨e, means, ?_⟩
    have inner := ran _ (orLoop_stops (by simp))
    have shape : "(" :: w ++ [")"] ++ rest = "(" :: (w ++ ")" :: rest) := by simp
    rw [shape]
    exact (inner.bind (f := fun _ y => if y.2.head? = some ")" then .ok (y.1, y.2.tail)
        else .error .rejected) (Eventually.const _)).next fun fuel => by
      rw [parseNot, if_neg (by decide), if_pos rfl]
  | @tag token tagged =>
    intro rest
    refine ⟨.tag token, rfl, (Eventually.const _).next fun fuel => ?_⟩
    have other : token ≠ "!" ∧ token ≠ "(" := by
      constructor
      · rintro rfl
        exact absurd (tagged.2 '!' (by decide)) (by decide)
      · rintro rfl
        exact absurd (tagged.2 '(' (by decide)) (by decide)
    rw [List.singleton_append, parseNot, if_neg other.1, if_neg other.2, if_pos (isTag_iff.mpr tagged)]

theorem parseOr_complete {φ : Meaning} (reads : Reads .or toks φ) :
    ∃ e : BuildExpr, e.means = φ ∧ parseOr (4 * toks.length + 3) toks = .ok (e, []) := by
  obtain ⟨e, means, ran⟩ := complete reads [] (by simp)
  obtain ⟨least, later⟩ := ran _ (orLoop_stops (by simp))
  refine ⟨e, means, ?_⟩
  have more := parseOr_more (Nat.le_max_right least (4 * toks.length + 3)) (parseOr_ends toks)
  rw [← more, ← later _ (Nat.le_max_left least (4 * toks.length + 3)), List.append_nil]

end CodeGraph.Resolution.GoBuild
