import CodeGraph.Resolution.JsonStringArray

/-!
# The reader against `JSON.parse`

Every text that `JSON.parse` reads as a list of strings is written as such a list, and so is what
`JSON.stringify` writes. The reader of the kernel agrees unless a surrogate pair is written by its
numbers.
-/
namespace CodeGraph.Resolution.JsonStringArray

open Text Utf16 RustText

def listValue (strings : List String) : Json := .arr (strings.map fun s => .str (utf16 s))

private theorem listValue_map (strings : List String) :
    listValue strings = .arr ((strings.map utf16).map .str) := by
  rw [listValue, List.map_map]
  rfl

/-! ### Units and characters -/

private theorem head_unit {d : Char} {v : UInt16} (single : charUnits d = [v]) (ascii : v.toNat < 0x80)
    {cs : List Char} {s : JsString} (same : cs.flatMap charUnits = v :: s) :
    ∃ rest, cs = d :: rest ∧ s = rest.flatMap charUnits := by
  cases cs with
  | nil => cases same
  | cons c rest =>
    rw [List.flatMap_cons] at same
    obtain ⟨u, tail, word⟩ : ∃ u tail, charUnits c = u :: tail :=
      List.exists_cons_of_ne_nil (synchronous.nonempty c)
    rw [word, List.cons_append, List.cons.injEq] at same
    have here : c = d := eq_of_mem_charUnits (word ▸ same.1 ▸ List.mem_cons_self) single ascii
    subst here
    rw [single, List.cons.injEq] at word
    rw [← word.2, List.nil_append] at same
    exact ⟨rest, rfl, same.2.symm⟩

private theorem hexValue_digit {u v : UInt16} (read : Json.hexValue u = some v) :
    u.toNat < 0x80 ∧ charUnits (Char.ofNat u.toNat) = [u] ∧
      hexDigit (Char.ofNat u.toNat) = some v.toNat := by
  have small : u.toNat < 0x80 := by
    simp only [Json.hexValue, Json.isDigit, Bool.and_eq_true, decide_eq_true_eq,
      UInt16.le_iff_toNat_le] at read
    have nine : (Json.unit '9').toNat = 57 ∧ (Json.unit 'f').toNat = 102 ∧
      (Json.unit 'F').toNat = 70 := by decide
    split at read
    next => omega
    next =>
      split at read
      next => omega
      next =>
        split at read
        next => omega
        next => cases read
  have all : ∀ n < 128, charUnits (Char.ofNat n) = [UInt16.ofNat n] ∧
      hexDigit (Char.ofNat n) = (Json.hexValue (UInt16.ofNat n)).map UInt16.toNat := by
    decide +kernel
  obtain ⟨word, digit⟩ := all u.toNat small
  rw [UInt16.ofNat_toNat] at word digit
  rw [digit, read]
  exact ⟨small, word, rfl⟩

/-- What `JSON.parse` takes a unit for after a backslash. -/
private def shortValue (e : UInt16) : Option UInt16 :=
  if e == Json.unit '"' || e == Json.unit '\\' || e == Json.unit '/' then some e
  else if e == Json.unit 'b' then some 8
  else if e == Json.unit 'f' then some 12
  else if e == Json.unit 'n' then some 10
  else if e == Json.unit 'r' then some 13
  else if e == Json.unit 't' then some 9
  else none

private theorem shortValue_char {e v : UInt16} (read : shortValue e = some v) :
    ∃ c : Char, charUnits c = [e] ∧ e.toNat < 0x80 ∧ c ≠ 'u' ∧ charUnits (unescape c) = [v] := by
  simp only [shortValue, Bool.or_eq_true, beq_iff_eq] at read
  split at read
  next same =>
    cases read
    rcases same with (rfl | rfl) | rfl
    · exact ⟨'"', by decide, by decide, by decide, by decide⟩
    · exact ⟨'\\', by decide, by decide, by decide, by decide⟩
    · exact ⟨'/', by decide, by decide, by decide, by decide⟩
  next =>
    split at read
    next same =>
      cases read
      subst same
      exact ⟨'b', by decide, by decide, by decide, by decide⟩
    next =>
      split at read
      next same =>
        cases read
        subst same
        exact ⟨'f', by decide, by decide, by decide, by decide⟩
      next =>
        split at read
        next same =>
          cases read
          subst same
          exact ⟨'n', by decide, by decide, by decide, by decide⟩
        next =>
          split at read
          next same =>
            cases read
            subst same
            exact ⟨'r', by decide, by decide, by decide, by decide⟩
          next =>
            split at read
            next same =>
              cases read
              subst same
              exact ⟨'t', by decide, by decide, by decide, by decide⟩
            next => cases read

private theorem hexCode_of_values {a b c d : UInt16} {va vb vc vd : UInt16}
    (first : Json.hexValue a = some va) (second : Json.hexValue b = some vb)
    (third : Json.hexValue c = some vc) (fourth : Json.hexValue d = some vd) :
    ∃ n, hexCode (Char.ofNat a.toNat) (Char.ofNat b.toNat) (Char.ofNat c.toNat)
        (Char.ofNat d.toNat) = some n ∧
      va * 0x1000 + vb * 0x100 + vc * 0x10 + vd = UInt16.ofNat n := by
  refine ⟨((va.toNat * 16 + vb.toNat) * 16 + vc.toNat) * 16 + vd.toNat, ?_, ?_⟩
  · rw [hexCode, (hexValue_digit first).2.2, (hexValue_digit second).2.2,
      (hexValue_digit third).2.2, (hexValue_digit fourth).2.2]
    rfl
  · apply UInt16.toNat_inj.mp
    have nibbles : (0x1000 : UInt16).toNat = 0x1000 ∧ (0x100 : UInt16).toNat = 0x100 ∧
      (0x10 : UInt16).toNat = 0x10 := ⟨rfl, rfl, rfl⟩
    simp only [UInt16.toNat_add, UInt16.toNat_mul, UInt16.toNat_ofNat', nibbles]
    omega

private theorem short_of_branches {e : UInt16} {x : Option (JsString × JsString)}
    {r : JsString × JsString}
    (read : (do
      let v ← if e == Json.unit '"' || e == Json.unit '\\' || e == Json.unit '/' then some e
        else if e == Json.unit 'b' then some 8
        else if e == Json.unit 'f' then some 12
        else if e == Json.unit 'n' then some 10
        else if e == Json.unit 'r' then some 13
        else if e == Json.unit 't' then some 9
        else none
      let (rest, s) ← x
      return (v :: rest, s)) = some r) :
    ∃ v, shortValue e = some v ∧ ∃ later, x = some later ∧ some (v :: later.1, later.2) = some r := by
  have found {v : UInt16} (run : (x >>= fun later => some (v :: later.1, later.2)) = some r) :
      ∃ later, x = some later ∧ some (v :: later.1, later.2) = some r := Option.bind_eq_some_iff.mp run
  rw [shortValue]
  split at read
  next same => exact ⟨e, if_pos same, found read⟩
  next other =>
    rw [if_neg other]
    split at read
    next same => exact ⟨8, if_pos same, found read⟩
    next other =>
      rw [if_neg other]
      split at read
      next same => exact ⟨12, if_pos same, found read⟩
      next other =>
        rw [if_neg other]
        split at read
        next same => exact ⟨10, if_pos same, found read⟩
        next other =>
          rw [if_neg other]
          split at read
          next same => exact ⟨13, if_pos same, found read⟩
          next other =>
            rw [if_neg other]
            split at read
            next same => exact ⟨9, if_pos same, found read⟩
            next => cases read

private theorem escape_piece {fuel : Nat} {cs : List Char} {units rest : JsString} {goal : Prop}
    (put : ∀ (piece : Piece) {less : Nat} {after : List Char} {later : JsString × JsString},
      less < fuel + 1 → '\\' :: cs = piece.text ++ after →
      Json.stringRest less (after.flatMap charUnits) = some later →
      (units, rest) = (piece.units ++ later.1, later.2) → goal)
    (read : Json.stringRest (fuel + 1) (Json.unit '\\' :: cs.flatMap charUnits) =
      some (units, rest)) : goal := by
  have start : (Json.unit '\\' == Json.unit '"') = false ∧ ¬Json.unit '\\' < 0x20 ∧
    (Json.unit '\\' == Json.unit '\\') = true := by decide
  rw [Json.stringRest.eq_def] at read
  simp only [start, if_pos, Bool.false_eq_true, if_false] at read
  cases tail : cs.flatMap charUnits with
  | nil =>
    rw [tail] at read
    cases read
  | cons e s =>
    rw [tail] at read
    dsimp only at read
    split at read
    next letter =>
      rw [beq_iff_eq.mp letter] at tail
      obtain ⟨cs', rfl, rfl⟩ := head_unit (d := 'u') (by decide) (by decide) tail
      split at read
      next a b c d s digits =>
        obtain ⟨va, first, read⟩ := Option.bind_eq_some_iff.mp read
        obtain ⟨vb, second, read⟩ := Option.bind_eq_some_iff.mp read
        obtain ⟨vc, third, read⟩ := Option.bind_eq_some_iff.mp read
        obtain ⟨vd, fourth, read⟩ := Option.bind_eq_some_iff.mp read
        obtain ⟨later, read', same⟩ := Option.bind_eq_some_iff.mp read
        obtain ⟨small, word, _⟩ := hexValue_digit first
        obtain ⟨cs₁, rfl, tail₁⟩ := head_unit word small digits
        obtain ⟨small, word, _⟩ := hexValue_digit second
        obtain ⟨cs₂, rfl, tail₂⟩ := head_unit word small tail₁.symm
        obtain ⟨small, word, _⟩ := hexValue_digit third
        obtain ⟨cs₃, rfl, tail₃⟩ := head_unit word small tail₂.symm
        obtain ⟨small, word, _⟩ := hexValue_digit fourth
        obtain ⟨cs₄, rfl, rfl⟩ := head_unit word small tail₃.symm
        obtain ⟨n, code, value⟩ := hexCode_of_values first second third fourth
        refine put (.unicode _ _ _ _ n code) (Nat.lt_succ_self fuel) rfl read' ?_
        rw [Piece.units, ← value]
        exact (Option.some.inj same).symm
      next => cases read
    next other =>
      obtain ⟨v, short, later, read', same⟩ := short_of_branches read
      obtain ⟨c, word, small, letter, value⟩ := shortValue_char short
      obtain ⟨cs', rfl, rfl⟩ := head_unit word small tail
      refine put (.short c letter) (Nat.lt_succ_self fuel) rfl read' ?_
      rw [Piece.units, value]
      exact (Option.some.inj same).symm

private theorem surrogate_plain {u : UInt16} (surrogate : isHigh u = true ∨ isLow u = true) :
    (u == Json.unit '"') = false ∧ ¬u < 0x20 ∧ (u == Json.unit '\\') = false := by
  rw [isHigh_iff, isLow_iff] at surrogate
  have values : (Json.unit '"').toNat = 34 ∧ (Json.unit '\\').toNat = 92 ∧
    (0x20 : UInt16).toNat = 32 := by decide
  refine ⟨?_, ?_, ?_⟩
  · rw [beq_eq_false_iff_ne]
    rintro rfl
    omega
  · rw [UInt16.lt_iff_toNat_lt]
    omega
  · rw [beq_eq_false_iff_ne]
    rintro rfl
    omega

/-- A string of JSON is pieces. -/
private theorem pieces_of_stringRest {fuel : Nat} {cs : List Char} {units rest : JsString}
    (read : Json.stringRest fuel (cs.flatMap charUnits) = some (units, rest)) :
    ∃ pieces after, cs = textOf pieces ++ '"' :: after ∧ units = unitsOf pieces ∧
      rest = after.flatMap charUnits := by
  induction fuel using Nat.strong_induction_on generalizing cs units rest with
  | _ fuel ih =>
    -- What the induction gives for a piece before the rest.
    have put : ∀ (piece : Piece) {less : Nat} {after : List Char} {later : JsString × JsString},
        less < fuel → cs = piece.text ++ after →
        Json.stringRest less (after.flatMap charUnits) = some later →
        (units, rest) = (piece.units ++ later.1, later.2) →
        ∃ pieces after, cs = textOf pieces ++ '"' :: after ∧ units = unitsOf pieces ∧
          rest = after.flatMap charUnits := by
      rintro piece less after ⟨units', rest'⟩ lt split read' same
      cases same
      obtain ⟨pieces, last, rfl, rfl, rfl⟩ := ih less lt read'
      refine ⟨piece :: pieces, last, ?_, rfl, rfl⟩
      rw [split, textOf, textOf, List.flatMap_cons, List.append_assoc]
    cases fuel with
    | zero => cases read
    | succ fuel =>
      cases cs with
      | nil => cases read
      | cons c cs =>
        rcases charUnits_cases c with ⟨u, word, _⟩ | ⟨high, low, word, is_high, is_low, _⟩
        · have whole := read
          rw [List.flatMap_cons, word, List.singleton_append] at whole read
          rw [Json.stringRest.eq_def] at read
          dsimp only at read
          split at read
          next quote =>
            cases read
            have same : c = '"' := charUnits_injective (by rw [word, beq_iff_eq.mp quote]; rfl)
            exact ⟨[], cs, by rw [same]; rfl, rfl, rfl⟩
          next noQuote =>
            have quote : c ≠ '"' := by
              rintro rfl
              cases word
              exact noQuote rfl
            split at read
            next => cases read
            next =>
              split at read
              next backslash =>
                have same : c = '\\' := charUnits_injective (by rw [word, beq_iff_eq.mp backslash]; rfl)
                rw [beq_iff_eq.mp backslash] at whole
                subst same
                exact escape_piece put whole
              next noBackslash =>
                have backslash : c ≠ '\\' := by
                  rintro rfl
                  cases word
                  exact noBackslash rfl
                obtain ⟨later, read', same⟩ := Option.bind_eq_some_iff.mp read
                refine put (.plain c quote backslash) (Nat.lt_succ_self fuel) rfl read' ?_
                rw [Piece.units, word]
                exact (Option.some.inj same).symm
        · -- Both halves of a pair stand for themselves.
          have first := surrogate_plain (.inl is_high)
          have second := surrogate_plain (.inr is_low)
          rw [List.flatMap_cons, word, List.cons_append, List.singleton_append,
            Json.stringRest_plain fuel first.1 first.2.1 first.2.2] at read
          obtain ⟨later, read', same⟩ := Option.map_eq_some_iff.mp read
          cases fuel with
          | zero => cases read'
          | succ fuel =>
            rw [Json.stringRest_plain fuel second.1 second.2.1 second.2.2] at read'
            obtain ⟨last, read'', rfl⟩ := Option.map_eq_some_iff.mp read'
            have other : c ≠ '"' ∧ c ≠ '\\' := by
              constructor
              · rintro rfl
                cases word
              · rintro rfl
                cases word
            refine put (.plain c other.1 other.2) (by omega) rfl read'' ?_
            rw [Piece.units, word]
            exact same.symm

/-! ### Lists -/

private theorem isSpace_iff {c : Char} {u : UInt16} {tail : JsString} (word : charUnits c = u :: tail) :
    Json.isSpace u = isBlank c := by
  have single : ∀ d ∈ [' ', '\t', '\n', '\r'], charUnits d = [Json.unit d] ∧
      (Json.unit d).toNat < 0x80 := by decide
  have same : ∀ d ∈ [' ', '\t', '\n', '\r'], (u == Json.unit d) = (c == d) := by
    intro d listed
    rw [Bool.eq_iff_iff, beq_iff_eq, beq_iff_eq]
    constructor
    · rintro rfl
      exact eq_of_mem_charUnits (word ▸ List.mem_cons_self) (single d listed).1 (single d listed).2
    · rintro rfl
      rw [(single c listed).1, List.cons.injEq] at word
      exact word.1.symm
  rw [Json.isSpace, isBlank, same ' ' (by decide), same '\t' (by decide), same '\n' (by decide),
    same '\r' (by decide)]

/-- White space of JSON is skipped by characters. -/
private theorem skipSpace_eq (cs : List Char) :
    Json.skipSpace (cs.flatMap charUnits) = (cs.dropWhile isBlank).flatMap charUnits := by
  induction cs with
  | nil => rfl
  | cons c cs ih =>
    obtain ⟨u, tail, word⟩ := List.exists_cons_of_ne_nil (synchronous.nonempty c)
    have test := isSpace_iff word
    rw [Json.skipSpace, List.flatMap_cons, word, List.cons_append, List.dropWhile_cons,
      List.dropWhile_cons, test]
    cases blank : isBlank c with
    | true =>
      -- A blank is one unit.
      have alone : tail = [] := by
        rw [isBlank] at blank
        simp only [Bool.or_eq_true, beq_iff_eq] at blank
        rcases blank with ((rfl | rfl) | rfl) | rfl
        · exact (List.cons.inj word).2.symm
        · exact (List.cons.inj word).2.symm
        · exact (List.cons.inj word).2.symm
        · exact (List.cons.inj word).2.symm
      rw [alone, List.nil_append, if_pos rfl, if_pos rfl, ← ih]
      rfl
    | false =>
      rw [if_neg Bool.false_ne_true, if_neg Bool.false_ne_true, List.flatMap_cons, word,
        List.cons_append]

private def gapOf (cs : List Char) : Gap where
  text := cs.takeWhile isBlank
  blank _ listed := List.mem_takeWhile_imp listed

private theorem gapOf_append (cs : List Char) :
    cs = (gapOf cs).text ++ cs.dropWhile isBlank := List.takeWhile_append_dropWhile.symm

private theorem value_cases {fuel : Nat} {s rest : JsString} {v : Json}
    (read : Json.value fuel s = some (v, rest)) :
    (∃ s' t, s = Json.unit '"' :: s' ∧ v = .str t ∧
      Json.stringRest s'.length.succ s' = some (t, rest)) ∨
    (∃ s' items less, s = Json.unit '[' :: s' ∧ v = .arr items ∧
      (Json.skipSpace s' = Json.unit ']' :: rest ∧ items = [] ∨
        Json.elements less (Json.skipSpace s') = some (items, rest))) ∨
    (∀ t, v ≠ .str t) ∧ ∀ items, v ≠ .arr items := by
  have literal {word : String} {w : Json} {s : JsString}
      (found : Json.literal word w s = some (v, rest)) : w = v := by
    rw [Json.literal, Option.ite_none_right_eq_some, Option.some.injEq, Prod.mk.injEq] at found
    exact found.2.1
  cases fuel with
  | zero => cases read
  | succ fuel =>
    cases s with
    | nil => cases read
    | cons u s =>
      rw [Json.value.eq_def] at read
      dsimp only at read
      split at read
      next quote =>
        obtain ⟨later, found, same⟩ := Option.map_eq_some_iff.mp read
        cases same
        exact .inl ⟨s, _, by rw [beq_iff_eq.mp quote], rfl, found⟩
      next =>
        split at read
        next bracket =>
          refine .inr (.inl ?_)
          split at read
          next w rest' blank =>
            split at read
            next close =>
              cases read
              rw [beq_iff_eq.mp close] at blank
              exact ⟨s, [], fuel, by rw [beq_iff_eq.mp bracket], rfl, .inl ⟨blank, rfl⟩⟩
            next =>
              obtain ⟨⟨items, later⟩, found, same⟩ := Option.map_eq_some_iff.mp read
              cases same
              rw [← blank] at found
              exact ⟨s, items, fuel, by rw [beq_iff_eq.mp bracket], rfl, .inr found⟩
          next => cases read
        next =>
          refine .inr (.inr ?_)
          split at read
          next =>
            split at read
            next =>
              split at read
              next =>
                cases read
                exact ⟨fun _ same => (nomatch same), fun _ same => (nomatch same)⟩
              next =>
                obtain ⟨_, _, same⟩ := Option.map_eq_some_iff.mp read
                cases same
                exact ⟨fun _ same => (nomatch same), fun _ same => (nomatch same)⟩
            next => cases read
          next =>
            split at read
            next =>
              rw [← literal read]
              exact ⟨fun _ same => (nomatch same), fun _ same => (nomatch same)⟩
            next =>
              split at read
              next =>
                rw [← literal read]
                exact ⟨fun _ same => (nomatch same), fun _ same => (nomatch same)⟩
              next =>
                split at read
                next =>
                  rw [← literal read]
                  exact ⟨fun _ same => (nomatch same), fun _ same => (nomatch same)⟩
                next =>
                  obtain ⟨m, e, same⟩ := JsonTexts.number_value read
                  rw [show v = .num m e from same]
                  exact ⟨fun _ same => (nomatch same), fun _ same => (nomatch same)⟩

private theorem value_str {fuel : Nat} {s t rest : JsString}
    (read : Json.value fuel s = some (.str t, rest)) :
    ∃ s', s = Json.unit '"' :: s' ∧ Json.stringRest s'.length.succ s' = some (t, rest) := by
  rcases value_cases read with ⟨s', _, head, same, str⟩ | ⟨_, _, _, _, same, _⟩ | ⟨other, _⟩
  · cases same
    exact ⟨s', head, str⟩
  · cases same
  · exact absurd rfl (other t)

private theorem value_arr {fuel : Nat} {s rest : JsString} {items : List Json}
    (read : Json.value fuel s = some (.arr items, rest)) :
    ∃ s' less, s = Json.unit '[' :: s' ∧ (Json.skipSpace s' = Json.unit ']' :: rest ∧ items = [] ∨
      Json.elements less (Json.skipSpace s') = some (items, rest)) := by
  rcases value_cases read with ⟨_, _, _, same, _⟩ | ⟨s', _, less, head, same, list⟩ | ⟨_, other⟩
  · cases same
  · cases same
    exact ⟨s', less, head, list⟩
  · exact absurd rfl (other items)

private theorem item_of_value {fuel : Nat} {cs : List Char} {t rest : JsString}
    (read : Json.value fuel (Json.skipSpace (cs.flatMap charUnits)) = some (.str t, rest)) :
    ∃ item : Item, ∃ after, cs = item.text ++ after ∧ t = unitsOf item.pieces ∧
      Json.skipSpace rest = after.flatMap charUnits := by
  rw [skipSpace_eq] at read
  obtain ⟨s, head, str⟩ := value_str read
  obtain ⟨tail, first, rfl⟩ := head_unit (d := '"') (by decide) (by decide) head
  obtain ⟨pieces, last, rfl, rfl, rfl⟩ := pieces_of_stringRest str
  refine ⟨⟨gapOf cs, pieces, gapOf last⟩, last.dropWhile isBlank, ?_, rfl, skipSpace_eq last⟩
  conv_lhs => rw [gapOf_append cs, first, gapOf_append last]
  simp [Item.text]

private theorem items_of_elements {fuel : Nat} {cs : List Char} {strings : List JsString}
    {rest : JsString}
    (read : Json.elements fuel (cs.flatMap charUnits) = some (strings.map .str, rest)) :
    ∃ first items after, cs = itemsText first items ++ ']' :: after ∧
      strings = (Body.items first items).units ∧ rest = after.flatMap charUnits := by
  induction fuel generalizing cs strings rest with
  | zero => cases read
  | succ fuel ih =>
    rw [Json.elements, Option.bind_eq_bind, Option.bind_eq_some_iff] at read
    obtain ⟨⟨v, later⟩, first, read⟩ := read
    dsimp only at read
    cases tail : Json.skipSpace later with
    | nil =>
      rw [tail] at read
      cases read
    | cons u s =>
      rw [tail] at read
      dsimp only at read
      split at read
      next close =>
        rw [Option.pure_def, Option.some.injEq, Prod.mk.injEq] at read
        obtain ⟨one, rfl⟩ := read
        obtain ⟨t, others, rfl, value, none_⟩ := List.map_eq_cons_iff.mp one.symm
        rw [List.map_eq_nil_iff.mp none_]
        subst value
        obtain ⟨item, after, rfl, rfl, after_⟩ := item_of_value first
        rw [tail, beq_iff_eq.mp close] at after_
        obtain ⟨last, rfl, rfl⟩ := head_unit (d := ']') (by decide) (by decide) after_.symm
        exact ⟨item, [], last, rfl, rfl, rfl⟩
      next =>
        split at read
        next comma =>
          obtain ⟨⟨vs, rest'⟩, more, same⟩ := Option.bind_eq_some_iff.mp read
          rw [Option.pure_def, Option.some.injEq, Prod.mk.injEq] at same
          obtain ⟨all, rfl⟩ := same
          obtain ⟨t, others, rfl, value, later_⟩ := List.map_eq_cons_iff.mp all.symm
          subst value later_
          obtain ⟨item, after, rfl, rfl, after_⟩ := item_of_value first
          rw [tail, beq_iff_eq.mp comma] at after_
          obtain ⟨next, rfl, rfl⟩ := head_unit (d := ',') (by decide) (by decide) after_.symm
          obtain ⟨second, items, last, rfl, rfl, rfl⟩ := ih more
          refine ⟨item, second :: items, last, ?_, rfl, rfl⟩
          rw [itemsText]
          simp
        next => cases read

/-- A text that `JSON.parse` reads as a list of strings is written as one. -/
theorem listText_of_parse {cs : List Char} {strings : List JsString}
    (read : Json.parse (cs.flatMap charUnits) = some (.arr (strings.map .str))) :
    ∃ before body after, cs = listText before body after ∧ strings = body.units := by
  rw [Json.parse] at read
  split at read
  next v rest value =>
    rw [Option.ite_none_right_eq_some] at read
    obtain ⟨done, same⟩ := read
    cases same
    rw [skipSpace_eq] at value
    obtain ⟨s, less, bracket, list⟩ := value_arr value
    obtain ⟨inner, first, rfl⟩ := head_unit (d := '[') (by decide) (by decide) bracket
    have blank : ∀ {after : List Char}, rest = after.flatMap charUnits →
        ∃ gap : Gap, gap.text = after := by
      rintro after rfl
      rw [skipSpace_eq, List.isEmpty_iff, List.flatMap_eq_nil_iff] at done
      refine ⟨⟨after, ?_⟩, rfl⟩
      rw [← List.dropWhile_eq_nil_iff, List.eq_nil_iff_forall_not_mem]
      intro c listed
      exact synchronous.nonempty c (done c listed)
    rw [skipSpace_eq] at list
    rcases list with ⟨close, none_⟩ | elements
    · obtain ⟨after, last, rest_⟩ := head_unit (d := ']') (by decide) (by decide) close
      obtain ⟨gap, rfl⟩ := blank rest_
      rw [List.map_eq_nil_iff] at none_
      refine ⟨gapOf cs, .empty (gapOf inner), gap, ?_, none_⟩
      conv_lhs => rw [gapOf_append cs, first, gapOf_append inner, last]
      simp [listText, Body.text]
    · obtain ⟨item, items, after, shape, units, rest_⟩ := items_of_elements elements
      obtain ⟨gap, rfl⟩ := blank rest_
      -- The white space after the bracket belongs to the first item.
      let lead : Gap := ⟨(gapOf inner).text ++ item.before.text, by
        intro c listed
        rcases List.mem_append.mp listed with here | later
        · exact (gapOf inner).blank c here
        · exact item.before.blank c later⟩
      refine ⟨gapOf cs, .items { item with before := lead } items, gap, ?_, units⟩
      have moved : itemsText { item with before := lead } items =
          (gapOf inner).text ++ itemsText item items := by
        cases items <;> simp [itemsText, Item.text, lead]
      conv_lhs => rw [gapOf_append cs, first, gapOf_append inner, shape]
      rw [listText, Body.text, moved]
      simp
  next => cases read

private theorem surrogateEscape_solid {c : Char} (other : c ≠ '\\') (rest : List Char) :
    surrogateEscape (c :: rest) = surrogateEscape rest := by
  rw [surrogateEscape.eq_def]
  simp only [if_neg other]

private theorem surrogateEscape_item (item : Item) (rest : List Char) :
    surrogateEscape (item.text ++ rest) = (item.string.isNone || surrogateEscape rest) := by
  have shape : item.text ++ rest =
      item.before.text ++ '"' :: (textOf item.pieces ++ '"' :: (item.after.text ++ rest)) := by
    simp [Item.text]
  rw [shape, item.before.surrogateEscape, surrogateEscape_solid (by decide), surrogateEscape_textOf,
    surrogateEscape_solid (by decide), item.after.surrogateEscape, Item.string, Option.isNone_map]

private theorem surrogateEscape_items (first : Item) (items : List Item) (rest : List Char) :
    surrogateEscape (itemsText first items ++ rest) =
      (((first :: items).mapM Item.string).isNone || surrogateEscape rest) := by
  induction items generalizing first with
  | nil =>
    rw [itemsText, surrogateEscape_item, List.mapM_cons, List.mapM_nil]
    cases first.string <;> rfl
  | cons next items ih =>
    have all : (first :: next :: items).mapM Item.string =
        first.string.bind fun s => ((next :: items).mapM Item.string).map (s :: ·) := by
      rw [List.mapM_cons]
      cases first.string with
      | none => rfl
      | some s => cases (next :: items).mapM Item.string <;> rfl
    rw [itemsText, List.append_assoc, surrogateEscape_item, List.cons_append,
      surrogateEscape_solid (by decide), ih, all]
    cases first.string with
    | none => rfl
    | some s =>
      rw [Option.bind_some, Option.isNone_map]
      rfl

theorem surrogateEscape_listText (before : Gap) (body : Body) (after : Gap) :
    surrogateEscape (listText before body after) = body.strings.isNone := by
  have tail : surrogateEscape (']' :: after.text) = false := by
    have blank := after.surrogateEscape []
    rw [List.append_nil] at blank
    rw [surrogateEscape_solid (by decide), blank]
    rfl
  rw [listText, before.surrogateEscape, surrogateEscape_solid (by decide)]
  cases body with
  | empty gap =>
    rw [Body.text, gap.surrogateEscape, tail]
    rfl
  | items first rest =>
    rw [Body.text, surrogateEscape_items, tail, Bool.or_false]
    rfl

private theorem utf16_injective {s t : String} (same : utf16 s = utf16 t) : s = t := by
  apply String.toList_inj.mp
  have words : s.toList.map charUnits = t.toList.map charUnits := by
    rw [← codePoints_flatMap, ← codePoints_flatMap]
    exact congrArg codePoints same
  exact List.map_injective_iff.mpr (fun _ _ => charUnits_injective) words

private theorem strings_of_units {body : Body} {strings : List String} {read : List String}
    (units : strings.map utf16 = body.units) (found : body.strings = some read) : read = strings := by
  have all : ∀ (items : List Item) (read strings : List String),
      items.mapM Item.string = some read →
      strings.map utf16 = items.map (fun item => unitsOf item.pieces) → read = strings := by
    intro items
    induction items with
    | nil =>
      intro read strings found units
      cases found
      exact (List.map_eq_nil_iff.mp units).symm
    | cons item items ih =>
      intro read strings found units
      rw [List.mapM_cons, Option.bind_eq_bind, Option.bind_eq_some_iff] at found
      obtain ⟨s, first, found⟩ := found
      obtain ⟨later, rest, same⟩ := Option.bind_eq_some_iff.mp found
      cases same
      obtain ⟨t, others, rfl, head, tail⟩ := List.map_eq_cons_iff.mp units
      obtain ⟨chars, stands, rfl⟩ := Option.map_eq_some_iff.mp first
      dsimp only at head
      rw [unitsOf_chars stands] at head
      have here : String.ofList chars = t := utf16_injective (by
        rw [head, utf16, String.toList_ofList])
      rw [here, ih later others rest tail]
  cases body with
  | empty gap =>
    cases found
    exact (List.map_eq_nil_iff.mp units).symm
  | items first rest => exact all (first :: rest) read strings found units

/-! ### The writer -/

private def noGap : Gap := ⟨[], fun _ listed => nomatch listed⟩

private def digitChar (n : Nat) : Char := if n < 10 then Char.ofNat (48 + n) else Char.ofNat (87 + n)

private theorem escape_piece_of_unit {c : Char} {u : UInt16} (word : charUnits c = [u])
    (value : u.toNat = c.val.toNat) :
    ∃ piece : Piece, piece.char = some c ∧ Json.escape u = piece.text.flatMap charUnits := by
  by_cases control : u.toNat < 0x20
  · have all : ∀ n < 0x20, (∃ e ∈ ['b', 'f', 'n', 'r', 't'], unescape e = Char.ofNat n ∧
        Json.escape (UInt16.ofNat n) = ['\\', e].flatMap charUnits) ∨
        hexCode '0' '0' (digitChar (n / 16)) (digitChar (n % 16)) = some n ∧
          fromU32 n = some (Char.ofNat n) ∧ Json.escape (UInt16.ofNat n) =
            ['\\', 'u', '0', '0', digitChar (n / 16), digitChar (n % 16)].flatMap charUnits := by
      decide +kernel
    have here := all u.toNat control
    rw [UInt16.ofNat_toNat, value, show c.val.toNat = c.toNat from rfl, Char.ofNat_toNat] at here
    rcases here with ⟨e, listed, stands, written⟩ | ⟨code, stands, written⟩
    · have other : ∀ e ∈ ['b', 'f', 'n', 'r', 't'], e ≠ 'u' := by decide
      exact ⟨.short e (other e listed), congrArg some stands, written⟩
    · exact ⟨.unicode _ _ _ _ _ code, stands, written⟩
  · by_cases quote : c = '"'
    · subst quote
      cases word
      exact ⟨.short '"' (by decide), rfl, by decide⟩
    · by_cases backslash : c = '\\'
      · subst backslash
        cases word
        exact ⟨.short '\\' (by decide), rfl, by decide⟩
      · refine ⟨.plain c quote backslash, rfl, ?_⟩
        have apart {d : Char} {v : UInt16} (single : charUnits d = [v]) (other : c ≠ d) :
            (u == v) = false := by
          rw [beq_eq_false_iff_ne]
          rintro rfl
          exact other (charUnits_injective (word.trans single.symm))
        have printed {n : UInt16} (small : n.toNat < 0x20) : (u == n) = false := by
          rw [beq_eq_false_iff_ne]
          rintro rfl
          exact control small
        have large : ¬u < 0x20 := by
          rw [UInt16.lt_iff_toNat_lt]
          exact control
        simp only [Json.escape, apart (d := '"') rfl quote, apart (d := '\\') rfl backslash,
          printed (n := 8) (by decide), printed (n := 12) (by decide), printed (n := 10) (by decide),
          printed (n := 13) (by decide), printed (n := 9) (by decide), large, Bool.false_eq_true,
          if_false, Piece.text, List.flatMap_singleton, word]

private theorem quoteRest_char (c : Char) : ∃ piece : Piece, piece.char = some c ∧
    ∀ s, Json.quoteRest (charUnits c ++ s) = piece.text.flatMap charUnits ++ Json.quoteRest s := by
  rcases charUnits_cases c with ⟨u, word, value, high, low⟩ | ⟨high, low, word, is_high, is_low, _⟩
  · obtain ⟨piece, stands, written⟩ := escape_piece_of_unit word value
    refine ⟨piece, stands, fun s => ?_⟩
    have high' : Json.isHighSurrogate u = false := high
    have low' : Json.isLowSurrogate u = false := low
    rw [word, List.singleton_append, Json.quoteRest.eq_def]
    simp only [high', low', Bool.false_eq_true, if_false, written]
  · have other : c ≠ '"' ∧ c ≠ '\\' := by
      constructor
      · rintro rfl
        cases word
      · rintro rfl
        cases word
    refine ⟨.plain c other.1 other.2, rfl, fun s => ?_⟩
    have high' : Json.isHighSurrogate high = true := is_high
    have low' : Json.isLowSurrogate low = true := is_low
    rw [word, List.cons_append, List.singleton_append, Json.quoteRest.eq_def]
    simp only [high', low', if_true, Piece.text, List.flatMap_singleton, word, List.cons_append,
      List.nil_append]

private theorem quote_pieces (cs : List Char) : ∃ pieces, charsOf pieces = some cs ∧
    Json.quote (cs.flatMap charUnits) = ('"' :: (textOf pieces ++ ['"'])).flatMap charUnits := by
  have body : ∃ pieces, charsOf pieces = some cs ∧
      Json.quoteRest (cs.flatMap charUnits) = (textOf pieces ++ ['"']).flatMap charUnits := by
    induction cs with
    | nil => exact ⟨[], rfl, by decide⟩
    | cons c cs ih =>
      obtain ⟨piece, stands, written⟩ := quoteRest_char c
      obtain ⟨pieces, read, rest⟩ := ih
      refine ⟨piece :: pieces, ?_, ?_⟩
      · rw [charsOf_cons, stands, Option.bind_some, read]
        rfl
      · have shape : textOf (piece :: pieces) ++ ['"'] = piece.text ++ (textOf pieces ++ ['"']) := by
          simp [textOf]
        rw [List.flatMap_cons, written, rest, shape]
        exact List.flatMap_append.symm
  obtain ⟨pieces, read, written⟩ := body
  refine ⟨pieces, read, ?_⟩
  rw [Json.quote, written, List.flatMap_cons]
  rfl

private theorem item_of_string (s : String) : ∃ item : Item, item.string = some s ∧
    Json.stringify (.str (utf16 s)) = item.text.flatMap charUnits := by
  obtain ⟨pieces, read, written⟩ := quote_pieces s.toList
  refine ⟨⟨noGap, pieces, noGap⟩, ?_, ?_⟩
  · rw [Item.string, read, Option.map_some, String.ofList_toList]
  · rw [Json.stringify, utf16, written]
    rfl

private theorem items_of_strings (s : String) (strings : List String) : ∃ first items,
    (first :: items).mapM Item.string = some (s :: strings) ∧
      Json.stringify (.str (utf16 s)) ++ Json.itemsRest (strings.map fun s => .str (utf16 s)) =
        (itemsText first items ++ [']']).flatMap charUnits := by
  induction strings generalizing s with
  | nil =>
    obtain ⟨item, read, written⟩ := item_of_string s
    refine ⟨item, [], ?_, ?_⟩
    · rw [List.mapM_cons, List.mapM_nil, read]
      rfl
    · rw [written, itemsText, List.flatMap_append]
      rfl
  | cons next strings ih =>
    obtain ⟨item, read, written⟩ := item_of_string s
    obtain ⟨first, items, others, rest⟩ := ih next
    refine ⟨item, first :: items, ?_, ?_⟩
    · rw [List.mapM_cons, read, others]
      rfl
    · have shape : itemsText item (first :: items) ++ [']'] =
          item.text ++ ',' :: (itemsText first items ++ [']']) := by simp [itemsText]
      have comma : Json.unit ',' :: (itemsText first items ++ [']']).flatMap charUnits =
          (',' :: (itemsText first items ++ [']'])).flatMap charUnits := rfl
      rw [List.map_cons, Json.itemsRest, rest, written, shape, comma]
      exact List.flatMap_append.symm

/-- What `JSON.stringify` writes for a list of texts is a list of pieces that stand for their
characters. -/
theorem listText_of_stringify (strings : List String) : ∃ before body after,
    Json.stringify (listValue strings) = (listText before body after).flatMap charUnits ∧
      body.strings = some strings := by
  cases strings with
  | nil => exact ⟨noGap, .empty noGap, noGap, by decide, rfl⟩
  | cons s strings =>
    obtain ⟨first, items, read, written⟩ := items_of_strings s strings
    refine ⟨noGap, .items first items, noGap, ?_, read⟩
    rw [listValue, List.map_cons, Json.stringify, Json.itemsText, written, listText, Body.text]
    rfl

/-- The reader undoes the writer, and reads a list of texts as `JSON.parse` does just when no half
of a surrogate pair is written by its number. -/
theorem parseJsonStringArray_reads (raw : String) (strings : List String) :
    (∃ text : String, utf16 text = Json.stringify (listValue strings) ∧
      parseJsonStringArray text = some (some strings)) ∧
    (Json.parse (utf16 raw) = some (listValue strings) →
      (parseJsonStringArray raw = some (some strings) ↔ surrogateEscape raw.toList = false)) := by
  constructor
  · obtain ⟨before, body, after, written, read⟩ := listText_of_stringify strings
    refine ⟨String.ofList (listText before body after), ?_, ?_⟩
    · rw [written, utf16, String.toList_ofList]
    · rw [parseJsonStringArray_text, read]
  · intro parsed
    rw [listValue_map, utf16] at parsed
    obtain ⟨before, body, after, text, units⟩ := listText_of_parse parsed
    have shape : raw = String.ofList (listText before body after) := by
      rw [← text, String.ofList_toList]
    rw [shape, parseJsonStringArray_text, String.toList_ofList, surrogateEscape_listText,
      Option.some.injEq]
    constructor
    · intro read
      rw [read]
      rfl
    · intro all
      obtain ⟨read, found⟩ := Option.isSome_iff_exists.mp (Option.isNone_eq_false_iff.mp all)
      rw [found, strings_of_units units found]

/-- A list with white space, an escape and the number of a character. -/
theorem parseJsonStringArray_reads_three :
    parseJsonStringArray "[ \"a\\n\" ,\"\\u00e9\", \"😀\"]" = some (some ["a\n", "é", "😀"]) :=
  have parsed : Json.parse (utf16 "[ \"a\\n\" ,\"\\u00e9\", \"😀\"]") =
      some (listValue ["a\n", "é", "😀"]) := by
    have units : utf16 "[ \"a\\n\" ,\"\\u00e9\", \"😀\"]" = [91, 32, 34, 97, 92, 110, 34, 32, 44, 34,
        92, 117, 48, 48, 101, 57, 34, 44, 32, 34, 0xd83d, 0xde00, 34, 93] := by decide +kernel
    have strings : ["a\n", "é", "😀"].map utf16 = [[97, 10], [0xe9], [0xd83d, 0xde00]] := by
      decide +kernel
    rw [units, listValue_map, strings]
    rfl
  ((parseJsonStringArray_reads _ _).2 parsed).mpr (by decide +kernel)

/-- A character written as its surrogate pair is one that `JSON.parse` reads, and the reader has no
list for it. -/
theorem surrogate_pair_refused :
    Json.parse (utf16 "[\"\\ud83d\\ude00\"]") = some (listValue ["😀"]) ∧
      parseJsonStringArray "[\"\\ud83d\\ude00\"]" = some none := by
  constructor
  · have units : utf16 "[\"\\ud83d\\ude00\"]" = [91, 34, 92, 117, 100, 56, 51, 100, 92, 117, 100, 101,
        48, 48, 34, 93] := by decide +kernel
    have strings : ["😀"].map utf16 = [[0xd83d, 0xde00]] := by decide +kernel
    rw [units, listValue_map, strings]
    rfl
  · decide +kernel

end CodeGraph.Resolution.JsonStringArray
