import CodeGraph.Foundation.Utf8
import CodeGraph.Resolution.GoBuild

/-!
# The tokens of a constraint

The scanner of bytes reads characters, and what it returns is how the text is written as tokens.
-/
namespace CodeGraph.Resolution.GoBuild

open Text CharOffsets AsciiBytes

def TagChar (c : Char) : Prop := c.isAlphanum = true ∨ c = '_' ∨ c = '.'

def operators : List String := ["&&", "||", "(", ")", "!"]

def Tag (token : String) : Prop := token ≠ "" ∧ ∀ c ∈ token.toList, TagChar c

/-- A text is written as tokens, with white space anywhere between them. -/
inductive Spelling : List String → List Char → Prop
  | done : Spelling [] []
  | blank {toks : List String} {c : Char} {cs : List Char} :
      c ∈ [' ', '\t', '\n', '\x0c', '\r'] → Spelling toks cs → Spelling toks (c :: cs)
  | operator {op : String} {toks : List String} {cs : List Char} :
      op ∈ operators → Spelling toks cs → Spelling (op :: toks) (op.toList ++ cs)
  | tag {token : String} {toks : List String} {cs : List Char} :
      Tag token → (∀ c ∈ cs.head?, ¬TagChar c) → Spelling toks cs →
        Spelling (token :: toks) (token.toList ++ cs)

private theorem tagByte_low : ∀ b : UInt8, isTagByte b = true → b.toNat < 0x80 :=
  forall_byte (by decide +kernel)

instance (c : Char) : Decidable (TagChar c) := inferInstanceAs (Decidable (_ ∨ _ ∨ _))

private theorem tagChar_ascii {c : Char} (holds : TagChar c) : IsAscii c := by
  rcases holds with letter | rfl | rfl
  · simp only [Char.isAlphanum, Char.isAlpha, Char.isUpper, Char.isLower, Char.isDigit,
      Bool.or_eq_true, Bool.and_eq_true, decide_eq_true_eq, ge_iff_le,
      UInt32.le_iff_toNat_le] at letter
    have ends : 'Z'.val.toNat = 90 ∧ 'z'.val.toNat = 122 ∧ '9'.val.toNat = 57 := by decide
    rw [IsAscii]
    omega
  · decide
  · decide

theorem isTagChar_iff {c : Char} : onChar isTagByte c = true ↔ TagChar c := by
  by_cases ascii : IsAscii c
  · exact forall_ascii (P := fun c => onChar isTagByte c = true ↔ TagChar c) (by decide +kernel) ascii
  · exact iff_of_false (fun holds => ascii (isAscii_of_onChar holds))
      fun holds => ascii (tagChar_ascii holds)

theorem isBlank_iff {c : Char} :
    onChar isAsciiWhitespace c = true ↔ c ∈ [' ', '\t', '\n', '\x0c', '\r'] := by
  by_cases ascii : IsAscii c
  · exact forall_ascii
      (P := fun c => onChar isAsciiWhitespace c = true ↔ c ∈ [' ', '\t', '\n', '\x0c', '\r'])
      (by decide +kernel) ascii
  · refine iff_of_false (fun holds => ascii (isAscii_of_onChar holds)) fun listed => ascii ?_
    have all : ∀ d ∈ [' ', '\t', '\n', '\x0c', '\r'], IsAscii d := by decide
    exact all c listed

theorem isTag_iff {token : String} : isTag token = true ↔ Tag token := by
  rw [isTag, utf8, all_encode tagByte_low, Bool.and_eq_true, List.all_eq_true, Tag]
  apply and_congr
  · rw [Bool.not_eq_true', List.isEmpty_eq_false_iff, ne_eq, ne_eq, List.flatMap_eq_nil_iff]
    apply not_congr
    constructor
    · intro none_
      apply String.toList_eq_nil_iff.mp
      rw [List.eq_nil_iff_forall_not_mem]
      intro c listed
      exact String.utf8EncodeChar_ne_nil (none_ c listed)
    · rintro rfl c listed
      cases listed
  · constructor
    · intro all c listed
      exact isTagChar_iff.mp (all c listed)
    · intro all c listed
      exact isTagChar_iff.mpr (all c listed)

/-! ### The scanner on characters -/

def tokenLength (cs : List Char) : Nat :=
  if ['&', '&'].isPrefixOf cs || ['|', '|'].isPrefixOf cs then 2
  else if cs.head? = some '(' ∨ cs.head? = some ')' ∨ cs.head? = some '!' then 1
  else if 0 < (cs.takeWhile (onChar isTagByte)).length then (cs.takeWhile (onChar isTagByte)).length
  else 1

def lexFrom : Nat → List Char → Option (List String)
  | 0, _ => none
  | _ + 1, [] => some []
  | fuel + 1, c :: cs =>
    if onChar isAsciiWhitespace c then lexFrom fuel cs
    else if IsAscii c then
      let token := (c :: cs).take (tokenLength (c :: cs))
      let rest := (c :: cs).drop (tokenLength (c :: cs))
      (lexFrom fuel rest).map (String.ofList token :: ·)
    else none

/-- What the token at the start of a text is: an operator, a whole tag, or a stray character. -/
inductive Token : List Char → List Char → Prop
  | operator {op : String} {rest : List Char} : op ∈ operators → Token op.toList rest
  | tag {token : String} {rest : List Char} :
      Tag token → (∀ c ∈ rest.head?, ¬TagChar c) → Token token.toList rest
  | stray {c : Char} {rest : List Char} :
      IsAscii c → ¬TagChar c → String.singleton c ∉ operators → Token [c] rest

theorem token_split {c : Char} (ascii : IsAscii c) (cs : List Char) :
    ∃ token rest, c :: cs = token ++ rest ∧ tokenLength (c :: cs) = token.length ∧
      token ≠ [] ∧ (∀ d ∈ token, IsAscii d) ∧ Token token rest := by
  rw [tokenLength]
  split
  next double =>
    rw [Bool.or_eq_true, List.isPrefixOf_iff_prefix, List.isPrefixOf_iff_prefix] at double
    rcases double with ⟨rest, split⟩ | ⟨rest, split⟩
    · exact ⟨['&', '&'], rest, split.symm, rfl, by decide, by decide,
        .operator (show "&&" ∈ operators by decide)⟩
    · exact ⟨['|', '|'], rest, split.symm, rfl, by decide, by decide,
        .operator (show "||" ∈ operators by decide)⟩
  next single =>
    simp only [List.head?_cons, Option.some.injEq]
    split
    next alone =>
      refine ⟨[c], cs, rfl, rfl, List.cons_ne_nil c [], by simpa using ascii, ?_⟩
      rcases alone with rfl | rfl | rfl
      · exact .operator (show "(" ∈ operators by decide)
      · exact .operator (show ")" ∈ operators by decide)
      · exact .operator (show "!" ∈ operators by decide)
    next other =>
      split
      next run =>
        refine ⟨(c :: cs).takeWhile (onChar isTagByte), (c :: cs).dropWhile (onChar isTagByte),
          List.takeWhile_append_dropWhile.symm, rfl, List.ne_nil_of_length_pos run, ?_, ?_⟩
        · intro d listed
          exact isAscii_of_onChar (List.mem_takeWhile_imp listed)
        · have token : Tag (String.ofList ((c :: cs).takeWhile (onChar isTagByte))) := by
            constructor
            · intro none_
              rw [← String.toList_eq_nil_iff, String.toList_ofList] at none_
              exact absurd none_ (List.ne_nil_of_length_pos run)
            · intro d listed
              rw [String.toList_ofList] at listed
              exact isTagChar_iff.mp (List.mem_takeWhile_imp listed)
          have shape := @Token.tag _ ((c :: cs).dropWhile (onChar isTagByte)) token ?_
          · rwa [String.toList_ofList] at shape
          · intro d first tagged
            have stop := List.head?_dropWhile_not (onChar isTagByte) (c :: cs)
            rw [Option.mem_def.mp first] at stop
            have passes := isTagChar_iff.mpr tagged
            rw [show onChar isTagByte d = false from stop] at passes
            cases passes
      next none_ =>
        have plain : ¬TagChar c := by
          intro tagged
          rw [List.takeWhile_cons, isTagChar_iff.mpr tagged] at none_
          exact none_ (Nat.succ_pos _)
        refine ⟨[c], cs, rfl, rfl, List.cons_ne_nil c [], by simpa using ascii, .stray ascii plain ?_⟩
        intro listed
        apply other
        have one : (String.singleton c).toList = [c] := String.toList_singleton c
        simp only [operators, List.mem_cons, List.not_mem_nil, or_false] at listed
        rcases listed with same | same | same | same | same
        all_goals rw [same] at one
        · cases one
        · cases one
        · exact .inl (List.cons.inj one).1.symm
        · exact .inr (.inl (List.cons.inj one).1.symm)
        · exact .inr (.inr (List.cons.inj one).1.symm)

private theorem byteLength_snoc (before token : List Char) (ascii : ∀ d ∈ token, IsAscii d) :
    byteLength (before ++ token) = byteLength before + token.length := by
  rw [byteLength_append, byteLength_ascii ascii]

private theorem slice_stray {text : String} {before cs : List Char} {c : Char}
    (whole : text.toList = before ++ c :: cs) (other : ¬IsAscii c) :
    slice text (byteLength before) (byteLength before + 1) = none := by
  rw [Option.eq_none_iff_forall_ne_some]
  intro token found
  obtain ⟨left, right, split, start, stop⟩ := slice_eq.mp found
  rw [whole, List.append_assoc] at split
  have first := (splitAt_eq (n := byteLength before)).mpr ⟨whole, rfl⟩
  have second := (splitAt_eq (n := byteLength before)).mpr ⟨whole.trans split, start⟩
  have same : c :: cs = token.toList ++ right :=
    congrArg Prod.snd (Option.some.inj (first.symm.trans second))
  have one : byteLength token.toList = 1 := by omega
  cases chars : token.toList with
  | nil =>
    rw [chars] at one
    cases one
  | cons d ds =>
    rw [chars, List.cons_append, List.cons.injEq] at same
    rw [chars, byteLength_cons, ← same.1] at one
    have large := c.utf8Size_pos
    exact other (isAscii_iff.mpr (by omega))

theorem tokensFrom_eq {text : String} {before cs : List Char} (whole : text.toList = before ++ cs)
    (fuel : Nat) : tokensFrom text fuel (byteLength before) = lexFrom fuel cs := by
  induction fuel generalizing before cs with
  | zero => rfl
  | succ fuel ih =>
    have bytes : (utf8 text).drop (byteLength before) = cs.flatMap String.utf8EncodeChar := by
      rw [utf8, whole, List.flatMap_append, ← length_encode, List.drop_left]
    rw [tokensFrom, bytes]
    cases cs with
    | nil => rfl
    | cons c cs =>
      have run := @takeWhile_encode (c :: cs) _ tagByte_low
      have and_ := @isPrefixOf_encode (c :: cs) ['&', '&'] (by decide)
      have or_ := @isPrefixOf_encode (c :: cs) ['|', '|'] (by decide)
      rw [lexFrom]
      by_cases ascii : IsAscii c
      · have shape : (c :: cs).flatMap String.utf8EncodeChar =
            asciiByte c :: cs.flatMap String.utf8EncodeChar := by
          rw [List.flatMap_cons, encode_ascii ascii, List.singleton_append]
        rw [shape] at run and_ or_ ⊢
        dsimp only
        rw [← onChar_ascii (p := isAsciiWhitespace) ascii, if_pos ascii]
        split
        next =>
          have next := byteLength_snoc before [c] (by simpa using ascii)
          rw [List.length_singleton] at next
          rw [← next]
          exact ih (by rw [whole, List.append_assoc, List.singleton_append])
        next =>
          obtain ⟨token, rest, split, length, _, plain, _⟩ := token_split ascii cs
          have stop : (if (utf8 "&&").isPrefixOf (asciiByte c :: cs.flatMap String.utf8EncodeChar) ||
                (utf8 "||").isPrefixOf (asciiByte c :: cs.flatMap String.utf8EncodeChar) then
                  byteLength before + 2
              else if asciiByte c == 0x28 || asciiByte c == 0x29 || asciiByte c == 0x21 then
                byteLength before + 1
              else if 0 < ((asciiByte c :: cs.flatMap String.utf8EncodeChar).takeWhile isTagByte).length
                then byteLength before +
                  ((asciiByte c :: cs.flatMap String.utf8EncodeChar).takeWhile isTagByte).length
              else byteLength before + 1) = byteLength (before ++ token) := by
            have size : (((c :: cs).takeWhile (onChar isTagByte)).flatMap
                String.utf8EncodeChar).length = ((c :: cs).takeWhile (onChar isTagByte)).length := by
              rw [length_encode, byteLength_ascii fun d listed =>
                isAscii_of_onChar (List.mem_takeWhile_imp listed)]
            have single : (asciiByte c == 0x28 || asciiByte c == 0x29 || asciiByte c == 0x21) = true ↔
                c = '(' ∨ c = ')' ∨ c = '!' :=
              forall_ascii (P := fun c => (asciiByte c == 0x28 || asciiByte c == 0x29 ||
                asciiByte c == 0x21) = true ↔ c = '(' ∨ c = ')' ∨ c = '!') (by decide +kernel) ascii
            have first : (utf8 "&&").isPrefixOf (asciiByte c :: cs.flatMap String.utf8EncodeChar) =
              ['&', '&'].isPrefixOf (c :: cs) := and_
            have second : (utf8 "||").isPrefixOf (asciiByte c :: cs.flatMap String.utf8EncodeChar) =
              ['|', '|'].isPrefixOf (c :: cs) := or_
            rw [byteLength_snoc before token plain, ← length, tokenLength, first, second, run, size]
            simp only [single, List.head?_cons, Option.some.injEq]
            split_ifs <;> rfl
          rw [stop]
          have text_eq : text.toList = before ++ token ++ rest := by
            rw [whole, split, List.append_assoc]
          have cut : slice text (byteLength before) (byteLength (before ++ token)) =
              some (String.ofList token) := by
            refine slice_eq.mpr ⟨before, rest, ?_, rfl, ?_⟩
            · rw [String.toList_ofList, text_eq]
            · rw [String.toList_ofList, byteLength_append]
          rw [cut, Option.bind_some, ih text_eq, length, split, List.take_left, List.drop_left]
      · -- No test knows the first byte, and the slice of one byte is none.
        obtain ⟨b, rest, shape⟩ := List.exists_cons_of_ne_nil (String.utf8EncodeChar_ne_nil (c := c))
        have tests : isAsciiWhitespace b = false ∧ isTagByte b = false ∧
            (b == 0x28 || b == 0x29 || b == 0x21) = false ∧ ((0x26 : UInt8) == b) = false ∧
            ((0x7C : UInt8) == b) = false :=
          forall_byte (P := fun b => 0x80 ≤ b.toNat → isAsciiWhitespace b = false ∧
            isTagByte b = false ∧ (b == 0x28 || b == 0x29 || b == 0x21) = false ∧
            ((0x26 : UInt8) == b) = false ∧ ((0x7C : UInt8) == b) = false) (by decide +kernel) b
            (encode_other ascii (shape ▸ List.mem_cons_self))
        obtain ⟨white, tag, single, and_first, or_first⟩ := tests
        have and_ : utf8 "&&" = [0x26, 0x26] := by decide
        have or_ : utf8 "||" = [0x7C, 0x7C] := by decide
        have plain : onChar isAsciiWhitespace c = false := by
          rw [onChar, decide_eq_false ascii, Bool.false_and]
        rw [List.flatMap_cons, shape, List.cons_append]
        simp only [white, plain, and_, or_, List.isPrefixOf, and_first, or_first, single, tag,
          List.takeWhile_cons, Bool.false_and, Bool.false_or, List.length_nil, Nat.lt_irrefl,
          if_neg ascii, if_false, Bool.false_eq_true, slice_stray whole ascii, Option.bind_none]

variable {fuel : Nat} {cs : List Char} {toks : List String}

theorem lexFrom_isSome (enough : cs.length < fuel) :
    (lexFrom fuel cs).isSome = true ↔ ∀ c ∈ cs, IsAscii c := by
  induction fuel generalizing cs with
  | zero => exact absurd enough (Nat.not_lt_zero _)
  | succ fuel ih =>
    cases cs with
    | nil => exact iff_of_true rfl fun _ listed => nomatch listed
    | cons c cs =>
      rw [List.length_cons] at enough
      rw [lexFrom]
      split
      next blank =>
        rw [ih (by omega), List.forall_mem_cons]
        exact (and_iff_right (isAscii_of_onChar blank)).symm
      next =>
        split
        next ascii =>
          obtain ⟨token, rest, split, length, some_, plain, _⟩ := token_split ascii cs
          have size := congrArg List.length split
          have positive := List.length_pos_of_ne_nil some_
          rw [List.length_cons, List.length_append] at size
          rw [Option.isSome_map, length, split, List.drop_left, ih (by omega)]
          constructor
          · intro all d listed
            rcases List.mem_append.mp listed with first | later
            · exact plain d first
            · exact all d later
          · intro all d listed
            exact all d (List.mem_append_right _ listed)
        next other =>
          exact iff_of_false Bool.false_ne_true fun all => other (all c List.mem_cons_self)

theorem spelling_of_lexFrom (read : lexFrom fuel cs = some toks)
    (legal : ∀ token ∈ toks, token ∈ operators ∨ Tag token) : Spelling toks cs := by
  induction fuel generalizing cs toks with
  | zero => cases read
  | succ fuel ih =>
    cases cs with
    | nil =>
      cases read
      exact .done
    | cons c cs =>
      rw [lexFrom] at read
      split at read
      next blank => exact .blank (isBlank_iff.mp blank) (ih read legal)
      next =>
        split at read
        next ascii =>
          obtain ⟨token, rest, split, length, some_, plain, shape⟩ := token_split ascii cs
          rw [length, split, List.take_left, List.drop_left] at read
          obtain ⟨later, found, rfl⟩ := Option.map_eq_some_iff.mp read
          have tail := ih found fun other listed => legal other (List.mem_cons_of_mem _ listed)
          rw [split]
          cases shape with
          | operator listed =>
            rw [String.ofList_toList]
            exact .operator listed tail
          | tag tagged stop =>
            rw [String.ofList_toList]
            exact .tag tagged stop tail
          | @stray d _ _ other alone =>
            have single : String.ofList [d] = String.singleton d := by
              apply String.toList_inj.mp
              rw [String.toList_ofList, String.toList_singleton]
            rcases legal _ List.mem_cons_self with op | tagged
            · rw [single] at op
              exact absurd op alone
            · refine absurd (tagged.2 _ ?_) other
              rw [String.toList_ofList]
              exact List.mem_singleton_self _
        next => cases read

private theorem tokenLength_operator {op : String} (listed : op ∈ operators) (cs : List Char) :
    tokenLength (op.toList ++ cs) = op.toList.length ∧
      ∃ c rest, op.toList = c :: rest ∧ IsAscii c ∧ onChar isAsciiWhitespace c = false := by
  simp only [operators, List.mem_cons, List.not_mem_nil, or_false] at listed
  rcases listed with rfl | rfl | rfl | rfl | rfl
  · exact ⟨rfl, '&', ['&'], rfl, by decide, by decide⟩
  · exact ⟨rfl, '|', ['|'], rfl, by decide, by decide⟩
  · exact ⟨rfl, '(', [], rfl, by decide, by decide⟩
  · exact ⟨rfl, ')', [], rfl, by decide, by decide⟩
  · exact ⟨rfl, '!', [], rfl, by decide, by decide⟩

private theorem tokenLength_tag {token : String} (tagged : Tag token) {cs : List Char}
    (stop : ∀ c ∈ cs.head?, ¬TagChar c) :
    tokenLength (token.toList ++ cs) = token.toList.length ∧
      ∃ c rest, token.toList = c :: rest ∧ IsAscii c ∧ onChar isAsciiWhitespace c = false := by
  have some_ : token.toList ≠ [] := fun none_ => tagged.1 (String.toList_eq_nil_iff.mp none_)
  obtain ⟨c, rest, shape⟩ := List.exists_cons_of_ne_nil some_
  have first : TagChar c := tagged.2 c (shape ▸ List.mem_cons_self)
  have ascii := tagChar_ascii first
  have apart : onChar isAsciiWhitespace c = false ∧ c ≠ '&' ∧ c ≠ '|' ∧ c ≠ '(' ∧ c ≠ ')' ∧ c ≠ '!' :=
    forall_ascii (P := fun c => TagChar c → onChar isAsciiWhitespace c = false ∧ c ≠ '&' ∧
      c ≠ '|' ∧ c ≠ '(' ∧ c ≠ ')' ∧ c ≠ '!') (by decide +kernel) ascii first
  obtain ⟨blank, and_, or_, open_, close, not_⟩ := apart
  refine ⟨?_, c, rest, shape, ascii, blank⟩
  have run : (token.toList ++ cs).takeWhile (onChar isTagByte) = token.toList := by
    rw [List.takeWhile_append_of_pos fun d listed => isTagChar_iff.mpr (tagged.2 d listed)]
    cases cs with
    | nil => rw [List.takeWhile_nil, List.append_nil]
    | cons d cs =>
      have plain : ¬onChar isTagByte d = true := fun holds => stop d rfl (isTagChar_iff.mp holds)
      rw [List.takeWhile_cons_of_neg plain, List.append_nil]
  have positive := List.length_pos_of_ne_nil some_
  rw [tokenLength, run, if_pos positive, shape]
  simp [and_.symm, or_.symm, open_, close, not_]

theorem lexFrom_of_spelling (spelled : Spelling toks cs) (enough : cs.length < fuel) :
    lexFrom fuel cs = some toks := by
  have step : ∀ {fuel : Nat} {token : String} {toks : List String} {cs : List Char},
      (tokenLength (token.toList ++ cs) = token.toList.length ∧ ∃ c rest, token.toList = c :: rest ∧
        IsAscii c ∧ onChar isAsciiWhitespace c = false) →
      (∀ {fuel : Nat}, cs.length < fuel → lexFrom fuel cs = some toks) →
      (token.toList ++ cs).length < fuel → lexFrom fuel (token.toList ++ cs) = some (token :: toks) := by
    rintro fuel token toks cs ⟨length, c, rest, shape, ascii, white⟩ ih enough
    obtain ⟨fuel, rfl⟩ := Nat.exists_eq_add_of_lt (Nat.zero_lt_of_lt enough)
    have later := @ih (0 + fuel) (by rw [shape] at enough; simp at enough; omega)
    rw [shape, List.cons_append, lexFrom, white, if_neg Bool.false_ne_true, if_pos ascii,
      ← List.cons_append, ← shape, length, List.take_left, List.drop_left]
    dsimp only
    rw [later, Option.map_some, String.ofList_toList]
  induction spelled generalizing fuel with
  | done =>
    obtain ⟨fuel, rfl⟩ := Nat.exists_eq_add_of_lt enough
    rfl
  | blank listed _ ih =>
    obtain ⟨fuel, rfl⟩ := Nat.exists_eq_add_of_lt (Nat.zero_lt_of_lt enough)
    rw [lexFrom, if_pos (isBlank_iff.mpr listed)]
    exact ih (by rw [List.length_cons] at enough; omega)
  | operator listed _ ih => exact step (tokenLength_operator listed _) ih enough
  | tag tagged stop _ ih => exact step (tokenLength_tag tagged stop) ih enough

end CodeGraph.Resolution.GoBuild
