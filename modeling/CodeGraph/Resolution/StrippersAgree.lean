import CodeGraph.Foundation.Codings
import CodeGraph.Kernel.CommentStrippers
import CodeGraph.Resolution.StripContract

/-!
The comment strippers of the native side beside those of `resolution/strip-comments.ts`.

Both read tokens that begin and end at ASCII characters, so one reading over a coding of the text
stands for bytes, characters and UTF-16 units alike.
-/
namespace CodeGraph.Resolution.StrippersAgree

open AsciiBytes Blanking Codings JsText Kernel.CommentStrippers Text

variable {β : Type} [DecidableEq β]

def cToken (C : Coding β) (_ : Unit) : List β → Token Unit
  | [] => ⟨.plain, 1, ()⟩
  | c :: rest =>
    if c = C.low '/' ∧ rest.head? = some (C.low '*') then
      ⟨.blank, 2 + blockRest (C.low '*') (C.low '/') (rest.drop 1), ()⟩
    else if c = C.low '/' ∧ rest.head? = some (C.low '/') then
      ⟨.blank, lineRest (C.low '\n') (c :: rest), ()⟩
    else if c = C.low '"' ∨ c = C.low '`' then
      ⟨.literal, 1 + stringRest c (C.low '\\') (C.low '\n') (c = C.low '`') rest, ()⟩
    else ⟨.plain, 1, ()⟩

def blanks (C : Coding β) (rest : List β) : Nat :=
  (rest.takeWhile fun u => u = C.low ' ' ∨ u = C.low '\t').length

/-- `=end` -/
def closing : List Char := ['=', 'e', 'n', 'd']

/-- `=begin` -/
def opening : List Char := ['=', 'b', 'e', 'g', 'i', 'n']

def rubyComment (C : Coding β) : List β → Nat
  | [] => 0
  | u :: rest =>
    if u = C.low '\n' ∧ (C.encode closing).isPrefixOf (rest.drop (blanks C rest)) then
      1 + (blanks C rest + (4 + lineRest (C.low '\n') (rest.drop (blanks C rest + 4))))
    else 1 + rubyComment C rest

def rubyToken (C : Coding β) (atLineStart : Bool) : List β → Token Bool
  | [] => ⟨.plain, 1, atLineStart⟩
  | c :: rest =>
    if atLineStart ∧ c = C.low '=' ∧
        (C.encode opening).isPrefixOf (c :: rest) then
      let length := 6 + rubyComment C ((c :: rest).drop 6)
      ⟨.blank, length, ((c :: rest).take length).getLast? = some (C.low '\n')⟩
    else if c = C.low '"' ∨ c = C.low '\'' then
      ⟨.literal, 1 + stringRest c (C.low '\\') (C.low '\n') false rest, false⟩
    else if c = C.low '#' then ⟨.blank, lineRest (C.low '\n') (c :: rest), false⟩
    else if c = C.low '\n' then ⟨.plain, 1, true⟩
    else if c = C.low ' ' ∨ c = C.low '\t' then ⟨.plain, 1, atLineStart⟩
    else ⟨.plain, 1, false⟩

/-! ### Lengths in characters and in units -/

variable (C : Coding β) {c d : Char} {t : List Char}

theorem lineRest_encode (t : List Char) : lineRest (C.low '\n') (C.encode t) =
    (C.encode (t.take (lineRest '\n' t))).length := by
  induction t with
  | nil => rfl
  | cons c t ih =>
    by_cases newline : c = '\n'
    · rw [newline, C.encode_ascii (by decide)]
      simp [lineRest]
    · have inside : ∀ u ∈ C.code c, decide (u ≠ C.low '\n') = true :=
        fun u listed => decide_eq_true (C.apart newline (by decide) listed)
      have more : lineRest '\n' (c :: t) = 1 + lineRest '\n' t := by
        simp [lineRest, newline, Nat.add_comm]
      rw [more, C.length_take_cons, ← ih, C.encode_cons, lineRest, List.takeWhile_append_of_pos inside,
        List.length_append]
      rfl

private theorem stringRest_step {quote backslash newline u : β} {spansLines : Bool}
    (open_ : u ≠ quote) (plain : u ≠ backslash) (line : u = newline → spansLines = true)
    (rest : List β) : stringRest quote backslash newline spansLines (u :: rest) =
      1 + stringRest quote backslash newline spansLines rest := by
  have goes : ¬(spansLines = false ∧ u = newline) := fun ⟨one, same⟩ => by simp [line same] at one
  cases rest with
  | nil => simp only [stringRest, if_neg open_, if_neg goes]
  | cons v rest => rw [stringRest, if_neg open_, if_neg plain, if_neg goes]

private theorem stringRest_skip {quote backslash newline : β} {spansLines : Bool} {us : List β}
    (inside : ∀ u ∈ us, u ≠ quote ∧ u ≠ backslash ∧ (u = newline → spansLines = true))
    (rest : List β) : stringRest quote backslash newline spansLines (us ++ rest) =
      us.length + stringRest quote backslash newline spansLines rest := by
  induction us with
  | nil => simp
  | cons u us ih =>
    obtain ⟨open_, plain, line⟩ := inside u List.mem_cons_self
    rw [List.cons_append, stringRest_step open_ plain line,
      ih fun v listed => inside v (List.mem_cons_of_mem u listed), List.length_cons]
    omega

theorem stringRest_encode {quote : Char} (ascii : IsAscii quote) (spansLines : Bool) (t : List Char) :
    stringRest (C.low quote) (C.low '\\') (C.low '\n') spansLines (C.encode t) =
      (C.encode (t.take (stringRest quote '\\' '\n' spansLines t))).length := by
  have backslash : IsAscii '\\' := by decide
  have newline : IsAscii '\n' := by decide
  -- a character that is passed is passed unit by unit
  have inside (c : Char) (open_ : c ≠ quote) (plain : c ≠ '\\')
      (line : ¬(spansLines = false ∧ c = '\n')) (u : β) (listed : u ∈ C.code c) :
      u ≠ C.low quote ∧ u ≠ C.low '\\' ∧ (u = C.low '\n' → spansLines = true) := by
    refine ⟨C.apart open_ ascii listed, C.apart plain backslash listed, fun same => ?_⟩
    by_contra lines
    have other : c ≠ '\n' := fun is => line ⟨Bool.eq_false_iff.mpr lines, is⟩
    exact C.apart other newline listed same
  fun_induction stringRest quote '\\' '\n' spansLines t with
  | case1 => rfl
  | case2 => simp [C.encode_ascii ascii, stringRest]
  | case3 u open_ line =>
    rw [line.2] at open_ ⊢
    have other : C.low '\n' ≠ C.low quote := mt (C.low_inj newline ascii) open_
    simp [C.encode_ascii newline, stringRest, other, line.1]
  | case4 u open_ line =>
    by_cases escape : u = '\\'
    · rw [escape] at open_ ⊢
      have other : C.low '\\' ≠ C.low quote := mt (C.low_inj backslash ascii) open_
      have other' : C.low '\\' ≠ C.low '\n' := mt (C.low_inj backslash newline) (by decide)
      simp [C.encode_ascii backslash, stringRest, other, other']
    · rw [C.encode_cons, stringRest_skip (inside u open_ escape line)]
      simp [stringRest, C.encode_cons]
  | case5 v rest =>
    obtain ⟨w, ws, word⟩ := List.exists_cons_of_ne_nil (C.nonempty v)
    rw [C.encode_ascii ascii, C.encode_cons, word, List.cons_append, stringRest, if_pos rfl]
    simp [C.encode_ascii ascii]
  | case6 v rest open_ ih =>
    obtain ⟨w, ws, word⟩ := List.exists_cons_of_ne_nil (C.nonempty v)
    have other : C.low '\\' ≠ C.low quote := mt (C.low_inj backslash ascii) open_
    have tail (x : β) (listed : x ∈ ws) :
        x ≠ C.low quote ∧ x ≠ C.low '\\' ∧ (x = C.low '\n' → spansLines = true) :=
      ⟨C.apart_tail word ascii listed, C.apart_tail word backslash listed,
        fun same => absurd same (C.apart_tail word newline listed)⟩
    have taken : ('\\' :: v :: rest).take (2 + stringRest quote '\\' '\n' spansLines rest) =
        '\\' :: v :: rest.take (stringRest quote '\\' '\n' spansLines rest) := by
      rw [Nat.add_comm]
      rfl
    rw [taken, C.encode_ascii backslash, C.encode_ascii backslash, C.encode_cons, C.encode_cons, word,
      List.cons_append, stringRest, if_neg other, if_pos rfl, stringRest_skip tail, ih]
    simp only [List.length_cons, List.length_append]
    omega
  | case7 u v rest open_ plain line =>
    obtain ⟨w, ws, word⟩ := List.exists_cons_of_ne_nil (C.nonempty v)
    rw [line.2] at open_ ⊢
    have other : C.low '\n' ≠ C.low quote := mt (C.low_inj newline ascii) open_
    have other' : C.low '\n' ≠ C.low '\\' := mt (C.low_inj newline backslash) (by decide)
    rw [C.encode_ascii newline, C.encode_cons, word, List.cons_append, stringRest, if_neg other,
      if_neg other', if_pos ⟨line.1, rfl⟩]
    rfl
  | case8 u v rest open_ plain line ih =>
    rw [C.encode_cons, stringRest_skip (inside u open_ plain line), ih, C.length_take_cons]

private theorem blockRest_step {star slash u : β} {rest : List β}
    (goes : ¬(u = star ∧ rest.head? = some slash)) :
    blockRest star slash (u :: rest) = 1 + blockRest star slash rest := by
  rw [blockRest, if_neg goes]

private theorem blockRest_skip {star slash : β} {us : List β} (inside : ∀ u ∈ us, u ≠ star)
    (rest : List β) :
    blockRest star slash (us ++ rest) = us.length + blockRest star slash rest := by
  induction us with
  | nil => simp
  | cons u us ih =>
    have goes := inside u List.mem_cons_self
    rw [List.cons_append, blockRest_step fun both => goes both.1,
      ih fun v listed => inside v (List.mem_cons_of_mem u listed), List.length_cons]
    omega

theorem blockRest_encode (t : List Char) : blockRest (C.low '*') (C.low '/') (C.encode t) =
    (C.encode (t.take (blockRest '*' '/' t))).length := by
  induction t with
  | nil => rfl
  | cons c t ih =>
    by_cases star : c = '*'
    · subst star
      have head := C.head_encode (t := t) (d := '/') (by decide)
      rw [C.encode_ascii (by decide), blockRest, blockRest]
      simp only [head, true_and]
      by_cases closes : t.head? = some '/'
      · obtain ⟨rest, rfl⟩ := List.head?_eq_some_iff.mp closes
        simp [C.encode_ascii (show IsAscii '*' by decide), C.encode_ascii (show IsAscii '/' by decide)]
      · simp only [closes, if_false]
        rw [C.length_take_cons, ih, C.ascii (by decide)]
        rfl
    · have inside (u : β) (listed : u ∈ C.code c) : u ≠ C.low '*' := C.apart star (by decide) listed
      rw [C.encode_cons, blockRest_skip inside, blockRest_step fun both => star both.1,
        C.length_take_cons, ih]

private theorem cToken_ascii {c : Char} (t : List Char) (first : IsAscii c) :
    cToken C () (C.encode (c :: t)) = { cToken Coding.chars () (c :: t) with
      length := (C.encode ((c :: t).take (cToken Coding.chars () (c :: t)).length)).length } := by
  have line := lineRest_encode C (c :: t)
  have star := C.head_encode (t := t) (d := '*') (by decide)
  have slash := C.head_encode (t := t) (d := '/') (by decide)
  rw [C.encode_ascii first] at line ⊢
  rw [cToken, cToken]
  simp only [Coding.low_chars, C.low_eq first (show IsAscii '/' by decide), star, slash,
    C.low_eq first (show IsAscii '"' by decide), C.low_eq first (show IsAscii '`' by decide)]
  by_cases block : c = '/' ∧ t.head? = some '*'
  · obtain ⟨rest, rfl⟩ := List.head?_eq_some_iff.mp block.2
    have two : 2 + blockRest (C.low '*') (C.low '/') (C.encode rest) =
        (C.encode ((c :: '*' :: rest).take (2 + blockRest '*' '/' rest))).length := by
      have split : 2 + blockRest '*' '/' rest = 1 + (1 + blockRest '*' '/' rest) := by omega
      rw [split, C.length_take_cons, C.length_take_cons, ← blockRest_encode, C.ascii first,
        C.ascii (by decide), List.length_singleton, List.length_singleton, ← Nat.add_assoc]
    simp only [eq_true block, if_true, C.encode_ascii (show IsAscii '*' by decide), List.drop_succ_cons,
      List.drop_zero, two]
  simp only [block, if_false]
  by_cases comment : c = '/' ∧ t.head? = some '/'
  · simp only [eq_true comment, if_true, line]
  simp only [comment, if_false]
  by_cases quote : c = '"' ∨ c = '`'
  · simp only [eq_true quote, if_true, C.length_take_cons, stringRest_encode C first, C.ascii first, List.length_singleton]
    congr!
  simp [quote, C.ascii first, C.encode_cons]

theorem cToken_follows : Follows C (cToken Coding.chars) (cToken C) where
  progress state c t := by
    rw [cToken]
    split_ifs
    · simp only
      omega
    · next line =>
      have slash : c = '/' := line.1
      simp [lineRest, slash]
    · simp only
      omega
    · exact Nat.one_pos
  ascii _ _ t first := cToken_ascii C t first
  wide _ c t other := by
    have none_ {d : Char} (ascii : IsAscii d) : c ≠ d := fun same => other (same ▸ ascii)
    have units {d : Char} (ascii : IsAscii d) (u : β) (listed : u ∈ C.code c) : u ≠ C.low d :=
      C.apart (none_ ascii) ascii listed
    refine ⟨(), ?_, fun u listed rest => ?_⟩
    · simp [cToken, none_ (show IsAscii '/' by decide), none_ (show IsAscii '"' by decide),
        none_ (show IsAscii '`' by decide)]
    · simp [cToken, units (show IsAscii '/' by decide) u listed,
        units (show IsAscii '"' by decide) u listed, units (show IsAscii '`' by decide) u listed]

theorem blanks_encode (t : List Char) : blanks C (C.encode t) = blanks Coding.chars t ∧
    (C.encode (t.take (blanks Coding.chars t))).length = blanks Coding.chars t := by
  induction t with
  | nil => exact ⟨rfl, rfl⟩
  | cons c t ih =>
    have space : IsAscii ' ' := by decide
    have tab : IsAscii '\t' := by decide
    by_cases blank : c = ' ' ∨ c = '\t'
    · have first : IsAscii c := by
        rcases blank with rfl | rfl
        · exact space
        · exact tab
      have more : blanks Coding.chars (c :: t) = 1 + blanks Coding.chars t := by
        simp [blanks, blank, Nat.add_comm]
      rw [more, C.length_take_cons, ih.2, C.encode_ascii first, C.ascii first, ← ih.1]
      refine ⟨?_, rfl⟩
      simp [blanks, C.low_eq first space, C.low_eq first tab, blank, Nat.add_comm]
    · have none_ : blanks Coding.chars (c :: t) = 0 := by simp [blanks, blank]
      rw [none_]
      refine ⟨?_, rfl⟩
      obtain ⟨u, us, word⟩ := List.exists_cons_of_ne_nil (C.nonempty c)
      have first : u ∈ C.code c := word ▸ List.mem_cons_self
      rw [not_or] at blank
      have other := C.apart blank.1 space first
      have other' := C.apart blank.2 tab first
      simp [blanks, C.encode_cons, word, other, other']

private theorem rubyComment_skip {us : List β} (inside : ∀ u ∈ us, u ≠ C.low '\n') (rest : List β) :
    rubyComment C (us ++ rest) = us.length + rubyComment C rest := by
  induction us with
  | nil => simp
  | cons u us ih =>
    have goes := inside u List.mem_cons_self
    rw [List.cons_append, rubyComment, if_neg fun both => goes both.1,
      ih fun v listed => inside v (List.mem_cons_of_mem u listed), List.length_cons]
    omega

theorem rubyComment_encode (t : List Char) : rubyComment C (C.encode t) =
    (C.encode (t.take (rubyComment Coding.chars t))).length := by
  have newline : IsAscii '\n' := by decide
  have ascii : ∀ p ∈ closing, IsAscii p := by decide
  induction t with
  | nil => rfl
  | cons c t ih =>
    obtain ⟨count, width⟩ := blanks_encode C t
    have dropped : (C.encode t).drop (blanks Coding.chars t) =
        C.encode (t.drop (blanks Coding.chars t)) := by
      conv_lhs => rw [← width]
      rw [C.drop_encode]
    have starts := C.isPrefixOf_encode (t := t.drop (blanks Coding.chars t)) ascii
    by_cases ends : c = '\n' ∧ closing.isPrefixOf (t.drop (blanks Coding.chars t)) = true
    · obtain ⟨rfl, here⟩ := ends
      obtain ⟨rest, behind⟩ := List.isPrefixOf_iff_prefix.mp here
      have after : t.drop (blanks Coding.chars t + 4) = rest := by
        rw [← List.drop_drop, ← behind]
        rfl
      have after' : (C.encode t).drop (blanks Coding.chars t + 4) = C.encode rest := by
        rw [← List.drop_drop, dropped, ← behind, C.encode_append]
        exact List.drop_left' (C.length_ascii ascii)
      have reads : (C.encode closing).isPrefixOf ((C.encode t).drop (blanks Coding.chars t)) := by
        rw [dropped]
        exact starts.trans here
      have onChars : rubyComment Coding.chars ('\n' :: t) =
          1 + (blanks Coding.chars t + (4 + lineRest '\n' rest)) := by
        rw [rubyComment, Coding.encode_chars, if_pos ⟨rfl, here⟩, after]
        rfl
      have taken : t.take (blanks Coding.chars t + (4 + lineRest '\n' rest)) =
          t.take (blanks Coding.chars t) ++ (closing ++ rest.take (lineRest '\n' rest)) := by
        rw [List.take_add, ← behind, Nat.add_comm 4]
        rfl
      rw [onChars, C.length_take_cons, taken, C.encode_append, C.encode_append, List.length_append,
        List.length_append, width, C.length_ascii ascii, ← lineRest_encode, C.encode_ascii newline,
        rubyComment, count, if_pos ⟨rfl, reads⟩, after', C.ascii newline]
      rfl
    · have onChars : rubyComment Coding.chars (c :: t) = 1 + rubyComment Coding.chars t := by
        rw [rubyComment, Coding.encode_chars]
        exact if_neg ends
      rw [onChars, C.length_take_cons, ← ih]
      by_cases line : c = '\n'
      · have goes : ¬closing.isPrefixOf (t.drop (blanks Coding.chars t)) = true :=
          fun here => ends ⟨line, here⟩
        rw [line, C.encode_ascii newline, rubyComment, count, if_neg, C.ascii newline]
        · rfl
        · rw [dropped, starts]
          exact fun both => goes both.2
      · have inside (u : β) (listed : u ∈ C.code c) : u ≠ C.low '\n' := C.apart line newline listed
        rw [C.encode_cons, rubyComment_skip C inside]

omit [DecidableEq β] in
private theorem getLast_encode {t : List Char} {d : Char} (ascii : IsAscii d) :
    (C.encode t).getLast? = some (C.low d) ↔ t.getLast? = some d := by
  cases t using List.reverseRecOn with
  | nil => simp
  | append_singleton t c =>
    rw [C.encode_append, C.encode_cons, C.encode_nil, List.append_nil, List.getLast?_concat,
      Option.some.injEq]
    by_cases same : c = d
    · rw [same, C.ascii ascii, List.getLast?_concat]
      simp
    · have last : (C.encode t ++ C.code c).getLast? = (C.code c).getLast? :=
        List.getLast?_append_of_ne_nil _ (C.nonempty c)
      rw [last]
      refine iff_of_false (fun is => ?_) same
      exact C.apart same ascii (List.mem_of_getLast? is) rfl

private theorem rubyToken_block (atLineStart : Bool) {t : List Char} (start : atLineStart = true)
    (rest : List Char) (opens : '=' :: t = opening ++ rest) :
    rubyToken C atLineStart (C.encode ('=' :: t)) = { rubyToken Coding.chars atLineStart ('=' :: t) with
      length :=
        (C.encode (('=' :: t).take (rubyToken Coding.chars atLineStart ('=' :: t)).length)).length } := by
  have ascii : ∀ p ∈ opening, IsAscii p := by decide
  have here : opening.isPrefixOf ('=' :: t) = true :=
    List.isPrefixOf_iff_prefix.mpr ⟨rest, opens.symm⟩
  have here' : (C.encode opening).isPrefixOf (C.encode ('=' :: t)) = true :=
    (C.isPrefixOf_encode ascii).trans here
  have behind : ('=' :: t).drop 6 = rest := by
    rw [opens]
    rfl
  have behind' : (C.encode ('=' :: t)).drop 6 = C.encode rest := by
    rw [opens, C.encode_append]
    exact List.drop_left' (C.length_ascii ascii)
  have onChars : rubyToken Coding.chars atLineStart ('=' :: t) =
      ⟨.blank, 6 + rubyComment Coding.chars rest,
        (('=' :: t).take (6 + rubyComment Coding.chars rest)).getLast? = some '\n'⟩ := by
    rw [rubyToken, Coding.encode_chars, if_pos ⟨start, rfl, here⟩, behind]
    rfl
  have measure_ : 6 + rubyComment C (C.encode rest) =
      (C.encode (('=' :: t).take (6 + rubyComment Coding.chars rest))).length := by
    have taken : ('=' :: t).take (6 + rubyComment Coding.chars rest) =
        opening ++ rest.take (rubyComment Coding.chars rest) := by
      rw [opens, Nat.add_comm]
      rfl
    rw [taken, C.encode_append, List.length_append, C.length_ascii ascii, rubyComment_encode]
    rfl
  have onUnits : rubyToken C atLineStart (C.encode ('=' :: t)) =
      ⟨.blank, 6 + rubyComment C (C.encode rest),
        ((C.encode ('=' :: t)).take (6 + rubyComment C (C.encode rest))).getLast? =
          some (C.low '\n')⟩ := by
    have shape := C.encode_ascii (c := '=') (t := t) (by decide)
    rw [shape] at here' behind' ⊢
    rw [rubyToken, if_pos ⟨start, rfl, here'⟩, behind']
  rw [onUnits, onChars, measure_, C.take_encode]
  simp only [getLast_encode C (show IsAscii '\n' by decide)]

private theorem rubyToken_ascii (atLineStart : Bool) {c : Char} (t : List Char) (first : IsAscii c) :
    rubyToken C atLineStart (C.encode (c :: t)) = { rubyToken Coding.chars atLineStart (c :: t) with
      length := (C.encode ((c :: t).take (rubyToken Coding.chars atLineStart (c :: t)).length)).length } := by
  by_cases block : atLineStart = true ∧ c = '=' ∧ opening.isPrefixOf (c :: t) = true
  · obtain ⟨start, rfl, opens⟩ := block
    obtain ⟨rest, opens⟩ := List.isPrefixOf_iff_prefix.mp opens
    exact rubyToken_block C atLineStart start rest opens.symm
  have line := lineRest_encode C (c :: t)
  have starts : (C.encode opening).isPrefixOf (C.encode (c :: t)) = opening.isPrefixOf (c :: t) :=
    C.isPrefixOf_encode (by decide)
  rw [C.encode_ascii first] at line starts ⊢
  rw [rubyToken, rubyToken]
  simp only [Coding.low_chars, Coding.encode_chars, starts, C.low_eq first (show IsAscii '=' by decide),
    C.low_eq first (show IsAscii '"' by decide), C.low_eq first (show IsAscii '\'' by decide),
    C.low_eq first (show IsAscii '#' by decide), C.low_eq first (show IsAscii '\n' by decide),
    C.low_eq first (show IsAscii ' ' by decide), C.low_eq first (show IsAscii '\t' by decide),
    eq_false block, if_false]
  by_cases quote : c = '"' ∨ c = '\''
  · simp only [eq_true quote, if_true, C.length_take_cons, stringRest_encode C first, C.ascii first,
      List.length_singleton]
  simp only [quote, if_false]
  by_cases comment : c = '#'
  · simp only [eq_true comment, if_true, line]
  simp only [comment, if_false]
  -- one unit is passed, and the state is the same
  have one : (C.encode ((c :: t).take 1)).length = 1 := by
    rw [List.take_succ_cons, List.take_zero, C.encode_ascii first]
    rfl
  by_cases newline : c = '\n'
  · simp only [eq_true newline, if_true, one]
  by_cases blank : c = ' ' ∨ c = '\t'
  · simp only [newline, if_false, eq_true blank, if_true, one]
  · simp only [newline, blank, if_false, one]

theorem rubyToken_follows : Follows C (rubyToken Coding.chars) (rubyToken C) where
  progress atLineStart c t := by
    rw [rubyToken]
    split_ifs
    · simp only
      omega
    · simp only
      omega
    · next comment =>
      have hash : c = '#' := comment
      simp [lineRest, hash]
    · exact Nat.one_pos
    · exact Nat.one_pos
    · exact Nat.one_pos
  ascii atLineStart _ t first := rubyToken_ascii C atLineStart t first
  wide _ c t other := by
    have none_ {d : Char} (ascii : IsAscii d) : c ≠ d := fun same => other (same ▸ ascii)
    have units {d : Char} (ascii : IsAscii d) (u : β) (listed : u ∈ C.code c) : u ≠ C.low d :=
      C.apart (none_ ascii) ascii listed
    have equals : IsAscii '=' := by decide
    have double : IsAscii '"' := by decide
    have single : IsAscii '\'' := by decide
    have hash : IsAscii '#' := by decide
    have newline : IsAscii '\n' := by decide
    have space : IsAscii ' ' := by decide
    have tab : IsAscii '\t' := by decide
    refine ⟨false, ?_, fun u listed rest => ?_⟩
    · simp [rubyToken, none_ equals, none_ double, none_ single, none_ hash, none_ newline, none_ space,
        none_ tab]
    · have apart {d : Char} (ascii : IsAscii d) : u ≠ C.low d := units ascii u listed
      simp [rubyToken, apart equals, apart double, apart single, apart hash, apart newline,
        apart space, apart tab]

private theorem quoted_eq (quote : UInt16) (breaks : Bool) (rest : JsString) :
    quoted quote breaks rest = stringRest quote BACKSLASH NEWLINE (!breaks) rest := by
  fun_induction quoted quote breaks rest <;> simp_all [stringRest]

private theorem lineRest_indexOf (rest : JsString) :
    lineRest NEWLINE rest = (indexOf [NEWLINE] rest).elim rest.length id := by
  have first := indexOf_unit NEWLINE rest
  have all {line : JsString} (clean : NEWLINE ∉ line) (u : UInt16) (listed : u ∈ line) :
      decide (u ≠ NEWLINE) = true := decide_eq_true fun same => clean (same ▸ listed)
  cases found : indexOf [NEWLINE] rest with
  | none =>
    rw [found] at first
    rw [lineRest, List.takeWhile_eq_self_iff.mpr (all first)]
    rfl
  | some k =>
    rw [found] at first
    obtain ⟨clean, newline⟩ := first
    have within : k ≤ rest.length := by
      by_contra beyond
      rw [List.drop_eq_nil_of_le (by omega)] at newline
      cases newline
    have stops : decide (NEWLINE ≠ NEWLINE) = false := rfl
    conv_lhs => rw [lineRest, ← List.take_append_drop k rest]
    rw [List.takeWhile_append_of_pos (all clean), newline, List.takeWhile_cons, stops, if_neg Bool.false_ne_true,
      List.append_nil, List.length_take, Nat.min_eq_left within]
    rfl

private theorem blockRest_indexOf (rest : JsString) :
    blockRest STAR SLASH rest = (indexOf [STAR, SLASH] rest).elim rest.length (· + 2) := by
  induction rest with
  | nil => rfl
  | cons u rest ih =>
    have starts : [STAR, SLASH].isPrefixOf (u :: rest) = true ↔ u = STAR ∧ rest.head? = some SLASH := by
      cases rest with
      | nil => simp
      | cons v rest =>
        rw [List.isPrefixOf_cons_cons, List.isPrefixOf_cons_cons, List.isPrefixOf_nil_left, Bool.and_true,
          Bool.and_eq_true, beq_iff_eq, beq_iff_eq, List.head?_cons, Option.some.injEq]
        exact ⟨fun both => ⟨both.1.symm, both.2.symm⟩, fun both => ⟨both.1.symm, both.2.symm⟩⟩
    rw [blockRest, indexOf, ih]
    by_cases here : u = STAR ∧ rest.head? = some SLASH
    · rw [if_pos here, if_pos (starts.mpr here)]
      rfl
    · rw [if_neg here, if_neg (mt starts.mp here)]
      cases indexOf [STAR, SLASH] rest with
      | none => simp [Nat.add_comm]
      | some k =>
        simp only [Option.elim_some, Option.map_some]
        omega

theorem cStyleRound_eq : cStyleRound false = cToken Coding.utf16 := by
  funext state rest
  cases rest with
  | nil => rfl
  | cons c rest =>
    have star : Coding.utf16.low '*' = STAR := rfl
    have slash : Coding.utf16.low '/' = SLASH := rfl
    have newline : Coding.utf16.low '\n' = NEWLINE := rfl
    have double : Coding.utf16.low '"' = DQUOTE := rfl
    have back : Coding.utf16.low '`' = BACKTICK := rfl
    have escape : Coding.utf16.low '\\' = BACKSLASH := rfl
    rw [cStyleRound, cToken, star, slash, newline, double, back, escape, ← List.head?_eq_getElem?]
    by_cases block : c = SLASH ∧ rest.head? = some STAR
    · obtain ⟨rest, rfl⟩ := List.head?_eq_some_iff.mp block.2
      rw [if_pos block, if_pos block, blockRest_indexOf]
      simp only [List.drop_succ_cons, List.drop_zero, List.length_cons]
      cases indexOf [STAR, SLASH] rest with
      | none =>
        simp only [Option.elim_none]
        congr 1
        omega
      | some k => rfl
    rw [if_neg block, if_neg block]
    by_cases comment : c = SLASH ∧ rest.head? = some SLASH
    · obtain ⟨rest, rfl⟩ := List.head?_eq_some_iff.mp comment.2
      have more : lineRest NEWLINE (c :: SLASH :: rest) = 2 + lineRest NEWLINE rest := by
        rw [comment.1, Nat.add_comm]
        rfl
      rw [if_pos comment, if_pos comment, more, lineRest_indexOf]
      simp only [List.drop_succ_cons, List.drop_zero, List.length_cons]
      cases indexOf [NEWLINE] rest with
      | none =>
        simp only [Option.elim_none]
        congr 1
        omega
      | some k => rfl
    rw [if_neg comment, if_neg comment, quoted_eq]
    simp

private theorem rubyBlock_eq (rest : JsString) : rubyBlock rest = rubyComment Coding.utf16 rest := by
  induction rest with
  | nil => rfl
  | cons u rest ih =>
    rw [rubyBlock, rubyComment, ih, Nat.add_assoc, Nat.add_assoc]
    rfl

theorem rubyRound_eq : rubyRound = rubyToken Coding.utf16 := by
  funext atLineStart rest
  cases rest with
  | nil => rfl
  | cons c rest =>
    rw [rubyRound, rubyToken, rubyBlock_eq, quoted_eq]
    rfl

/-! ### The native strippers -/

private theorem length_charUnits (c : Char) :
    (charUnits c).length = if c.toNat < 0x10000 then 1 else 2 := by
  have value : c.val.toNat = c.toNat := rfl
  have limit : c.val < 0x10000 ↔ c.toNat < 0x10000 := by
    rw [UInt32.lt_iff_toNat_lt, value]
    rfl
  rw [charUnits]
  simp only [limit]
  split_ifs <;> rfl

private theorem lead_byte (c : Char) : ∃ b bs, String.utf8EncodeChar c = b :: bs ∧
    (if b < 0xC0 then 1 else if b < 0xE0 then 2 else if b < 0xF0 then 3 else 4) = 1 + bs.length ∧
      (1 + bs.length = 4 ↔ (charUnits c).length = 2) ∧ (b = 0x0A ↔ c = '\n') := by
  have newline : c = '\n' ↔ c.toNat = 0x0A := by
    rw [← Char.toNat_inj]
    rfl
  rw [newline, length_charUnits]
  cases Kernel.JsBytes.encoded c
  all_goals
    refine ⟨_, _, ‹String.utf8EncodeChar c = _›, ?_⟩
    simp (disch := omega) only [UInt8.lt_iff_toNat_lt, ← UInt8.toNat_inj, Kernel.JsBytes.byte_toNat,
      UInt8.reduceToNat, List.length_cons, List.length_nil]
    grind

theorem emit_blank_encode (t : List Char) :
    emit_blank (Coding.utf8.encode t) = Coding.utf8.encode (t.flatMap push_blank) := by
  induction t with
  | nil => rw [Coding.encode_nil, emit_blank]; rfl
  | cons c t ih =>
    obtain ⟨b, bs, word, len, pair, newline⟩ := lead_byte c
    have word : Coding.utf8.code c = b :: bs := word
    rw [Coding.encode_cons, word, List.cons_append, emit_blank, List.flatMap_cons,
      Coding.encode_append, push_blank, ← ih]
    by_cases line : c = '\n'
    · rw [if_pos (newline.mpr line), if_pos line]
      have none_ : bs = [] := by
        rw [line] at word
        cases word
        rfl
      rw [none_]
      rfl
    · rw [if_neg (mt newline.mp line), if_neg line]
      simp only [len, Nat.add_sub_cancel_left, List.drop_left]
      rw [Coding.utf8.encode_replicate (by decide)]
      congr 1
      by_cases wide : 1 + bs.length = 4
      · rw [if_pos wide, pair.mp wide]
        rfl
      · have single : (charUnits c).length = 1 := by
          have sizes := length_charUnits c
          split_ifs at sizes
          · exact sizes
          · exact absurd (pair.mpr sizes) wide
        rw [if_neg wide, single]
        rfl

theorem blankUnit_encode (t : List Char) :
    (Coding.utf16.encode t).map blankUnit = Coding.utf16.encode (t.flatMap push_blank) := by
  induction t with
  | nil => rfl
  | cons c t ih =>
    rw [Coding.encode_cons, List.map_append, ih, List.flatMap_cons, Coding.encode_append, push_blank]
    congr 1
    by_cases line : c = '\n'
    · rw [if_pos line, line]
      rfl
    · have inside : ∀ u ∈ charUnits c, blankUnit u = SPACE := by
        intro u listed
        have other := Coding.utf16.apart line (by decide) listed
        exact if_neg other
      have all := (List.map_congr_left inside).trans List.map_const'
      rw [if_neg line, Coding.utf16.encode_replicate (by decide)]
      exact all

private theorem slice_eq_take (src : Kernel.JsBytes.Bytes) (i n : Nat) :
    Kernel.JsBytes.slice src i (i + n) = (src.drop i).take n := by
  rw [Kernel.JsBytes.slice, List.drop_take, Nat.add_sub_cancel_left]

private theorem slice_concat (src : Kernel.JsBytes.Bytes) {copied i : Nat} (behind : copied ≤ i)
    (n : Nat) : Kernel.JsBytes.slice src copied (i + n) =
      Kernel.JsBytes.slice src copied i ++ (src.drop i).take n := by
  obtain ⟨k, rfl⟩ := Nat.exists_eq_add_of_le behind
  rw [Nat.add_assoc, slice_eq_take, slice_eq_take, List.take_add, List.drop_drop]

private theorem slice_drop_bytes (src : Kernel.JsBytes.Bytes) {copied i : Nat} (behind : copied ≤ i) :
    Kernel.JsBytes.slice src copied i ++ src.drop i = src.drop copied := by
  obtain ⟨k, rfl⟩ := Nat.exists_eq_add_of_le behind
  rw [slice_eq_take, ← List.drop_drop, List.take_append_drop]

private theorem cToken_bytes (c : UInt8) (rest : Kernel.JsBytes.Bytes) :
    cToken Coding.utf8 () (c :: rest) =
      if c = 0x2F ∧ rest.headD 0 = 0x2A then ⟨.blank, 2 + blockRest 0x2A 0x2F (rest.drop 1), ()⟩
      else if c = 0x2F ∧ rest.headD 0 = 0x2F then ⟨.blank, lineRest 0x0A (c :: rest), ()⟩
      else if c = 0x22 ∨ c = 0x60 then ⟨.literal, 1 + stringRest c 0x5C 0x0A (c == 0x60) rest, ()⟩
      else ⟨.plain, 1, ()⟩ := by
  have head (b : UInt8) (some_ : b ≠ 0) : rest.head? = some b ↔ rest.headD 0 = b := by
    cases rest with
    | nil => simpa using some_.symm
    | cons d rest => simp
  have star : Coding.utf8.low '*' = 0x2A := rfl
  have slash : Coding.utf8.low '/' = 0x2F := rfl
  have newline : Coding.utf8.low '\n' = 0x0A := rfl
  have double : Coding.utf8.low '"' = 0x22 := rfl
  have back : Coding.utf8.low '`' = 0x60 := rfl
  have escape : Coding.utf8.low '\\' = 0x5C := rfl
  rw [cToken, star, slash, newline, double, back, escape]
  simp only [head 0x2A (by decide), head 0x2F (by decide)]
  rfl

private theorem strip_cFrom_eq (src : Kernel.JsBytes.Bytes) (fuel copied i : Nat)
    (out : Kernel.JsBytes.Bytes) (behind : copied ≤ i) :
    strip_cFrom src fuel copied i out = out ++ Kernel.JsBytes.slice src copied i ++
      written (cToken Coding.utf8) emit_blank fuel () (src.drop i) := by
  induction fuel generalizing copied i out with
  | zero => rw [strip_cFrom, written, List.append_assoc, slice_drop_bytes src behind]
  | succ fuel ih =>
    rw [strip_cFrom]
    cases here : src.drop i with
    | nil =>
      have whole := slice_drop_bytes src behind
      rw [here, List.append_nil] at whole
      simp only [written, List.append_nil, whole]
    | cons c rest =>
      -- a comment of `n` bytes is blanked behind what precedes it, and what is passed is copied later
      have blanks_ (n : Nat) : strip_cFrom src fuel (i + n) (i + n) (out ++
          Kernel.JsBytes.slice src copied i ++ emit_blank (Kernel.JsBytes.slice src i (i + n))) =
          out ++ Kernel.JsBytes.slice src copied i ++ (emit_blank ((c :: rest).take n) ++
            written (cToken Coding.utf8) emit_blank fuel () ((c :: rest).drop n)) := by
        have none_ : Kernel.JsBytes.slice src (i + n) (i + n) = [] := by
          have empty := slice_eq_take src (i + n) 0
          rwa [Nat.add_zero, List.take_zero] at empty
        rw [ih _ _ _ (Nat.le_refl _), none_, slice_eq_take, ← List.drop_drop, here, List.append_nil,
          List.append_assoc]
      have passes (n : Nat) : strip_cFrom src fuel copied (i + n) out =
          out ++ Kernel.JsBytes.slice src copied i ++ ((c :: rest).take n ++
            written (cToken Coding.utf8) emit_blank fuel () ((c :: rest).drop n)) := by
        rw [ih _ _ _ (by omega), slice_concat src behind, ← List.drop_drop, here]
        simp only [List.append_assoc]
      rw [written, cToken_bytes]
      simp only
      by_cases block : c = 0x2F ∧ rest.headD 0 = 0x2A
      · rw [if_pos block, if_pos block, Nat.add_assoc]
        exact blanks_ _
      rw [if_neg block, if_neg block]
      by_cases comment : c = 0x2F ∧ rest.headD 0 = 0x2F
      · rw [if_pos comment, if_pos comment]
        exact blanks_ _
      rw [if_neg comment, if_neg comment]
      by_cases quote : c = 0x22 ∨ c = 0x60
      · rw [if_pos quote, if_pos quote, Nat.add_assoc]
        exact passes _
      · rw [if_neg quote, if_neg quote]
        exact passes 1

theorem strip_c_eq (src : Kernel.JsBytes.Bytes) :
    strip_c src = written (cToken Coding.utf8) emit_blank src.length () src := by
  rw [strip_c, strip_cFrom_eq src _ _ _ _ (Nat.le_refl 0)]
  rfl

private theorem rubyBlockRest_eq (rest : Text) :
    rubyBlockRest rest = rubyComment Coding.chars rest := by
  induction rest with
  | nil => rfl
  | cons c rest ih =>
    have closes : closing.isPrefixOf (rest.drop (blanks Coding.chars rest)) = true ↔
        (rest.drop (blanks Coding.chars rest)).take 4 = ['=', 'e', 'n', 'd'] := by
      rw [List.isPrefixOf_iff_prefix, List.prefix_iff_eq_take, eq_comm]
      rfl
    rw [rubyBlockRest, rubyComment, ih, Coding.encode_chars, Nat.add_assoc, Nat.add_assoc]
    simp only [closes]
    rfl

private theorem strip_ruby_commentsFrom_eq (fuel : Nat) (atLineStart : Bool) (rest : Text) :
    strip_ruby_commentsFrom fuel atLineStart rest =
      written (rubyToken Coding.chars) (List.flatMap push_blank) fuel atLineStart rest := by
  induction fuel generalizing atLineStart rest with
  | zero => rfl
  | succ fuel ih =>
    cases rest with
    | nil => rfl
    | cons c rest =>
      have opens : opening.isPrefixOf (c :: rest) = true ↔
          (c :: rest).take 6 = ['=', 'b', 'e', 'g', 'i', 'n'] := by
        rw [List.isPrefixOf_iff_prefix, List.prefix_iff_eq_take, eq_comm]
        rfl
      rw [strip_ruby_commentsFrom, written, rubyToken, Coding.encode_chars]
      simp only [Coding.low_chars, opens, ih, rubyBlockRest_eq]
      by_cases block : atLineStart = true ∧ c = '=' ∧
          (c :: rest).take 6 = ['=', 'b', 'e', 'g', 'i', 'n']
      · rw [if_pos block]
        simp only [eq_true block, if_true]
        rfl
      rw [if_neg block]
      simp only [eq_false block, if_false]
      by_cases quote : c = '"' ∨ c = '\''
      · rw [if_pos quote]
        simp only [eq_true quote, if_true]
        rfl
      rw [if_neg quote]
      simp only [quote, if_false]
      by_cases comment : c = '#'
      · rw [if_pos comment]
        simp only [eq_true comment, if_true]
      rw [if_neg comment]
      simp only [comment, if_false]
      by_cases newline : c = '\n'
      · rw [if_pos newline]
        simp only [eq_true newline, if_true]
        rfl
      rw [if_neg newline]
      simp only [newline, if_false]
      by_cases blank : c = ' ' ∨ c = '\t'
      · rw [if_pos blank]
        simp only [eq_true blank, if_true]
        rfl
      · rw [if_neg blank]
        simp only [blank, if_false]
        rfl

theorem strip_ruby_comments_eq (src : Text) : strip_ruby_comments src =
    written (rubyToken Coding.chars) (List.flatMap push_blank) src.length true src :=
  strip_ruby_commentsFrom_eq src.length true src

theorem strip_c_agrees (text : List Char) : ∃ out : List Char,
    stripCStyle (Coding.utf16.encode text) false = Coding.utf16.encode out ∧
      strip_c (Coding.utf8.encode text) = Coding.utf8.encode out := by
  refine ⟨written (cToken Coding.chars) (List.flatMap push_blank) text.length () text, ?_, ?_⟩
  · rw [stripCStyle_spans (cStyleRound_forward false), blanked_eq_written, cStyleRound_eq]
    exact (cToken_follows Coding.utf16).written_encode blankUnit_encode (Nat.le_refl _) (Nat.le_refl _)
  · rw [strip_c_eq]
    exact (cToken_follows Coding.utf8).written_encode emit_blank_encode (Nat.le_refl _) (Nat.le_refl _)

theorem strip_ruby_agrees (text : List Char) : stripRuby (Coding.utf16.encode text) =
    Coding.utf16.encode (strip_ruby_comments text) := by
  rw [stripRuby, blankSpans_spans rubyRound_forward, blanked_eq_written, rubyRound_eq,
    strip_ruby_comments_eq]
  exact (rubyToken_follows Coding.utf16).written_encode blankUnit_encode (Nat.le_refl _)
    (Nat.le_refl _)

/-- In every state of the memo, what the native strippers make of a text is what the JavaScript ones
make of it: its bytes for C, its characters for Ruby. -/
theorem strippers_agree (steps : List MemoStep) (text : String) :
    (∃ out : String,
      (stripCommentsForRegex (utf16 text) .c (MemoRun.after steps).current).1 = utf16 out ∧
        strip_c (utf8 text) = utf8 out) ∧
    (stripCommentsForRegex (utf16 text) .ruby (MemoRun.after steps).current).1 =
      utf16 (String.ofList (strip_ruby_comments text.toList)) := by
  have valid := (MemoRun.after_valid steps).1
  rw [(stripCommentsForRegex_valid valid _ .c).1, (stripCommentsForRegex_valid valid _ .ruby).1]
  obtain ⟨out, units, bytes⟩ := strip_c_agrees text.toList
  refine ⟨⟨String.ofList out, ?_, ?_⟩, ?_⟩
  · rw [utf16, utf16, String.toList_ofList]
    exact units
  · rw [utf8, utf8, String.toList_ofList]
    exact bytes
  · rw [utf16, utf16, String.toList_ofList]
    exact strip_ruby_agrees text.toList

end CodeGraph.Resolution.StrippersAgree
