import CodeGraph.Extraction.RazorScript

/-!
# What the writes are for

Each write blanks a Razor construct or a part of a control statement, or stands for an expression.
-/
namespace CodeGraph.Extraction.RazorScript

open Scanning Text

variable {s : JsString} {i to_ at_ limit : Nat}

/-- The word after an `@`. -/
def wordAfter (s : JsString) (at_ : Nat) : Option JsString := nameIn (slice s (at_ + 1) (at_ + 33))

inductive Recognised (s : JsString) : Write → Prop where
  | escape {at_ : Nat} (here : s[at_]? = some AT) (next : s[at_ + 1]? = some AT) :
      Recognised s (.blank at_ (at_ + 1))
  | comment {at_ stop : Nat} (here : s[at_]? = some AT) (next : s[at_ + 1]? = some STAR)
      (within : stop ≤ s.length)
      (ends : ∀ e, indexOf s [STAR, AT] (at_ + 2) = some e → stop ≤ e + 2) :
      Recognised s (.blank at_ stop)
  | bracketed {at_ : Nat} {e : After (at_ + 1)} (here : s[at_]? = some AT)
      (next : s[at_ + 1]? = some LBRACE ∨ s[at_ + 1]? = some LPAREN)
      (closed : pastBracket s (at_ + 1) = some e) : Recognised s (.blank at_ e)
  | mark {at_ : Nat} (here : s[at_]? = some AT) (next : s[at_ + 1]? = some COLON) :
      Recognised s (.blank at_ (at_ + 2))
  | expression {at_ stop : Nat} {word : JsString} (here : s[at_]? = some AT)
      (name : wordAfter s at_ = some word) (plain : word ∉ CONTROL)
      (past : stop ≤ pastExpression s (at_ + 1)) (within : stop ≤ s.length) :
      Recognised s (.blank at_ stop)
  /-- A part of a control statement. -/
  | statement {at_ limit start stop : Nat} {word : JsString} (here : s[at_]? = some AT)
      (name : wordAfter s at_ = some word) (control : word ∈ CONTROL) (from_ : at_ ≤ start)
      (until_ : stop ≤ (blankControl s at_ limit).2) (within : stop ≤ s.length) :
      Recognised s (.blank start stop)
  /-- The `0` of an expression. -/
  | value {at_ : Nat} (here : s[at_]? = some AT)
      (expression : s[at_ + 1]? = some LPAREN ∨ ∃ word ∉ CONTROL, wordAfter s at_ = some word) :
      Recognised s (.zero at_)

def Inside (s : JsString) (start stop : Nat) (w : Write) : Prop :=
  Recognised s w ∨ ∃ x y, w = .blank x y ∧ start ≤ x ∧ y ≤ stop

theorem Inside.mono {a b c d : Nat} {w : Write} (inside : Inside s a b w) (le : c ≤ a) (le' : b ≤ d) :
    Inside s c d w := by
  rcases inside with known | ⟨x, y, rfl, from_, until_⟩
  · exact Or.inl known
  · exact Or.inr ⟨x, y, rfl, le.trans from_, until_.trans le'⟩

theorem pastBracket_closes {open_ : Nat} {e : After open_} (closed : pastBracket s open_ = some e) :
    ∃ k, (e : Nat) = k + 1 ∧ open_ < k ∧ k < s.length ∧ s[k]? = s[open_]?.bind CLOSER := by
  have closes : ∀ e, pastBracket s open_ = some e → ∃ k, (e : Nat) = k + 1 ∧ open_ < k ∧
      k < s.length ∧ s[k]? = s[open_]?.bind CLOSER := by
    rw [pastBracket]
    -- the bracket's own closer stays at the bottom of the stack
    apply scan_spec (fun (stack : List (Option UInt16)) _ => stack.getLast? = some (s[open_]?.bind CLOSER))
      (fun found : Option (After open_) => ∀ e, found = some e → ∃ k, (e : Nat) = k + 1 ∧ open_ < k ∧
        k < s.length ∧ s[k]? = s[open_]?.bind CLOSER)
    · intro stack ⟨i, from_⟩ below bottom
      dsimp only
      split
      next => exact bottom
      next =>
      split
      next => exact bottom
      next =>
      split
      next => exact bottom
      next =>
      split
      next =>
        split
        next => exact fun _ none_ => nomatch none_
        next => exact bottom
      next =>
      split
      next =>
        cases stack with
        | nil => cases bottom
        | cons top rest =>
          change (_ :: top :: rest).getLast? = _
          rw [List.getLast?_cons_cons]
          exact bottom
      next =>
      split
      next top =>
        cases stack with
        | nil => cases top
        | cons c rest =>
          cases top
          cases rest with
          | nil =>
            rintro _ ⟨⟩
            exact ⟨i, rfl, from_, below, Option.some.inj bottom⟩
          | cons d rest =>
            change (d :: rest).getLast? = _
            rw [List.getLast?_cons_cons] at bottom
            exact bottom
      next => exact bottom
    · exact fun _ _ _ _ _ none_ => nomatch none_
    · rfl
  exact closes e closed

theorem pastBracket_within {open_ : Nat} {e : After open_} (closed : pastBracket s open_ = some e) :
    e ≤ s.length := by
  obtain ⟨k, is, -, below, -⟩ := pastBracket_closes closed
  omega

theorem closingText_closes {open_ : Nat} {close : From open_}
    (opens : startsAt s (utf16 "<text>") open_ = true) (found : closingText s open_ to_ = some close) :
    startsAt s (utf16 "</text>") close = true := by
  have closes : ∀ close, closingText s open_ to_ = some close →
      startsAt s (utf16 "</text>") close = true := by
    rw [closingText]
    apply scan_spec (fun (depth : Int) i => i = open_ ∧ depth = 0 ∨ 1 ≤ depth)
      (fun found : Option (From open_) => ∀ close, found = some close →
        startsAt s (utf16 "</text>") close = true)
    · rintro depth ⟨i, from_⟩ below deep
      dsimp only at deep ⊢
      split
      next =>
        rw [if_neg (by omega)]
        exact Or.inr (by omega)
      next other =>
        have inner : 1 ≤ depth := by
          rcases deep with ⟨rfl, -⟩ | inner
          · exact absurd opens other
          · exact inner
        split
        next tag =>
          split
          · rintro _ ⟨⟩
            exact tag
          · exact Or.inr (by omega)
        next => exact Or.inr inner
    · exact fun _ _ _ _ _ none_ => by cases none_
    · exact Or.inl ⟨rfl, rfl⟩
  exact closes close found

/-- A tag or mark that starts in a block ends in it: it holds no `}`. -/
theorem tag_inside {tag : JsString} {start : Nat} (brace : s[to_]? = some RBRACE)
    (starts : startsAt s tag start = true) (inside : start < to_) (plain : RBRACE ∉ tag) :
    start + tag.length ≤ to_ := by
  by_contra beyond
  have below : to_ - start < tag.length := by omega
  have here := startsAt_getElem? starts below
  rw [Nat.add_sub_cancel' (Nat.le_of_lt inside), brace] at here
  exact plain (List.mem_of_getElem? here.symm)

/-! ### One call -/

/-- What the Razor from `i` to `to_` gives. -/
def RazorKnown (s : JsString) (i to_ : Nat) : Prop := ∀ w ∈ blankRazor s i to_, Recognised s w

def ScriptKnown (s : JsString) (i to_ : Nat) : Prop := ∀ w ∈ keepEmittedScript s i to_, Inside s i to_ w

def ControlKnown (s : JsString) (at_ limit : Nat) : Prop :=
  (∀ w ∈ (blankControl s at_ limit).1, Inside s at_ (blankControl s at_ limit).2 w) ∧
    ((blankControl s at_ limit).2 : Nat) ≤ limit

theorem keepEmittedScript_step (brace : s[to_]? = some RBRACE)
    (razor : ∀ j k, i < j → k ≤ to_ → RazorKnown s j k) (later : ∀ j, i < j → ScriptKnown s j to_) :
    ScriptKnown s i to_ := by
  have blank : ∀ x y, i ≤ x → y ≤ to_ → Inside s i to_ (.blank x y) :=
    fun x y from_ until_ => Or.inr ⟨x, y, rfl, from_, until_⟩
  intro w
  rw [keepEmittedScript]
  split
  next below =>
    split
    next =>
      intro listed
      rw [List.mem_singleton.mp listed]
      exact blank i to_ (Nat.le_refl _) (Nat.le_refl _)
    next start ahead inside mark _ =>
      obtain ⟨stop, past, until_⟩ := lineStop s start to_ inside mark
      have two : start + 2 ≤ to_ := tag_inside brace mark inside (by decide)
      simp only [List.mem_append, List.mem_cons, List.not_mem_nil, or_false]
      rintro (((rfl | rfl) | nested) | rest)
      · exact blank i start (Nat.le_refl _) (Nat.le_of_lt inside)
      · exact blank start (start + 2) ahead two
      · exact Or.inl (razor (start + 2) stop (by omega) until_ w nested)
      · exact (later stop (by omega) w rest).mono (by omega) (Nat.le_refl _)
    next start ahead inside tag _ =>
      have six : start + 6 ≤ to_ := tag_inside brace tag inside (by decide)
      split
      next =>
        simp only [List.mem_cons, List.not_mem_nil, or_false]
        rintro (rfl | rfl)
        · exact blank i start (Nat.le_refl _) (Nat.le_of_lt inside)
        · exact blank start to_ ahead (Nat.le_refl _)
      next close after_ closes =>
        have inside' : close < to_ := closingText_lt closes
        have seven : close + 7 ≤ to_ :=
          tag_inside brace (closingText_closes tag closes) inside' (by decide)
        simp only [List.mem_append, List.mem_cons, List.not_mem_nil, or_false]
        rintro ((((rfl | rfl) | nested) | rfl) | rest)
        · exact blank i start (Nat.le_refl _) (Nat.le_of_lt inside)
        · exact blank start (start + 6) ahead six
        · exact Or.inl (razor (start + 6) close (by omega) (by omega) w nested)
        · exact blank close (close + 7) (by omega) seven
        · exact (later (close + 7) (by omega) w rest).mono (by omega) (Nat.le_refl _)
  next => rintro ⟨⟩

theorem blockStart_brace {start : From at_} (found : blockStart s at_ limit = some start) :
    start < limit ∧ s[start.1]? = some LBRACE := by
  have braces : ∀ start, blockStart s at_ limit = some start →
      start < limit ∧ s[start.1]? = some LBRACE := by
    rw [blockStart]
    apply scan_spec (fun _ _ => True) (fun found : Option (From at_) => ∀ start, found = some start →
      start < limit ∧ s[start.1]? = some LBRACE)
    · intro _ i below _
      split
      next brace =>
        rintro _ ⟨⟩
        exact ⟨below, brace⟩
      next =>
        split
        · split
          · exact fun _ none_ => nomatch none_
          · trivial
        · trivial
    · exact fun _ _ _ _ _ none_ => nomatch none_
    · trivial
  exact braces start found

theorem blankControl_step
    (script : ∀ j k, at_ < limit → at_ < j → k < limit → s[k]? = some RBRACE → ScriptKnown s j k)
    (later : ∀ j, at_ < j → j ≤ limit → ControlKnown s j limit) : ControlKnown s at_ limit := by
  have whole : (∀ w ∈ [Write.blank at_ limit], Inside s at_ limit w) ∧ limit ≤ limit := by
    refine ⟨fun w listed => ?_, Nat.le_refl _⟩
    rw [List.mem_singleton.mp listed]
    exact Or.inr ⟨at_, limit, rfl, Nat.le_refl _, Nat.le_refl _⟩
  rw [ControlKnown, blankControl]
  split
  next => exact whole
  next start ahead found =>
    obtain ⟨inside, brace⟩ := blockStart_brace found
    split
    next => exact whole
    next e past closed =>
      split
      next => exact whole
      next fits =>
        obtain ⟨k, is, after_, below, closer⟩ := pastBracket_closes closed
        change e = k + 1 at is
        change s[start]? = some LBRACE at brace
        have closing : s[e - 1]? = some RBRACE := by
          rw [is, Nat.add_sub_cancel, closer, brace]
          rfl
        -- the block and its braces
        have block : ∀ w ∈ [Write.blank at_ (start + 1)] ++ keepEmittedScript s (start + 1) (e - 1) ++
            [Write.blank (e - 1) e], Inside s at_ e w := by
          intro w listed
          simp only [List.mem_append, List.mem_singleton] at listed
          rcases listed with (rfl | emitted) | rfl
          · exact Or.inr ⟨at_, start + 1, rfl, Nat.le_refl _, by omega⟩
          · exact (script (start + 1) (e - 1) (by omega) (by omega) (by omega) closing w emitted).mono (by omega)
              (by omega)
          · exact Or.inr ⟨e - 1, e, rfl, by omega, Nat.le_refl _⟩
        dsimp only
        split
        next =>
          obtain ⟨rest, until_⟩ := later e (by omega) (by omega)
          have ends : e ≤ (blankControl s e limit).2 := by
            have further := (blankControl s e limit).2.2
            omega
          refine ⟨fun w listed => ?_, until_⟩
          rcases List.mem_append.mp listed with first | second
          · exact (block w first).mono (Nat.le_refl _) ends
          · exact (rest w second).mono (by omega) (Nat.le_refl _)
        next => exact ⟨block, Nat.not_lt.mp fits⟩

theorem indexOf_at {j : From i} (found : indexOf s [AT] i = some j) : s[j.1]? = some AT := by
  have here := @startsAt_getElem? _ _ s [AT] j 0 (indexOf_starts found) (by decide)
  exact here

theorem commentStop_spec (within : to_ ≤ s.length) (inside : at_ < to_) :
    (commentStop s at_ to_ inside : Nat) ≤ s.length ∧
      ∀ e, indexOf s [STAR, AT] (at_ + 2) = some e → (commentStop s at_ to_ inside : Nat) ≤ e + 2 := by
  rw [commentStop]
  split
  next none_ =>
    refine ⟨within, fun e found => ?_⟩
    rw [none_] at found
    cases found
  next e later is =>
    split
    next beyond =>
      refine ⟨within, fun e' found => ?_⟩
      rw [is] at found
      cases found
      exact Nat.le_of_lt beyond
    next fits =>
      refine ⟨by dsimp only; omega, fun e' found => ?_⟩
      rw [is] at found
      cases found
      exact Nat.le_refl _

theorem blankRazor_step (within : to_ ≤ s.length)
    (control : ∀ j, i ≤ j → ControlKnown s j to_)
    (later : ∀ j, i < j → RazorKnown s j to_) : RazorKnown s i to_ := by
  intro w
  rw [blankRazor]
  split
  next => rintro ⟨⟩
  next at_ ahead found =>
    have here : s[at_]? = some AT := indexOf_at found
    split
    next => rintro ⟨⟩
    next inside =>
    split
    next => exact later (at_ + 1) (by omega) w
    next =>
    split
    next next_ =>
      intro listed
      rcases List.mem_cons.mp listed with rfl | rest
      · exact .escape here next_
      · exact later (at_ + 2) (by omega) w rest
    next =>
    split
    next next_ =>
      obtain ⟨fits, ends⟩ := commentStop_spec within (Nat.not_le.mp inside)
      generalize commentStop s at_ to_ (Nat.not_le.mp inside) = stop at fits ends
      obtain ⟨stop, past⟩ := stop
      intro listed
      rcases List.mem_cons.mp listed with rfl | rest
      · exact .comment here next_ fits ends
      · exact later stop (by omega) w rest
    next =>
    split
    next next_ =>
      split
      next => rintro ⟨⟩
      next e past closed =>
        split
        next => rintro ⟨⟩
        next =>
          simp only [List.mem_append, List.mem_singleton]
          rintro ((rfl | zero) | rest)
          · exact .bracketed here next_ closed
          · split_ifs at zero with paren
            · rw [List.mem_singleton.mp zero]
              exact .value here (Or.inl paren)
            · cases zero
          · exact later e (by omega) w rest
    next =>
    split
    next next_ =>
      intro listed
      rcases List.mem_cons.mp listed with rfl | rest
      · exact .mark here next_
      · exact later (at_ + 2) (by omega) w rest
    next =>
    split
    next => exact later (at_ + 1) (by omega) w
    next word name =>
      split
      next keyword =>
        obtain ⟨parts, until_⟩ := control at_ ahead
        have further : i < (blankControl s at_ to_).2.1 := by
          have ends := (blankControl s at_ to_).2.2
          omega
        dsimp only
        intro listed
        rcases List.mem_append.mp listed with part | rest
        · rcases parts w part with known | ⟨x, y, rfl, from_, stop⟩
          · exact known
          · exact .statement here name keyword from_ stop ((stop.trans until_).trans within)
        · exact later _ further w rest
      next plain =>
        dsimp only
        simp only [List.mem_append, List.mem_cons, List.not_mem_nil, or_false]
        rintro ((rfl | rfl) | rest)
        · exact .expression here name plain (Nat.min_le_left _ _) ((Nat.min_le_right _ _).trans within)
        · exact .value here (Or.inr ⟨word, plain, name⟩)
        · exact later _ (by omega) w rest

theorem known_of_size (s : JsString) (n : Nat) :
    (∀ i to_, 2 * (to_ - i) + 1 = n → to_ ≤ s.length → RazorKnown s i to_) ∧
    (∀ at_ limit, 2 * (limit - at_) = n → limit ≤ s.length → ControlKnown s at_ limit) ∧
    (∀ i to_, 2 * (to_ - i) = n → s[to_]? = some RBRACE → ScriptKnown s i to_) := by
  induction n using Nat.strong_induction_on with
  | _ n ih =>
    have razor : ∀ i to_, 2 * (to_ - i) + 1 < n → to_ ≤ s.length → RazorKnown s i to_ :=
      fun i to_ less within => (ih _ less).1 i to_ rfl within
    have control : ∀ at_ limit, 2 * (limit - at_) < n → limit ≤ s.length → ControlKnown s at_ limit :=
      fun at_ limit less within => (ih _ less).2.1 at_ limit rfl within
    have script : ∀ i to_, 2 * (to_ - i) < n → s[to_]? = some RBRACE → ScriptKnown s i to_ :=
      fun i to_ less brace => (ih _ less).2.2 i to_ rfl brace
    refine ⟨fun i to_ size within => ?_, fun at_ limit size within => ?_, fun i to_ size brace => ?_⟩
    · by_cases inside : i < to_
      · apply blankRazor_step within
        · exact fun j from_ => control j to_ (by omega) within
        · exact fun j past => razor j to_ (by omega) within
      · -- nothing is left
        intro w
        rw [blankRazor]
        split
        next => rintro ⟨⟩
        next at_ ahead found =>
          rw [dif_pos (by omega)]
          rintro ⟨⟩
    · apply blankControl_step
      · exact fun j k some_ from_ until_ brace => script j k (by omega) brace
      · exact fun j past until_ => control j limit (by omega) within
    · by_cases inside : i < to_
      · have below : to_ < s.length := (List.getElem?_eq_some_iff.mp brace).1
        apply keepEmittedScript_step brace
        · exact fun j k past until_ => razor j k (by omega) (by omega)
        · exact fun j past => script j to_ (by omega) brace
      · intro w
        rw [keepEmittedScript, if_neg inside]
        rintro ⟨⟩

theorem blankRazor_known (s : JsString) : RazorKnown s 0 s.length :=
  (known_of_size s _).1 0 s.length rfl (Nat.le_refl _)

end CodeGraph.Extraction.RazorScript
