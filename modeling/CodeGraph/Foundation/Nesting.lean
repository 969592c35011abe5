import CodeGraph.Foundation.Decisions

/-!
Texts with brackets, and lists of the spans that they open and close.

The spans of a list are nested or apart, and each has the index of the one around it.
-/
namespace CodeGraph.Nesting

/-! ### Brackets -/

section Brackets

variable {β : Type} [DecidableEq β] (opening closing : β)

/-- The blocks that are open behind a text, when `d` are before it. -/
def level (d : Nat) : List β → Option Nat
  | [] => some d
  | b :: rest =>
    if b = opening then level (d + 1) rest
    else if b = closing then (if d = 0 then none else level (d - 1) rest)
    else level d rest

def Balanced (text : List β) : Prop := level opening closing 0 text = some 0

instance (text : List β) : Decidable (Balanced opening closing text) :=
  inferInstanceAs (Decidable (_ = _))

def IsBlock (text : List β) (start stop : Nat) : Prop :=
  ∃ before inner after, text = before ++ opening :: (inner ++ closing :: after) ∧
    Balanced opening closing inner ∧ start = before.length ∧ stop = before.length + 1 + inner.length

inductive Opened : List β → List Nat → Prop
  | root {text : List β} : Balanced opening closing text → Opened text []
  | block {text inner : List β} {starts : List Nat} : Opened text starts →
      Balanced opening closing inner → Opened (text ++ opening :: inner) (text.length :: starts)

variable {opening closing} {b : β} {text inner left right : List β} {starts : List Nat} {d e s : Nat}

theorem level_append : level opening closing d (left ++ right) =
    (level opening closing d left).bind (level opening closing · right) := by
  induction left generalizing d with
  | nil => rfl
  | cons b left ih =>
    rw [List.cons_append, level, level, ih, ih, ih]
    split
    · rfl
    · split
      · split <;> rfl
      · rfl

theorem level_add (found : level opening closing d text = some e) (k : Nat) :
    level opening closing (d + k) text = some (e + k) := by
  induction text generalizing d with
  | nil =>
    cases found
    rfl
  | cons b text ih =>
    rw [level] at found ⊢
    split at found
    · next same =>
      rw [if_pos same, Nat.add_right_comm]
      exact ih found
    · next other =>
      rw [if_neg other]
      split at found
      · next same =>
        rw [if_pos same]
        split at found
        · cases found
        · next some_ =>
          rw [if_neg (by omega), show d + k - 1 = d - 1 + k by omega]
          exact ih found
      · next plain =>
        rw [if_neg plain]
        exact ih found

theorem Balanced.level_eq (balanced : Balanced opening closing text) (d : Nat) :
    level opening closing d text = some d := by
  have shifted := level_add balanced d
  rwa [Nat.zero_add] at shifted

theorem Balanced.append (first : Balanced opening closing left) (second : Balanced opening closing right) :
    Balanced opening closing (left ++ right) := by
  rw [Balanced, level_append, first.level_eq, Option.bind_some]
  exact second

theorem Balanced.other (differs : b ≠ opening) (differs' : b ≠ closing) :
    Balanced opening closing [b] := by
  rw [Balanced, level, if_neg differs, if_neg differs', level]

theorem Balanced.block (apart : opening ≠ closing) (balanced : Balanced opening closing inner) :
    Balanced opening closing (opening :: (inner ++ [closing])) := by
  rw [Balanced, level, if_pos rfl, level_append, balanced.level_eq, Option.bind_some, level,
    if_neg (Ne.symm apart), if_pos rfl, if_neg (by omega), level]

theorem opening_unique {left' right' : List β} (balanced : Balanced opening closing right)
    (balanced' : Balanced opening closing right')
    (same : left ++ opening :: right = left' ++ opening :: right') : left = left' ∧ right = right' := by
  -- the longer of the two inner texts would have an opening bracket that nothing closes
  have shorter : ∀ {m right right' : List β}, Balanced opening closing right →
      Balanced opening closing right' → right = m ++ opening :: right' → False := by
    rintro m right right' balanced balanced' rfl
    rw [Balanced, level_append] at balanced
    obtain ⟨d, -, found⟩ := Option.bind_eq_some_iff.mp balanced
    rw [level, if_pos rfl, balanced'.level_eq] at found
    cases found
  rcases List.append_eq_append_iff.mp same with ⟨m, whole, rest⟩ | ⟨m, whole, rest⟩
  · cases m with
    | nil =>
      rw [List.append_nil] at whole
      exact ⟨whole.symm, (List.cons.inj rest).2⟩
    | cons b m =>
      exact (shorter balanced balanced' (List.cons.inj rest).2).elim
  · cases m with
    | nil =>
      rw [List.append_nil] at whole
      exact ⟨whole, (List.cons.inj rest).2.symm⟩
    | cons b m =>
      exact (shorter balanced' balanced (List.cons.inj rest).2).elim

namespace Opened

theorem level_eq (opened : Opened opening closing text starts) :
    level opening closing 0 text = some starts.length := by
  induction opened with
  | root balanced => exact balanced
  | block _ balanced ih =>
    rw [level_append, ih, Option.bind_some, level, if_pos rfl, balanced.level_eq, List.length_cons]

theorem append (opened : Opened opening closing text starts) (balanced : Balanced opening closing inner) :
    Opened opening closing (text ++ inner) starts := by
  cases opened with
  | root whole => exact .root (whole.append balanced)
  | block outer first =>
    rw [List.append_assoc, List.cons_append]
    exact .block outer (first.append balanced)

theorem open_ (opened : Opened opening closing text starts) :
    Opened opening closing (text ++ [opening]) (text.length :: starts) :=
  .block opened rfl

theorem close (apart : opening ≠ closing) (opened : Opened opening closing text (s :: starts)) :
    Opened opening closing (text ++ [closing]) starts ∧
      IsBlock opening closing (text ++ [closing]) s text.length := by
  generalize same : s :: starts = open_ at opened
  cases opened with
  | root => cases same
  | @block before inner _ outer balanced =>
    cases same
    refine ⟨?_, before, inner, [], ?_, balanced, rfl, ?_⟩
    · rw [List.append_assoc, List.cons_append]
      exact outer.append (balanced.block apart)
    · rw [List.append_assoc, List.cons_append]
    · rw [List.length_append, List.length_cons, Nat.add_right_comm, Nat.add_assoc]

theorem of_balanced (opened : Opened opening closing text starts)
    (balanced : Balanced opening closing text) : starts = [] := by
  have counted := opened.level_eq.symm.trans balanced
  exact List.eq_nil_of_length_eq_zero (Option.some.inj counted)

end Opened

theorem IsBlock.bounds {start stop : Nat} (block : IsBlock opening closing text start stop) :
    start < stop ∧ stop < text.length := by
  obtain ⟨before, inner, after, rfl, -, rfl, rfl⟩ := block
  simp only [List.length_append, List.length_cons]
  omega

/-- The blocks behind one more character: those before it, and the one it closes. -/
theorem isBlock_snoc {start stop : Nat} (opened : Opened opening closing text starts) :
    IsBlock opening closing (text ++ [b]) start stop ↔ IsBlock opening closing text start stop ∨
      b = closing ∧ stop = text.length ∧ starts.head? = some start := by
  constructor
  · rintro ⟨before, inner, after, whole, balanced, rfl, rfl⟩
    rcases List.eq_nil_or_concat after with rfl | ⟨after, last, rfl⟩
    · rw [← List.cons_append, ← List.append_assoc] at whole
      obtain ⟨rfl, same⟩ := List.append_inj' whole rfl
      refine .inr ⟨(List.cons.inj same).1, ?_, ?_⟩
      · rw [List.length_append, List.length_cons, Nat.add_right_comm, Nat.add_assoc]
      · generalize same : before ++ opening :: inner = text at opened
        cases opened with
        | root all =>
          rw [← same, Balanced, level_append] at all
          obtain ⟨d, -, found⟩ := Option.bind_eq_some_iff.mp all
          rw [level, if_pos rfl, balanced.level_eq] at found
          cases found
        | block _ balanced' =>
          rw [(opening_unique balanced balanced' same).1, List.head?_cons]
    · rw [List.concat_eq_append, ← List.cons_append, ← List.append_assoc, ← List.cons_append,
        ← List.append_assoc] at whole
      obtain ⟨rfl, -⟩ := List.append_inj' whole rfl
      exact .inl ⟨before, inner, after, by rw [List.append_assoc, List.cons_append], balanced, rfl, rfl⟩
  · rintro (⟨before, inner, after, rfl, balanced, rfl, rfl⟩ | ⟨rfl, rfl, top⟩)
    · refine ⟨before, inner, after ++ [b], ?_, balanced, rfl, rfl⟩
      rw [List.append_assoc, List.cons_append, List.append_assoc, List.cons_append]
    · cases opened with
      | root => cases top
      | @block before inner _ _ balanced =>
        cases top
        refine ⟨before, inner, [], ?_, balanced, rfl, ?_⟩
        · rw [List.append_assoc, List.cons_append]
        · rw [List.length_append, List.length_cons, Nat.add_right_comm, Nat.add_assoc]

end Brackets

section Spans

variable {σ : Type} (start stop parent : σ → Int)

/-- Spans in the order in which they open. The parent of one is the last earlier one that is not
closed when it opens; it is negative where there is none. -/
structure Nested (spans : List σ) : Prop where
  proper : ∀ s ∈ spans, start s < stop s
  increasing : ∀ {j k : Nat} {s t}, spans[j]? = some s → spans[k]? = some t → j < k → start s < start t
  earlier : ∀ {k : Nat} {t}, spans[k]? = some t → parent t < k
  around : ∀ {k p : Nat} {s t}, spans[k]? = some t → spans[p]? = some s → parent t = p → stop t ≤ stop s
  beside : ∀ {j k : Nat} {s t}, spans[j]? = some s → spans[k]? = some t → parent t < j → j < k →
    stop s < start t

/-- The spans of a text that is read up to an offset; those on the stack are open, up to its end. -/
structure Reading (length offset : Int) (spans : List σ) (stack : List Nat) : Prop where
  nested : Nested start stop parent spans
  begun : ∀ s ∈ spans, start s < offset
  descending : stack.Pairwise (· > ·)
  open_ : ∀ k ∈ stack, ∃ s, spans[k]? = some s ∧ stop s = length
  closed : ∀ {k : Nat} {s}, spans[k]? = some s → k ∉ stack → stop s < offset

variable {start stop parent} {spans : List σ} {s t new : σ} {j k p : Nat} {length offset : Int}
  {stack : List Nat}

namespace Nested

theorem laminar (nested : Nested start stop parent spans) (first : spans[j]? = some s)
    (second : spans[k]? = some t) (less : j < k) : stop s < start t ∨ stop t ≤ stop s := by
  induction k using Nat.strongRecOn generalizing t with
  | ind k ih =>
    by_cases beside : parent t < j
    · exact .inl (nested.beside first second beside less)
    · obtain ⟨p, parent_⟩ := Int.eq_ofNat_of_zero_le (by omega : 0 ≤ parent t)
      have earlier := nested.earlier second
      have inside : p < spans.length := by
        have short := (List.getElem?_eq_some_iff.mp second).1
        omega
      have outer := List.getElem?_eq_getElem inside
      have around := nested.around second outer parent_
      rcases Nat.lt_or_ge j p with later | here
      · rcases ih p (by omega) outer later with apart | nested_
        · have increasing := nested.increasing outer second (by omega)
          exact .inl (by omega)
        · exact .inr (by omega)
      · obtain rfl : j = p := by omega
        obtain rfl := Option.some.inj (first.symm.trans outer)
        exact .inr around

theorem around_iff (nested : Nested start stop parent spans) (first : spans[j]? = some s)
    (second : spans[k]? = some t) (less : j < k) : stop t ≤ stop s ↔
      ∃ p : Nat, parent t = p ∧ j ≤ p ∧ ∀ q, spans[p]? = some q → stop q ≤ stop s := by
  have proper := nested.proper t (List.mem_of_getElem? second)
  constructor
  · intro around
    by_cases beside : parent t < j
    · have apart := nested.beside first second beside less
      omega
    · obtain ⟨p, parent_⟩ := Int.eq_ofNat_of_zero_le (by omega : 0 ≤ parent t)
      refine ⟨p, parent_, by omega, fun q outer => ?_⟩
      rcases Nat.lt_or_ge j p with later | here
      · rcases nested.laminar first outer later with apart | nested_
        · have increasing := nested.increasing outer second
            (by
              have earlier := nested.earlier second
              omega)
          omega
        · exact nested_
      · obtain rfl : j = p := by omega
        obtain rfl := Option.some.inj (first.symm.trans outer)
        exact Int.le_refl _
  · rintro ⟨p, parent_, le, outer⟩
    have earlier := nested.earlier second
    have inside : p < spans.length := by
      have short := (List.getElem?_eq_some_iff.mp second).1
      omega
    have found := List.getElem?_eq_getElem inside
    have around := nested.around second found parent_
    have rest := outer _ found
    omega

end Nested

namespace Reading

variable {top : Nat}

theorem next (reading : Reading start stop parent length offset spans stack) :
    Reading start stop parent length (offset + 1) spans stack where
  nested := reading.nested
  begun s listed := by
    have begun := reading.begun s listed
    omega
  descending := reading.descending
  open_ := reading.open_
  closed found out := by
    have closed := reading.closed found out
    omega

theorem opened (reading : Reading start stop parent length offset spans (top :: stack))
    (inside : offset < length) (start_ : start new = offset) (stop_ : stop new = length)
    (parent_ : parent new = top) : Reading start stop parent length (offset + 1) (spans ++ [new])
      (spans.length :: top :: stack) := by
  obtain ⟨nested, begun, descending, open_, closed⟩ := reading
  obtain ⟨around, outer, whole⟩ := open_ top List.mem_cons_self
  have below : ∀ k ∈ top :: stack, k < spans.length := fun k listed =>
    (List.getElem?_eq_some_iff.mp (open_ k listed).choose_spec.1).1
  have cases_ : ∀ {k : Nat} {t : σ}, (spans ++ [new])[k]? = some t →
      spans[k]? = some t ∨ k = spans.length ∧ t = new := by
    intro k t found
    rcases Nat.lt_or_ge k spans.length with less | le
    · rw [List.getElem?_append_left less] at found
      exact .inl found
    · rw [List.getElem?_append_right le, List.getElem?_singleton] at found
      split at found
      · exact .inr ⟨by omega, (Option.some.inj found).symm⟩
      · cases found
  refine ⟨⟨?_, ?_, ?_, ?_, ?_⟩, ?_, ?_, ?_, ?_⟩
  · exact forall_snoc nested.proper (by omega)
  · intro j k s t first second less
    rcases cases_ second with old | ⟨rfl, rfl⟩
    · rcases cases_ first with old' | ⟨rfl, rfl⟩
      · exact nested.increasing old' old less
      · have short := (List.getElem?_eq_some_iff.mp old).1
        omega
    · rcases cases_ first with old' | ⟨rfl, rfl⟩
      · have begun := begun s (List.mem_of_getElem? old')
        omega
      · omega
  · intro k t found
    rcases cases_ found with old | ⟨rfl, rfl⟩
    · exact nested.earlier old
    · have below := below top List.mem_cons_self
      omega
  · intro k p s t first second parent'
    rcases cases_ first with old | ⟨rfl, rfl⟩
    · rcases cases_ second with old' | ⟨rfl, rfl⟩
      · exact nested.around old old' parent'
      · have earlier := nested.earlier old
        have short := (List.getElem?_eq_some_iff.mp old).1
        omega
    · obtain rfl : top = p := by omega
      rw [List.getElem?_append_left (below top List.mem_cons_self)] at second
      obtain rfl := Option.some.inj (outer.symm.trans second)
      omega
  · intro j k s t first second later less
    rcases cases_ second with old | ⟨rfl, rfl⟩
    · have short := (List.getElem?_eq_some_iff.mp old).1
      rw [List.getElem?_append_left (by omega)] at first
      exact nested.beside first old later less
    · rw [List.getElem?_append_left less] at first
      have out : j ∉ top :: stack := by
        intro listed
        rcases List.mem_cons.mp listed with rfl | deeper
        · omega
        · have order := List.rel_of_pairwise_cons descending deeper
          omega
      have ended := closed first out
      omega
  · intro s listed
    rcases mem_snoc.mp listed with old | last
    · have begun := begun s old
      omega
    · rw [last]
      omega
  · exact List.pairwise_cons.mpr ⟨below, descending⟩
  · intro k listed
    rcases List.mem_cons.mp listed with rfl | old
    · exact ⟨new, List.getElem?_concat_length, stop_⟩
    · obtain ⟨s, found, ends⟩ := open_ k old
      exact ⟨s, by rw [List.getElem?_append_left (below k old), found], ends⟩
  · intro k s found out
    rw [List.mem_cons, not_or] at out
    rcases cases_ found with old | ⟨rfl, -⟩
    · have ended := closed old out.2
      omega
    · exact absurd rfl out.1

theorem close {f : σ → σ} (reading : Reading start stop parent length offset spans (top :: stack))
    (inside : offset < length) (start_ : ∀ s, start (f s) = start s) (stop_ : ∀ s, stop (f s) = offset)
    (parent_ : ∀ s, parent (f s) = parent s) :
    Reading start stop parent length (offset + 1) (spans.modify top f) stack := by
  obtain ⟨nested, begun, descending, open_, closed⟩ := reading
  obtain ⟨outer, found, whole⟩ := open_ top List.mem_cons_self
  have entry : ∀ {k : Nat} {t' : σ}, (spans.modify top f)[k]? = some t' → ∃ t, spans[k]? = some t ∧
      start t' = start t ∧ parent t' = parent t ∧ (k = top ∧ stop t' = offset ∨ k ≠ top ∧ stop t' = stop t) := by
    intro k t' listed
    rw [List.getElem?_modify] at listed
    obtain ⟨t, old, rfl⟩ := Option.map_eq_some_iff.mp listed
    refine ⟨t, old, ?_⟩
    by_cases same : top = k
    · rw [if_pos same]
      exact ⟨start_ t, parent_ t, .inl ⟨same.symm, stop_ t⟩⟩
    · rw [if_neg same]
      exact ⟨rfl, rfl, .inr ⟨Ne.symm same, rfl⟩⟩
  -- what opens behind the innermost open span is closed before it
  have later : ∀ {k : Nat} {t : σ}, spans[k]? = some t → top < k → stop t < offset := by
    intro k t listed less
    refine closed listed fun out => ?_
    rcases List.mem_cons.mp out with rfl | deeper
    · omega
    · have order := List.rel_of_pairwise_cons descending deeper
      omega
  have short : ∀ {k : Nat} {t : σ}, spans[k]? = some t → start t < offset := fun listed =>
    begun _ (List.mem_of_getElem? listed)
  refine ⟨⟨?_, ?_, ?_, ?_, ?_⟩, ?_, ?_, ?_, ?_⟩
  · intro s' listed
    obtain ⟨k, found'⟩ := List.mem_iff_getElem?.mp listed
    obtain ⟨s, old, start', -, ends⟩ := entry found'
    have proper := nested.proper s (List.mem_of_getElem? old)
    have begun := short old
    omega
  · intro j k s' t' first second less
    obtain ⟨s, old, start', -⟩ := entry first
    obtain ⟨t, old', start'', -⟩ := entry second
    rw [start', start'']
    exact nested.increasing old old' less
  · intro k t' listed
    obtain ⟨t, old, -, parent', -⟩ := entry listed
    rw [parent']
    exact nested.earlier old
  · intro k p s' t' first second parent_
    obtain ⟨t, old, -, parent', ends⟩ := entry first
    obtain ⟨s, old', -, -, ends'⟩ := entry second
    have around := nested.around old old' (parent'.symm.trans parent_)
    have earlier := nested.earlier old
    by_cases inner : p = top
    · have before := later old (by omega)
      omega
    · obtain ⟨-, ends'⟩ := ends'.resolve_left fun same => inner same.1
      rcases ends with ⟨rfl, ends⟩ | ⟨-, ends⟩
      · obtain rfl := Option.some.inj (found.symm.trans old)
        omega
      · omega
  · intro j k s' t' first second order less
    obtain ⟨s, old, -, -, ends⟩ := entry first
    obtain ⟨t, old', start', parent', -⟩ := entry second
    have apart := nested.beside old old' (by omega) less
    rw [start']
    rcases ends with ⟨rfl, ends⟩ | ⟨-, ends⟩
    · obtain rfl := Option.some.inj (found.symm.trans old)
      have begun := short old'
      omega
    · omega
  · intro s' listed
    obtain ⟨k, found'⟩ := List.mem_iff_getElem?.mp listed
    obtain ⟨s, old, start', -⟩ := entry found'
    have begun := short old
    omega
  · exact (List.pairwise_cons.mp descending).2
  · intro k listed
    obtain ⟨s, old, ends⟩ := open_ k (List.mem_cons_of_mem top listed)
    have other : top ≠ k := by
      rintro rfl
      have order := List.rel_of_pairwise_cons descending listed
      omega
    refine ⟨s, ?_, ends⟩
    rw [List.getElem?_modify, old, Option.map_eq_map, Option.map_some, if_neg other]
  · intro k s' listed out
    obtain ⟨s, old, -, -, ends⟩ := entry listed
    rcases ends with ⟨rfl, ends⟩ | ⟨other, ends⟩
    · omega
    · have ended := closed old fun deeper => out ((List.mem_cons.mp deeper).resolve_left other)
      omega

end Reading

end Spans

end CodeGraph.Nesting
