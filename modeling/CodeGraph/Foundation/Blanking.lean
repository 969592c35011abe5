import CodeGraph.Foundation.Decisions

/-! Scanners that blank parts of a text in place. -/
namespace CodeGraph.Blanking

inductive Kind where
  | plain
  | literal
  | blank
  deriving DecidableEq, Repr

structure Token (σ : Type) where
  kind : Kind
  length : Nat
  next : σ

structure Span where
  kind : Kind
  start : Nat
  stop : Nat
  deriving DecidableEq, Repr

variable {α σ : Type}

/-- The rounds of a scanner over `rest`, which begins at `start`. -/
def spans (round : σ → List α → Token σ) : Nat → σ → Nat → List α → List Span
  | 0, _, _, _ => []
  | _ + 1, _, _, [] => []
  | fuel + 1, state, start, u :: rest =>
    let t := round state (u :: rest)
    ⟨t.kind, start, start + t.length⟩ ::
      spans round fuel t.next (start + t.length) ((u :: rest).drop t.length)

def blanked (round : σ → List α → Token σ) (blank : α → α) : Nat → σ → List α → List α
  | 0, _, rest => rest
  | _ + 1, _, [] => []
  | fuel + 1, state, u :: rest =>
    let t := round state (u :: rest)
    let chunk := (u :: rest).take t.length
    (if t.kind = .blank then chunk.map blank else chunk) ++
      blanked round blank fuel t.next ((u :: rest).drop t.length)

theorem spans_forward {round : σ → List α → Token σ}
    (progress : ∀ state u rest, 0 < (round state (u :: rest)).length) {fuel start : Nat} {state : σ}
    {rest : List α} {s : Span} (listed : s ∈ spans round fuel state start rest) :
    s.start < s.stop := by
  induction fuel generalizing state start rest with
  | zero => simp [spans] at listed
  | succ fuel ih =>
    cases rest with
    | nil => simp [spans] at listed
    | cons u rest =>
      rw [spans] at listed
      rcases List.mem_cons.mp listed with rfl | later
      · exact Nat.lt_add_of_pos_right (progress state u rest)
      · exact ih later

/-! ### Overlays -/

def Overlay (blank : α → α) : List α → List α → Prop :=
  List.Forall₂ fun u v => v = u ∨ v = blank u

namespace Overlay

variable {blank : α → α} {rest rest' : List α}

theorem refl (rest : List α) : Overlay blank rest rest :=
  List.forall₂_same.mpr fun _ _ => .inl rfl

theorem length_eq (overlay : Overlay blank rest rest') : rest'.length = rest.length :=
  (List.Forall₂.length_eq overlay).symm

theorem map (rest : List α) : Overlay blank rest (rest.map blank) := by
  induction rest with
  | nil => exact List.Forall₂.nil
  | cons u rest ih => exact List.Forall₂.cons (.inr rfl) ih

theorem append {tail tail' : List α} (first : Overlay blank rest rest')
    (second : Overlay blank tail tail') : Overlay blank (rest ++ tail) (rest' ++ tail') :=
  List.rel_append first second

theorem get (overlay : Overlay blank rest rest') {i : Nat} {u : α} (found : rest[i]? = some u) :
    rest'[i]? = some u ∨ rest'[i]? = some (blank u) := by
  induction overlay generalizing i with
  | nil => simp at found
  | cons unit rest ih =>
    cases i with
    | zero =>
      rw [List.getElem?_cons_zero] at found ⊢
      cases found
      exact unit.imp (congrArg some) (congrArg some)
    | succ i => exact ih found

theorem solid (overlay : Overlay blank rest rest') {i : Nat} {c : α} (solid : ∀ u, blank u ≠ c)
    (found : rest'[i]? = some c) : rest[i]? = some c := by
  have below : i < rest.length := by
    obtain ⟨h, _⟩ := List.getElem?_eq_some_iff.mp found
    rwa [overlay.length_eq] at h
  have there := List.getElem?_eq_getElem below
  rcases overlay.get there with same | blanked
  · rw [there, ← same, found]
  · rw [found] at blanked
    exact (solid _ (Option.some.inj blanked).symm).elim

theorem solid_prefix [BEq α] [LawfulBEq α] (overlay : Overlay blank rest rest') {pattern : List α}
    (solid : ∀ c ∈ pattern, ∀ u, blank u ≠ c) (starts : pattern.isPrefixOf rest' = true) :
    pattern.isPrefixOf rest = true := by
  induction pattern generalizing rest rest' with
  | nil => rfl
  | cons c pattern ih =>
    cases overlay with
    | nil => simp at starts
    | cons unit tail =>
      rw [List.isPrefixOf_cons_cons, Bool.and_eq_true, beq_iff_eq] at starts ⊢
      refine ⟨?_, ih tail (fun d member => solid d (List.mem_cons_of_mem _ member)) starts.2⟩
      rcases unit with same | blanked
      · rw [starts.1, same]
      · exact (solid c List.mem_cons_self _ (starts.1.trans blanked).symm).elim

end Overlay

section Offsets

variable (round : σ → List α → Token σ) (blank : α → α)

theorem blanked_overlay (fuel : Nat) (state : σ) (rest : List α) :
    Overlay blank rest (blanked round blank fuel state rest) := by
  induction fuel generalizing state rest with
  | zero => exact Overlay.refl rest
  | succ fuel ih =>
    cases rest with
    | nil => exact Overlay.refl []
    | cons u rest =>
      rw [blanked]
      let t := round state (u :: rest)
      have first : Overlay blank ((u :: rest).take t.length) (if t.kind = .blank then
          ((u :: rest).take t.length).map blank else (u :: rest).take t.length) := by
        split
        · exact Overlay.map _
        · exact Overlay.refl _
      have both := first.append (ih t.next ((u :: rest).drop t.length))
      rwa [List.take_append_drop] at both

/-- The tokens that are not blank stay as they are. -/
theorem blanked_span {fuel start : Nat} {state : σ} {rest : List α} {s : Span}
    (listed : s ∈ spans round fuel state start rest) (kept : s.kind ≠ .blank) {i : Nat}
    (low : s.start ≤ i) (high : i < s.stop) :
    start ≤ i ∧ (blanked round blank fuel state rest)[i - start]? = rest[i - start]? := by
  induction fuel generalizing state start rest with
  | zero => simp [spans] at listed
  | succ fuel ih =>
    cases rest with
    | nil => simp [spans] at listed
    | cons u rest =>
      have whole := (blanked_overlay round blank (fuel + 1) state (u :: rest)).length_eq
      rw [spans] at listed
      rw [blanked] at whole ⊢
      generalize round state (u :: rest) = t at listed whole ⊢
      by_cases inside : i - start < (u :: rest).length
      · rcases List.mem_cons.mp listed with rfl | later
        · -- The token at hand.
          refine ⟨low, ?_⟩
          simp only at low high
          rw [if_neg kept, List.getElem?_append_left (by rw [List.length_take]; omega),
            List.getElem?_take_of_lt (by omega)]
        · obtain ⟨le, same⟩ := ih later
          have shift : i - start - t.length = i - (start + t.length) := by omega
          have back : t.length + (i - (start + t.length)) = i - start := by omega
          have chunk : (if t.kind = .blank then ((u :: rest).take t.length).map blank
              else (u :: rest).take t.length).length = t.length := by
            split <;> simp only [List.length_map, List.length_take] <;> omega
          refine ⟨by omega, ?_⟩
          rw [List.getElem?_append_right (by omega), chunk, shift, same, List.getElem?_drop, back]
      · refine ⟨?_, by rw [List.getElem?_eq_none (by omega), List.getElem?_eq_none (by omega)]⟩
        rcases List.mem_cons.mp listed with rfl | later
        · exact low
        · exact Nat.le_of_add_right_le (ih later).1

end Offsets

/-- The decisions of a scanner do not change when what follows is blanked, and blanks are read one at
a time. -/
structure Stable (round : σ → List α → Token σ) (blank : α → α) : Prop where
  progress : ∀ state u rest, 0 < (round state (u :: rest)).length
  keeps : ∀ state rest rest', Overlay blank rest rest' → (round state rest).kind ≠ .blank →
    rest'.take (round state rest).length = rest.take (round state rest).length →
    round state rest' = round state rest
  blanks : ∀ state u rest, ∃ next, round state (blank u :: rest) = ⟨.plain, 1, next⟩
  /-- Behind a blank token the state does not matter. -/
  settles : ∀ state rest tail', (round state rest).kind = .blank →
    Overlay blank (rest.drop (round state rest).length) tail' →
      tail' = [] ∨ ∀ s s', round s tail' = round s' tail'

variable {round : σ → List α → Token σ} {blank : α → α}

theorem Stable.ofCons (progress : ∀ state u rest, 0 < (round state (u :: rest)).length)
    (keeps : ∀ state u rest rest', Overlay blank rest rest' →
      (round state (u :: rest)).kind ≠ .blank →
        rest'.take ((round state (u :: rest)).length - 1) =
          rest.take ((round state (u :: rest)).length - 1) →
            round state (u :: rest') = round state (u :: rest))
    (blanks : ∀ state u rest, ∃ next, round state (blank u :: rest) = ⟨.plain, 1, next⟩)
    (settles : ∀ state rest tail', (round state rest).kind = .blank →
      Overlay blank (rest.drop (round state rest).length) tail' →
        tail' = [] ∨ ∀ s s', round s tail' = round s' tail') : Stable round blank where
  progress := progress
  keeps := by
    intro state rest rest' overlay kept agree
    cases overlay with
    | nil => rfl
    | @cons u v rest rest' unit tail =>
      obtain ⟨k, shape⟩ : ∃ k, (round state (u :: rest)).length = k + 1 :=
        ⟨_, (Nat.succ_pred_eq_of_pos (progress state u rest)).symm⟩
      rw [shape, List.take_succ_cons, List.take_succ_cons, List.cons.injEq] at agree
      rw [agree.1]
      exact keeps state u rest rest' tail kept (by rw [shape]; exact agree.2)
  blanks := blanks
  settles := settles

private theorem blanked_blanks (stable : Stable round blank) (chunk tail : List α) (fuel : Nat)
    (state : σ) : ∃ next, blanked round blank (chunk.length + fuel) state
      (chunk.map blank ++ tail) = chunk.map blank ++ blanked round blank fuel next tail := by
  induction chunk generalizing state with
  | nil => exact ⟨state, by rw [List.length_nil, Nat.zero_add]; rfl⟩
  | cons u chunk ih =>
    obtain ⟨middle, first⟩ := stable.blanks state u (chunk.map blank ++ tail)
    obtain ⟨next, rest⟩ := ih middle
    have count : (u :: chunk).length + fuel = chunk.length + fuel + 1 := by
      rw [List.length_cons]
      omega
    refine ⟨next, ?_⟩
    rw [List.map_cons, List.cons_append, count, blanked, first]
    exact congrArg (blank u :: ·) rest

private theorem blanked_settled (stable : Stable round blank) {fuel fuel' : Nat} {state state' : σ}
    {rest : List α} (enough : rest.length ≤ fuel) (enough' : rest.length ≤ fuel')
    (settled : blanked round blank fuel state rest = [] ∨
      round state' (blanked round blank fuel state rest) =
        round state (blanked round blank fuel state rest)) :
    blanked round blank fuel' state' (blanked round blank fuel state rest) =
      blanked round blank fuel state rest := by
  induction fuel generalizing fuel' state state' rest with
  | zero =>
    cases rest with
    | nil => cases fuel' <;> rfl
    | cons u rest => exact absurd enough (Nat.not_succ_le_zero _)
  | succ fuel ih =>
    cases rest with
    | nil => cases fuel' <;> rfl
    | cons u rest =>
      have overlay := blanked_overlay round blank (fuel + 1) state (u :: rest)
      rw [blanked] at settled overlay ⊢
      let t := round state (u :: rest)
      let tail' := blanked round blank fuel t.next ((u :: rest).drop t.length)
      have positive : 0 < t.length := stable.progress state u rest
      have fewer : ((u :: rest).drop t.length).length ≤ fuel := by
        rw [List.length_drop, List.length_cons]
        rw [List.length_cons] at enough
        omega
      have tailOverlay := blanked_overlay round blank fuel t.next ((u :: rest).drop t.length)
      by_cases kind : t.kind = .blank
      · -- The blanks are read one at a time; then the state does not matter.
        simp only [t, if_pos kind] at settled overlay ⊢
        have taken : ((u :: rest).take t.length).length ≤ fuel' := by
          rw [List.length_take]
          omega
        obtain ⟨more, split⟩ := Nat.exists_eq_add_of_le taken
        obtain ⟨next, again⟩ := blanked_blanks stable ((u :: rest).take t.length) tail' more state'
        rw [split]
        refine again.trans (congrArg (_ ++ ·) (ih fewer ?_ ?_))
        · rw [List.length_take] at split
          rw [List.length_drop]
          omega
        · exact (stable.settles state _ tail' kind tailOverlay).imp_right fun any => any next t.next
      · simp only [t, if_neg kind] at settled overlay ⊢
        have chunkLength : ((u :: rest).take t.length).length = min t.length (u :: rest).length :=
          List.length_take
        have agree : ((u :: rest).take t.length ++ tail').take t.length =
            (u :: rest).take t.length := by
          by_cases short : t.length ≤ (u :: rest).length
          · rw [List.take_left' (by omega)]
          · have all : (u :: rest).drop t.length = [] := List.drop_eq_nil_of_le (by omega)
            have none_ : tail' = [] := by
              unfold tail'
              rw [all]
              cases fuel <;> rfl
            rw [none_, List.append_nil, List.take_take, Nat.min_self]
        have rest_ : ((u :: rest).take t.length ++ tail').drop t.length = tail' := by
          by_cases short : t.length ≤ (u :: rest).length
          · rw [List.drop_left' (by omega)]
          · have all : (u :: rest).drop t.length = [] := List.drop_eq_nil_of_le (by omega)
            have none_ : tail' = [] := by
              unfold tail'
              rw [all]
              cases fuel <;> rfl
            rw [none_, List.append_nil, List.drop_eq_nil_of_le (by omega)]
        have same := stable.keeps state (u :: rest) _ overlay kind agree
        obtain ⟨k, shape⟩ : ∃ k, t.length = k + 1 := ⟨t.length - 1, by omega⟩
        have nonempty : (u :: rest).take t.length ++ tail' = u :: (rest.take k ++ tail') := by
          rw [shape]
          rfl
        cases fuel' with
        | zero => exact absurd enough' (Nat.not_succ_le_zero _)
        | succ fuel' =>
          have decision : round state' ((u :: rest).take t.length ++ tail') = t := by
            rcases settled with empty | equal
            · exact absurd (nonempty.symm.trans empty) (List.cons_ne_nil _ _)
            · exact equal.trans same
          have fewer' : ((u :: rest).drop t.length).length ≤ fuel' := by
            rw [List.length_drop, List.length_cons]
            rw [List.length_cons] at enough'
            omega
          have onward : blanked round blank fuel' t.next tail' = tail' := ih fewer fewer' (.inr rfl)
          have again : blanked round blank (fuel' + 1) state'
              ((u :: rest).take t.length ++ tail') = (u :: rest).take t.length ++ tail' := by
            rw [nonempty, blanked, ← nonempty, decision]
            simp only [if_neg kind]
            rw [agree, rest_, onward]
          exact again

theorem blanked_blanked (stable : Stable round blank) (state : σ) (rest : List α) :
    blanked round blank rest.length state (blanked round blank rest.length state rest) =
      blanked round blank rest.length state rest :=
  blanked_settled stable (Nat.le_refl _) (Nat.le_refl _) (.inr rfl)

end CodeGraph.Blanking
