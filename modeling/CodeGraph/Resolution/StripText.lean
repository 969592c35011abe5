import CodeGraph.Resolution.StripComments

/-! Both ways of blanking ranges write the text with every unit but newlines as a space. -/
namespace CodeGraph.Resolution

open Blanking Text

def blankUnit (u : UInt16) : UInt16 := if u = NEWLINE then u else SPACE

private theorem slice_eq (src : JsString) (start stop : Nat) :
    slice src start stop = (src.drop start).take (stop - start) := List.drop_take

private theorem slice_append (src : JsString) {a b c : Nat} (le : a ≤ b) (le' : b ≤ c) :
    slice src a c = slice src a b ++ slice src b c := by
  have gap : c - a = (b - a) + (c - b) := by omega
  have reach : a + (b - a) = b := by omega
  rw [slice_eq, slice_eq, slice_eq, gap, List.take_add, List.drop_drop, reach]

private theorem slice_drop (src : JsString) {a b : Nat} (le : a ≤ b) :
    slice src a b ++ src.drop b = src.drop a := by
  have reach : a + (b - a) = b := by omega
  have whole := List.take_append_drop (b - a) (src.drop a)
  rwa [List.drop_drop, reach, ← slice_eq] at whole

private theorem length_slice (src : JsString) {a b : Nat} (within : b ≤ src.length) :
    (slice src a b).length = b - a := by
  rw [slice_eq, List.length_take, List.length_drop]
  omega

theorem indexOf_unit (u : UInt16) (rest : JsString) :
    match indexOf [u] rest with
    | none => u ∉ rest
    | some k => u ∉ rest.take k ∧ rest.drop k = u :: rest.drop (k + 1) := by
  induction rest with
  | nil => simp [indexOf]
  | cons v rest ih =>
    rw [indexOf]
    by_cases here : v = u
    · simp [here]
    · have starts : ¬ [u].isPrefixOf (v :: rest) = true := by simp [Ne.symm here]
      rw [if_neg starts]
      cases found : indexOf [u] rest with
      | none =>
        rw [found] at ih
        simpa [Ne.symm here] using ih
      | some k =>
        rw [found] at ih
        refine ⟨?_, ih.2⟩
        rw [List.take_succ_cons, List.mem_cons, not_or]
        exact ⟨Ne.symm here, ih.1⟩

private theorem map_blankUnit_line {line : JsString} (clean : NEWLINE ∉ line) :
    line.map blankUnit = List.replicate line.length SPACE := by
  rw [List.eq_replicate_iff]
  refine ⟨List.length_map _, fun v member => ?_⟩
  obtain ⟨u, listed, rfl⟩ := List.mem_map.mp member
  exact if_neg fun same : u = NEWLINE => clean (same ▸ listed)

private theorem blankLines_text {src : JsString} {stop : Nat} (within : stop ≤ src.length)
    (fuel at_ : Nat) (parts : List JsString) (le : at_ ≤ stop) (enough : stop - at_ ≤ fuel) :
    (BlankedText.blankLines src stop fuel at_ parts).flatten =
      parts.flatten ++ (slice src at_ stop).map blankUnit := by
  have last {at_ : Nat} {parts : List JsString} (clean : NEWLINE ∉ slice src at_ stop) :
      (parts ++ [List.replicate (stop - at_) SPACE]).flatten =
        parts.flatten ++ (slice src at_ stop).map blankUnit := by
    rw [map_blankUnit_line clean, length_slice src within]
    simp
  induction fuel generalizing at_ parts with
  | zero =>
    have done : stop - at_ = 0 := Nat.le_zero.mp enough
    rw [BlankedText.blankLines]
    exact last (by rw [slice_eq, done]; exact List.not_mem_nil)
  | succ fuel ih =>
    rw [BlankedText.blankLines]
    have first := indexOf_unit NEWLINE (src.drop at_)
    cases found : indexOf [NEWLINE] (src.drop at_) with
    | none =>
      rw [found] at first
      exact last fun member => first (by rw [slice_eq] at member; exact List.mem_of_mem_take member)
    | some k =>
      rw [found] at first
      obtain ⟨clean, newline⟩ := first
      simp only [Option.map_some]
      split
      · next below =>
        have middle := slice_append src (Nat.le_add_right at_ k) (Nat.le_of_lt below)
        have next := slice_append src (Nat.le_succ (at_ + k)) (Nat.succ_le_of_lt below)
        have line : slice src at_ (at_ + k) = (src.drop at_).take k := by
          rw [slice_eq, Nat.add_sub_cancel_left]
        have one : slice src (at_ + k) (at_ + k + 1) = [NEWLINE] := by
          rw [slice_eq, Nat.add_sub_cancel_left, ← List.drop_drop, newline]
          rfl
        have blanks : ((src.drop at_).take k).length = k := by
          rw [← line, length_slice src (by omega), Nat.add_sub_cancel_left]
        rw [ih (at_ + k + 1) _ (by omega) (by omega), middle, next, line, one, List.map_append,
          List.map_append, map_blankUnit_line clean, blanks, Nat.add_sub_cancel_left]
        simp [blankUnit]
      · next beyond =>
        refine last fun member => clean ?_
        rw [slice_eq] at member
        exact List.take_subset_take_left _ (by omega) member

private theorem blank_parts {out : BlankedText} {start stop : Nat} (le : start < stop)
    (within : stop ≤ out.src.length) :
    (out.blank start stop).parts.flatten = out.parts.flatten ++ slice out.src out.copied start ++
      (slice out.src start stop).map blankUnit := by
  rw [BlankedText.blank, if_neg (by omega)]
  simp only
  rw [blankLines_text within _ _ _ (Nat.le_of_lt le) (Nat.le_refl _)]
  simp

section Fold

variable {O σ : Type} (src : JsString) (joined : O → JsString) (copied : O → Nat) (op : O → Span → O)
  (skips : ∀ o s, s.kind ≠ .blank → op o s = o)
  (writes : ∀ o s, s.kind = .blank → copied o ≤ s.start → s.start < s.stop → s.stop ≤ src.length →
    joined (op o s) = joined o ++ slice src (copied o) s.start ++
      (slice src s.start s.stop).map blankUnit ∧ copied (op o s) = s.stop)

include skips writes

private theorem fold_spans {round : σ → JsString → Token σ}
    (progress : ∀ state u rest, 0 < (round state (u :: rest)).length)
    (within : ∀ state u rest, (round state (u :: rest)).kind = .blank →
      (round state (u :: rest)).length ≤ rest.length + 1)
    (fuel start : Nat) (state : σ) (o : O) (behind : copied o ≤ start) :
    joined ((spans round fuel state start (src.drop start)).foldl op o) ++
        src.drop (copied ((spans round fuel state start (src.drop start)).foldl op o)) =
      joined o ++ slice src (copied o) start ++
        blanked round blankUnit fuel state (src.drop start) := by
  induction fuel generalizing start state o with
  | zero =>
    rw [spans, blanked, List.foldl_nil, List.append_assoc, slice_drop src behind]
  | succ fuel ih =>
    cases rest : src.drop start with
    | nil =>
      rw [spans, blanked, List.foldl_nil, List.append_assoc, ← rest, slice_drop src behind]
    | cons u tail =>
      have positive := progress state u tail
      have fits := within state u tail
      have length := congrArg List.length rest
      rw [List.length_drop, List.length_cons] at length
      rw [spans, blanked, ← rest]
      rw [← rest] at positive fits
      generalize round state (src.drop start) = t at positive fits ⊢
      have chunk : slice src start (start + t.length) = (src.drop start).take t.length := by
        rw [slice_eq, Nat.add_sub_cancel_left]
      simp only [List.foldl_cons]
      by_cases kind : t.kind = .blank
      · obtain ⟨parts, last⟩ := writes o ⟨t.kind, start, start + t.length⟩ kind behind
          (by simp only; omega) (by have := fits kind; simp only; omega)
        have none_ : slice src (start + t.length) (start + t.length) = [] := by
          rw [slice_eq, Nat.sub_self, List.take_zero]
        rw [List.drop_drop, ih (start + t.length) t.next _ (Nat.le_of_eq last), parts, last,
          if_pos kind]
        simp only [none_, chunk, List.append_nil, List.append_assoc]
      · have same := skips o ⟨t.kind, start, start + t.length⟩ kind
        rw [same, List.drop_drop, ih (start + t.length) t.next o (by omega), if_neg kind,
          slice_append src behind (Nat.le_add_right start t.length), chunk]
        simp only [List.append_assoc]

end Fold

/-- What a scanner needs for its ranges to lie in the text and go forward. -/
structure Forward {σ : Type} (round : σ → JsString → Token σ) : Prop where
  progress : ∀ state u rest, 0 < (round state (u :: rest)).length
  within : ∀ state u rest, (round state (u :: rest)).kind = .blank →
    (round state (u :: rest)).length ≤ rest.length + 1

theorem blankSpans_spans {σ : Type} {round : σ → JsString → Token σ} (forward : Forward round)
    (src : JsString) (state : σ) : blankSpans src (spans round src.length state 0 src) =
      blanked round blankUnit src.length state src := by
  let op := fun (out : {out : BlankedText // out.src = src}) (s : Span) =>
    if s.kind = .blank then (⟨out.val.blank s.start s.stop, by
      rw [BlankedText.blank]
      split <;> exact out.property⟩ : {out : BlankedText // out.src = src}) else out
  have erase (ss : List Span) (out : {out : BlankedText // out.src = src}) :
      ss.foldl (fun out s => if s.kind = .blank then out.blank s.start s.stop else out) out.val =
        (ss.foldl op out).val := by
    induction ss generalizing out with
    | nil => rfl
    | cons s ss ih =>
      rw [List.foldl_cons, List.foldl_cons, ← ih]
      congr 1
      unfold op
      split <;> rfl
  have whole := fold_spans src (fun out => out.val.parts.flatten) (fun out => out.val.copied)
    op (fun o s kept => if_neg kept) (fun o s kind behind le within => by
      have inside : s.stop ≤ o.val.src.length := by
        rw [o.property]
        exact within
      have text := blank_parts le inside
      rw [o.property] at text
      have step : (op o s).val = o.val.blank s.start s.stop := by
        unfold op
        rw [if_pos kind]
      refine ⟨by rw [step, text], ?_⟩
      rw [step, BlankedText.blank, if_neg (by omega)])
    forward.progress forward.within src.length 0 state ⟨⟨src, [], 0⟩, rfl⟩ (Nat.le_refl 0)
  have origin := ((spans round src.length state 0 src).foldl op ⟨⟨src, [], 0⟩, rfl⟩).property
  rw [blankSpans, erase _ ⟨⟨src, [], 0⟩, rfl⟩, BlankedText.text, List.flatten_append, origin]
  simpa [slice] using whole

private theorem blankSlice_eq (src : JsString) (start stop : Nat) :
    blankSlice src start stop = (slice src start stop).map blankUnit := rfl

private theorem latin1_low {text : JsString} (low : text.any (0xff < ·) = false) :
    latin1 text = text := by
  rw [latin1]
  refine (List.map_congr_left fun u member => ?_).trans (List.map_id _)
  have small : ¬ 0xff < u := by simpa using List.any_eq_false.mp low u member
  rw [UInt16.lt_iff_toNat_lt] at small
  apply UInt16.toNat_inj.mp
  rw [UInt8.toNat_toUInt16, UInt16.toNat_toUInt8, id_eq]
  have limit : (0xff : UInt16).toNat = 255 := rfl
  omega

theorem stripCStyle_spans {allow : Bool} (forward : Forward (cStyleRound allow)) (src : JsString) :
    stripCStyle src allow = blanked (cStyleRound allow) blankUnit src.length () src := by
  let op := fun (o : List JsString × Nat) (s : Span) =>
    if s.kind = .blank then
      (o.1 ++ [slice src o.2 s.start, blankSlice src s.start s.stop], s.stop)
    else o
  have parts : cStyleParts src (spans (cStyleRound allow) src.length () 0 src) =
      (spans (cStyleRound allow) src.length () 0 src).foldl op ([], 0) := rfl
  have whole := fold_spans src (fun o : List JsString × Nat => o.1.flatten) Prod.snd op
    (fun o s kept => if_neg kept) (fun o s kind behind le within => by
      have step : op o s =
          (o.1 ++ [slice src o.2 s.start, blankSlice src s.start s.stop], s.stop) := if_pos kind
      rw [step]
      exact ⟨by simp [blankSlice_eq], rfl⟩)
    forward.progress forward.within src.length 0 () ([], 0) (Nat.le_refl 0)
  have untouched : ((spans (cStyleRound allow) src.length () 0 src).foldl op ([], 0)).2 = 0 →
      ((spans (cStyleRound allow) src.length () 0 src).foldl op ([], 0)).1 = [] := by
    have start : (([], 0) : List JsString × Nat).2 = 0 → (([], 0) : List JsString × Nat).1 = [] :=
      fun _ => rfl
    refine List.foldlRecOn _ op (motive := fun o => o.2 = 0 → o.1 = []) start
      fun o kept s listed none_ => ?_
    have stop := spans_forward forward.progress listed
    by_cases kind : s.kind = .blank
    · have last : (op o s).2 = s.stop := by
        unfold op
        rw [if_pos kind]
      omega
    · have same : op o s = o := if_neg kind
      rw [same] at none_ ⊢
      exact kept none_
  rw [List.drop_zero] at whole
  rw [stripCStyle, parts]
  generalize (spans (cStyleRound allow) src.length () 0 src).foldl op ([], 0) = o at whole untouched
  obtain ⟨parts, copied⟩ := o
  have text : (parts ++ [src.drop copied]).flatten =
      blanked (cStyleRound allow) blankUnit src.length () src := by
    simpa [slice] using whole
  simp only
  by_cases none_ : copied = 0
  · have empty : parts = [] := untouched none_
    rw [if_pos none_, ← text, empty, none_]
    simp
  · rw [if_neg none_, text]
    split
    · rfl
    · next low => exact latin1_low (Bool.not_eq_true _ ▸ low)

end CodeGraph.Resolution
