import CodeGraph.Resolution.StripStable

/-! Stripping keeps offsets and literals, is done after one pass, and does not depend on the memo. -/
namespace CodeGraph.Resolution

open Blanking Text

structure Preserves (content out : JsString) (lang : CommentLang) : Prop where
  length : out.length = content.length
  newlines : ∀ i : Nat, out[i]? = some NEWLINE ↔ content[i]? = some NEWLINE
  units : ∀ (i : Nat) u, content[i]? = some u → out[i]? = some u ∨ out[i]? = some SPACE
  literals : ∀ s ∈ scanned content lang, s.kind = .literal →
    ∀ i : Nat, s.start ≤ i → i < s.stop → out[i]? = content[i]?

private structure Strips (σ : Type) (lang : CommentLang) where
  round : σ → JsString → Token σ
  state : σ
  stable : Stable round blankUnit
  strips : ∀ text, stripUncached text lang = blanked round blankUnit text.length state text
  scans : ∀ text, scanned text lang = spans round text.length state 0 text

private def cStyleStrips (lang : CommentLang) (allow : Bool)
    (strips : ∀ text, stripUncached text lang = stripCStyle text allow)
    (scans : ∀ text, scanned text lang = spans (cStyleRound allow) text.length () 0 text) :
    Strips Unit lang :=
  ⟨cStyleRound allow, (), cStyleRound_stable allow,
    fun text => (strips text).trans (stripCStyle_spans (cStyleRound_forward allow) text), scans⟩

private theorem strips_scanner (lang : CommentLang) : ∃ σ, Nonempty (Strips σ lang) := by
  cases lang with
  | python => exact ⟨Unit, ⟨pythonRound, (), pythonRound_stable,
      fun text => blankSpans_spans pythonRound_forward text (), fun _ => rfl⟩⟩
  | ruby => exact ⟨Bool, ⟨rubyRound, true, rubyRound_stable,
      fun text => blankSpans_spans rubyRound_forward text true, fun _ => rfl⟩⟩
  | rust => exact ⟨Unit, ⟨rustRound, (), rustRound_stable,
      fun text => blankSpans_spans rustRound_forward text (), fun _ => rfl⟩⟩
  | erlang => exact ⟨Unit, ⟨erlangRound, (), erlangRound_stable,
      fun text => blankSpans_spans erlangRound_forward text (), fun _ => rfl⟩⟩
  | php => exact ⟨Unit, ⟨phpRound, (), phpRound_stable,
      fun text => blankSpans_spans phpRound_forward text (), fun _ => rfl⟩⟩
  | go => exact ⟨Unit, ⟨goRound, (), goRound_stable,
      fun text => blankSpans_spans goRound_forward text (), fun _ => rfl⟩⟩
  | javascript => exact ⟨Unit, ⟨cStyleStrips _ true (fun _ => rfl) fun _ => rfl⟩⟩
  | typescript => exact ⟨Unit, ⟨cStyleStrips _ true (fun _ => rfl) fun _ => rfl⟩⟩
  | java => exact ⟨Unit, ⟨cStyleStrips _ false (fun _ => rfl) fun _ => rfl⟩⟩
  | csharp => exact ⟨Unit, ⟨cStyleStrips _ false (fun _ => rfl) fun _ => rfl⟩⟩
  | swift => exact ⟨Unit, ⟨cStyleStrips _ false (fun _ => rfl) fun _ => rfl⟩⟩
  | c => exact ⟨Unit, ⟨cStyleStrips _ false (fun _ => rfl) fun _ => rfl⟩⟩
  | cpp => exact ⟨Unit, ⟨cStyleStrips _ false (fun _ => rfl) fun _ => rfl⟩⟩

private theorem overlay_preserves {content out : JsString} (overlay : Overlay blankUnit content out) :
    out.length = content.length ∧ (∀ i : Nat, out[i]? = some NEWLINE ↔ content[i]? = some NEWLINE) ∧
      ∀ (i : Nat) u, content[i]? = some u → out[i]? = some u ∨ out[i]? = some SPACE := by
  have units : ∀ (i : Nat) u, content[i]? = some u →
      out[i]? = some u ∨ out[i]? = some SPACE ∧ u ≠ NEWLINE := by
    intro i u found
    by_cases line : u = NEWLINE
    · rw [line] at found ⊢
      exact .inl ((overlay.get found).elim id id)
    · have space : blankUnit u = SPACE := if_neg line
      rw [← space]
      exact (overlay.get found).imp_right fun blanked => ⟨blanked, line⟩
  refine ⟨overlay.length_eq, fun i => ⟨fun found => ?_, fun found => ?_⟩,
    fun i u found => (units i u found).imp_right And.left⟩
  · obtain ⟨below, _⟩ := List.getElem?_eq_some_iff.mp found
    rw [overlay.length_eq] at below
    have there := List.getElem?_eq_getElem below
    rcases units i _ there with same | ⟨space, -⟩
    · rw [there, ← same, found]
    · rw [found] at space
      exact absurd (Option.some.inj space) (by decide)
  · exact (units i NEWLINE found).elim id fun blanked => (blanked.2 rfl).elim

theorem stripUncached_preserves (content : JsString) (lang : CommentLang) :
    Preserves content (stripUncached content lang) lang := by
  obtain ⟨σ, ⟨s⟩⟩ := strips_scanner lang
  obtain ⟨length, newlines, units⟩ :=
    overlay_preserves (blanked_overlay s.round blankUnit content.length s.state content)
  rw [s.strips]
  refine ⟨length, newlines, units, fun span listed kind i low high => ?_⟩
  rw [s.scans] at listed
  exact (blanked_span s.round blankUnit listed (by rw [kind]; decide) low high).2

theorem stripUncached_again (content : JsString) (lang : CommentLang) :
    stripUncached (stripUncached content lang) lang = stripUncached content lang := by
  obtain ⟨σ, ⟨s⟩⟩ := strips_scanner lang
  have length := (blanked_overlay s.round blankUnit content.length s.state content).length_eq
  rw [s.strips content, s.strips, length]
  exact blanked_blanked s.stable s.state content

/-! ### The memo -/

inductive MemoStep where
  | strip (content : JsString) (lang : CommentLang)
  /-- A `withStripMemo` begins. -/
  | start
  /-- The work of the `k`-th `withStripMemo` settles. -/
  | settle (k : Nat)

/-- The memo, and what each `withStripMemo` restores when its work settles. -/
structure MemoRun where
  current : MemoState
  previous : List MemoState

namespace MemoRun

def initial : MemoRun := ⟨⟨none, 0⟩, []⟩

def step (r : MemoRun) : MemoStep → MemoRun
  | .strip content lang => { r with current := (stripCommentsForRegex content lang r.current).2 }
  | .start => ⟨freshMemo, r.previous ++ [r.current]⟩
  | .settle k => { r with current := r.previous[k]?.getD r.current }

def after (steps : List MemoStep) : MemoRun := steps.foldl step initial

def texts (r : MemoRun) : List MemoStep → List JsString
  | [] => []
  | .strip content lang :: steps =>
    (stripCommentsForRegex content lang r.current).1 :: texts (r.step (.strip content lang)) steps
  | s :: steps => texts (r.step s) steps

end MemoRun

def uncachedTexts (steps : List MemoStep) : List JsString :=
  steps.filterMap fun s =>
    match s with
    | .strip content lang => some (stripUncached content lang)
    | _ => none

def MemoState.Valid (m : MemoState) : Prop :=
  ∀ memo, m.stripMemo = some memo →
    ∀ key text out, (memo key).lookup text = some out → out = stripUncached text key

theorem stripUncached_stripperKey (content : JsString) (lang : CommentLang) :
    stripUncached content (stripperKey lang) = stripUncached content lang := by
  cases lang <;> rfl

theorem stripCommentsForRegex_valid {m : MemoState} (valid : m.Valid) (content : JsString)
    (lang : CommentLang) : (stripCommentsForRegex content lang m).1 = stripUncached content lang ∧
      (stripCommentsForRegex content lang m).2.Valid := by
  obtain ⟨stripMemo, bytes⟩ := m
  cases stripMemo with
  | none => exact ⟨rfl, valid⟩
  | some memo =>
    rw [stripCommentsForRegex]
    simp only
    cases hit : (memo (stripperKey lang)).lookup content with
    | some out =>
      refine ⟨?_, valid⟩
      rw [← stripUncached_stripperKey]
      exact valid memo rfl _ _ _ hit
    | none =>
      simp only
      split
      · refine ⟨rfl, ?_⟩
        rintro _ ⟨⟩ key text out found
        simp only at found
        split at found
        · next same =>
          rw [List.lookup_cons] at found
          split at found
          · next equal =>
            cases found
            rw [same, stripUncached_stripperKey, beq_iff_eq.mp equal]
          · exact valid memo rfl key text out found
        · exact valid memo rfl key text out found
      · exact ⟨rfl, valid⟩

def MemoRun.Valid (r : MemoRun) : Prop := r.current.Valid ∧ ∀ m ∈ r.previous, m.Valid

private theorem step_valid {r : MemoRun} (valid : r.Valid) (s : MemoStep) : (r.step s).Valid := by
  cases s with
  | strip content lang => exact ⟨(stripCommentsForRegex_valid valid.1 content lang).2, valid.2⟩
  | start =>
    refine ⟨?_, fun m member => ?_⟩
    · rintro _ ⟨⟩ key text out found
      cases found
    · rcases mem_snoc.mp member with old | new
      · exact valid.2 m old
      · rw [new]
        exact valid.1
  | settle k =>
    refine ⟨?_, valid.2⟩
    rw [MemoRun.step]
    cases found : r.previous[k]? with
    | none => exact valid.1
    | some m => exact valid.2 m (List.mem_of_getElem? found)

private theorem initial_valid : MemoRun.initial.Valid := by
  refine ⟨?_, fun m member => nomatch member⟩
  rintro _ ⟨⟩

theorem MemoRun.after_valid (steps : List MemoStep) : (MemoRun.after steps).Valid :=
  List.foldlRecOn steps MemoRun.step initial_valid fun _ valid s _ => step_valid valid s

private theorem texts_uncached {r : MemoRun} (valid : r.Valid) (steps : List MemoStep) :
    r.texts steps = uncachedTexts steps := by
  induction steps generalizing r with
  | nil => rfl
  | cons s steps ih =>
    have rest := ih (step_valid valid s)
    cases s with
    | strip content lang =>
      rw [MemoRun.texts, (stripCommentsForRegex_valid valid.1 content lang).1, rest]
      rfl
    | start => exact rest
    | settle k => exact rest

/-- In every state of the memo a text is stripped as without one; what comes out has the length, the
newlines and the literals of the source, its other units are kept or spaces, and it is stripped to
itself. -/
theorem stripCommentsForRegex_contract (steps : List MemoStep) (content : JsString)
    (lang : CommentLang) :
    let out := (stripCommentsForRegex content lang (MemoRun.after steps).current).1
    out = stripUncached content lang ∧ Preserves content out lang ∧
      (∀ later, (stripCommentsForRegex out lang (MemoRun.after later).current).1 = out) ∧
      MemoRun.initial.texts steps = uncachedTexts steps := by
  have same := (stripCommentsForRegex_valid (MemoRun.after_valid steps).1 content lang).1
  refine ⟨same, by rw [same]; exact stripUncached_preserves content lang, fun later => ?_,
    texts_uncached initial_valid steps⟩
  rw [same]
  rw [(stripCommentsForRegex_valid (MemoRun.after_valid later).1 _ lang).1, stripUncached_again]

end CodeGraph.Resolution
