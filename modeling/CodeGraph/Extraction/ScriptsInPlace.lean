import CodeGraph.Extraction.PascalInPlace
import CodeGraph.Extraction.RazorWrites

/-!
# Sources are rewritten in place

The writes of the Razor rewrites, applied one after another; with the rewrite of Pascal, none moves a
unit of its source.
-/
namespace CodeGraph.Extraction.RazorScript

open Scanning Text InPlace
open PascalPreparse (isBreak)

variable {s out : JsString} {writes : List Write} {p : Nat}

theorem commentWrites_recognised (s : JsString) : ∀ w ∈ commentWrites s, Recognised s w := by
  apply scan_spec (fun (writes : List Write) _ => ∀ w ∈ writes, Recognised s w)
    (fun writes : List Write => ∀ w ∈ writes, Recognised s w)
  · rintro writes ⟨i, _⟩ _ known
    dsimp only
    split
    next => exact known
    next at_ ahead opens =>
      split
      next => exact known
      next e later closes =>
        have first := @startsAt_getElem? _ _ s [AT, STAR] at_ 0 (indexOf_starts opens) (by decide)
        have second := @startsAt_getElem? _ _ s [AT, STAR] at_ 1 (indexOf_starts opens) (by decide)
        have within := startsAt_length (indexOf_starts closes) (List.cons_ne_nil _ _)
        intro w listed
        rcases mem_snoc.mp listed with old | new
        · exact known w old
        · rw [new]
          refine .comment first second within fun e' found => ?_
          rw [closes] at found
          cases found
          exact Nat.le_refl _
  · exact fun _ _ _ known => known
  · exact fun w none_ => by cases none_

theorem Recognised.within {start stop : Nat} (known : Recognised s (.blank start stop)) :
    stop ≤ s.length := by
  cases known with
  | escape here next => exact (List.getElem?_eq_some_iff.mp next).1.le
  | comment _ _ within _ => exact within
  | bracketed _ _ closed => exact pastBracket_within closed
  | mark here next => exact (List.getElem?_eq_some_iff.mp next).1
  | expression _ _ _ _ within => exact within
  | statement _ _ _ _ _ within => exact within

theorem Recognised.at_sign (known : Recognised s (.zero p)) : s[p]? = some AT := by
  cases known with
  | value here _ => exact here

inductive Unit_ (s : JsString) (writes : List Write) (out : JsString) (p : Nat) : Prop where
  | kept (same : out[p]? = s[p]?)
  | blanked {start stop : Nat} (listed : .blank start stop ∈ writes) (from_ : start ≤ p)
      (until_ : p < stop) {c : UInt16} (was : s[p]? = some c) (plain : isBreak c = false)
      (is : out[p]? = some SPACE)
  | value (listed : .zero p ∈ writes) {c : UInt16} (was : s[p]? = some c) (plain : isBreak c = false)
      (is : out[p]? = some ZERO)

theorem Unit_.mono (unit : Unit_ s writes out p) {more : List Write} (sub : writes ⊆ more) {out' : JsString}
    (same : out'[p]? = out[p]?) : Unit_ s more out' p := by
  cases unit with
  | kept is => exact .kept (same.trans is)
  | blanked listed from_ until_ was plain is =>
    exact .blanked (sub listed) from_ until_ was plain (same.trans is)
  | value listed was plain is => exact .value (sub listed) was plain (same.trans is)

/-- A unit that is no break has not been one. -/
theorem Unit_.plain (unit : Unit_ s writes out p) {d : UInt16} (is : out[p]? = some d)
    (plain : isBreak d = false) : ∃ c, s[p]? = some c ∧ isBreak c = false := by
  cases unit with
  | kept same => exact ⟨d, same ▸ is, plain⟩
  | blanked _ _ _ was loose _ => exact ⟨_, was, loose⟩
  | value _ was loose _ => exact ⟨_, was, loose⟩

theorem isBreak_iff {c : UInt16} : isBreak c = false ↔ c ≠ LF ∧ c ≠ CR := by
  simp [isBreak, PascalPreparse.CH_LF, PascalPreparse.CH_CR, LF, CR]

theorem apply_units {w : Write} (known : Recognised s w) (length : out.length = s.length)
    (units : ∀ p < s.length, Unit_ s writes out p) :
    (w.apply out).length = s.length ∧ ∀ p < s.length, Unit_ s (writes ++ [w]) (w.apply out) p := by
  have sub : writes ⊆ writes ++ [w] := fun _ listed => List.mem_append_left _ listed
  have last : w ∈ writes ++ [w] := List.mem_append_right _ List.mem_cons_self
  cases w with
  | blank start stop =>
    have none_ : stop - max start out.length = 0 := by
      have within := known.within
      omega
    rw [Write.apply, none_, List.replicate_zero, List.append_nil]
    refine ⟨by rw [List.length_mapIdx, length], fun p below => ?_⟩
    have inside : p < out.length := length ▸ below
    have unit := units p below
    by_cases here : start ≤ p ∧ p < stop ∧ out[p] ≠ LF ∧ out[p] ≠ CR
    · have is : out[p]? = some out[p] := List.getElem?_eq_getElem inside
      obtain ⟨c, was, plain⟩ := unit.plain is (isBreak_iff.mpr here.2.2)
      refine .blanked last here.1 here.2.1 was plain ?_
      rw [List.getElem?_mapIdx, is, Option.map_some, if_pos here]
    · apply unit.mono sub
      rw [List.getElem?_mapIdx, List.getElem?_eq_getElem inside, Option.map_some, if_neg here]
  | zero place =>
    rw [Write.apply]
    refine ⟨by rw [List.length_set, length], fun p below => ?_⟩
    by_cases here : place = p
    · subst here
      refine .value last known.at_sign (by decide) ?_
      rw [List.getElem?_set_self (length ▸ below)]
    · exact (units p below).mono sub (List.getElem?_set_ne here)

theorem foldl_units (known : ∀ w ∈ writes, Recognised s w) :
    (writes.foldl Write.apply s).length = s.length ∧
      ∀ p < s.length, Unit_ s writes (writes.foldl Write.apply s) p := by
  induction writes using List.reverseRecOn with
  | nil => exact ⟨rfl, fun p _ => .kept rfl⟩
  | append_singleton writes w ih =>
    obtain ⟨length, units⟩ := ih fun v listed => known v (List.mem_append_left _ listed)
    rw [List.foldl_append]
    exact apply_units (known w (List.mem_append_right _ List.mem_cons_self)) length units

structure Rewrites (s : JsString) (writes : List Write) (out : JsString) : Prop where
  /-- The text has the same length, and its line breaks are where they were. -/
  lines : Keeps (fun c => isBreak c = true) s out
  /-- Each unit is as it was, or a space, or the `0` of an expression. -/
  units : ∀ p < s.length, out[p]? = s[p]? ∨ out[p]? = some SPACE ∨
    (out[p]? = some ZERO ∧ .zero p ∈ writes)
  /-- What is not recognised is as it was. -/
  outside : ∀ p : Nat, (∀ start stop, .blank start stop ∈ writes → ¬(start ≤ p ∧ p < stop)) →
    .zero p ∉ writes → out[p]? = s[p]?
  recognised : ∀ w ∈ writes, Recognised s w

theorem rewrites_self (known : ∀ w ∈ writes, Recognised s w) : Rewrites s writes s :=
  ⟨Keeps.refl s, fun _ _ => Or.inl rfl, fun _ _ _ => rfl, known⟩

theorem rewrites_writes (known : ∀ w ∈ writes, Recognised s w) :
    Rewrites s writes (writes.foldl Write.apply s) := by
  obtain ⟨length, units⟩ := foldl_units known
  constructor
  · apply Keeps.of_units length
    intro p below
    cases units p below with
    | kept same => exact Or.inl same
    | blanked _ _ _ was plain is => exact Or.inr ⟨_, _, was, is, by simp [plain], by decide⟩
    | value _ was plain is => exact Or.inr ⟨_, _, was, is, by simp [plain], by decide⟩
  · intro p below
    cases units p below with
    | kept same => exact Or.inl same
    | blanked _ _ _ _ _ is => exact Or.inr (Or.inl is)
    | value listed _ _ is => exact Or.inr (Or.inr ⟨is, listed⟩)
  · intro p blanks zeros
    by_cases below : p < s.length
    · cases units p below with
      | kept same => exact same
      | blanked listed from_ until_ _ _ _ => exact absurd ⟨from_, until_⟩ (blanks _ _ listed)
      | value listed _ _ _ => exact absurd listed zeros
    · rw [List.getElem?_eq_none (by omega), List.getElem?_eq_none (by omega)]
  · exact known

theorem blankRazorInScript_rewrites (source : JsString) :
    Rewrites source (blankRazor source 0 source.length) (blankRazorInScript source) := by
  rw [blankRazorInScript]
  split
  · exact rewrites_self (blankRazor_known source)
  · exact rewrites_writes (blankRazor_known source)

theorem blankRazorComments_rewrites (source : JsString) :
    Rewrites source (commentWrites source) (blankRazorComments source) := by
  rw [blankRazorComments]
  split
  · exact rewrites_self (commentWrites_recognised source)
  · exact rewrites_writes (commentWrites_recognised source)

end CodeGraph.Extraction.RazorScript

namespace CodeGraph.Extraction

open Text

/-- The rewrites before a parse keep every position. -/
theorem preParse_in_place (source : JsString) :
    PascalPreparse.Rewrites source (PascalPreparse.preParsePascal source) ∧
    RazorScript.Rewrites source (RazorScript.blankRazor source 0 source.length)
      (RazorScript.blankRazorInScript source) ∧
    RazorScript.Rewrites source (RazorScript.commentWrites source)
      (RazorScript.blankRazorComments source) :=
  ⟨PascalPreparse.preParsePascal_rewrites source, RazorScript.blankRazorInScript_rewrites source,
    RazorScript.blankRazorComments_rewrites source⟩

end CodeGraph.Extraction
