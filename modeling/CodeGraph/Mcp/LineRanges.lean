import CodeGraph.Foundation.Decisions

/-!
# Line ranges of a file

What `explore-dedup.ts` computes on line ranges, read as the sets of their lines.
-/
namespace CodeGraph.Mcp.Explore

/-- An inclusive span of lines, as it comes: it may be empty or start before the first line. -/
structure ExploreLineRange where
  start : Int
  «end» : Int
  deriving DecidableEq, Repr

def MIN_COVERED_LINES : Int := 8

namespace ExploreLineRange

def Valid (r : ExploreLineRange) : Prop := r.end ≥ r.start ∧ r.start ≥ 1

instance (r : ExploreLineRange) : Decidable r.Valid := inferInstanceAs (Decidable (_ ∧ _))

/-- The order of `a.start - b.start || a.end - b.end`. -/
def le (a b : ExploreLineRange) : Prop := a.start < b.start ∨ a.start = b.start ∧ a.end ≤ b.end

instance : DecidableRel le := fun _ _ => inferInstanceAs (Decidable (_ ∨ _ ∧ _))

end ExploreLineRange

/-! ### The code -/

/-- One step of the merging loop, `out` with its last range. -/
def mergeStep (out : List ExploreLineRange) (r : ExploreLineRange) : List ExploreLineRange :=
  match out.getLast? with
  | none => [r]
  | some last =>
    if r.start ≤ last.end + 1 then out.dropLast ++ [{ last with «end» := max last.end r.end }]
    else out ++ [r]

def mergeRanges (ranges : List ExploreLineRange) : List ExploreLineRange :=
  ((ranges.filter (·.Valid)).insertionSort ExploreLineRange.le).foldl mergeStep []

def overlap (range s : ExploreLineRange) : Option ExploreLineRange :=
  let start := max range.start s.start
  let «end» := min range.end s.end
  if «end» ≥ start then some ⟨start, «end»⟩ else none

def intersectRange (range : ExploreLineRange) (served : List ExploreLineRange) :
    List ExploreLineRange :=
  mergeRanges (served.filterMap (overlap range))

def uncut (range : ExploreLineRange) (cursor : Int) : List ExploreLineRange :=
  if cursor ≤ range.end then [⟨cursor, range.end⟩] else []

/-- The loop of `subtractRange` over the merged cuts, from the cursor on. -/
def subtractFrom (range : ExploreLineRange) (cursor : Int) :
    List ExploreLineRange → List ExploreLineRange
  | [] => uncut range cursor
  | c :: cuts =>
    if c.end < cursor then subtractFrom range cursor cuts
    else if c.start > range.end then uncut range cursor
    else
      let next := max cursor (c.end + 1)
      (if c.start > cursor then [⟨cursor, min (c.start - 1) range.end⟩] else []) ++
        if next > range.end then uncut range next else subtractFrom range next cuts

def subtractRange (range : ExploreLineRange) (cut : List ExploreLineRange) :
    List ExploreLineRange :=
  subtractFrom range range.start (mergeRanges cut)

structure RangeDedup where
  emit : List ExploreLineRange
  covered : List ExploreLineRange
  deriving DecidableEq, Repr

def dedupeRange (range : ExploreLineRange) (served : List ExploreLineRange) (minCovered : Int) :
    RangeDedup :=
  if served = [] ∨ range.end < range.start then ⟨[range], []⟩
  else
    let covered := (intersectRange range served).filter fun r => r.end - r.start + 1 ≥ minCovered
    if covered = [] then ⟨[range], []⟩ else ⟨subtractRange range covered, covered⟩

def Inside (r : ExploreLineRange) (line : Int) : Prop := r.start ≤ line ∧ line ≤ r.end

def Lines (ranges : List ExploreLineRange) (line : Int) : Prop := ∃ r ∈ ranges, Inside r line

def Apart (ranges : List ExploreLineRange) : Prop :=
  ranges.Pairwise (fun a b => a.end + 1 < b.start) ∧ ∀ r ∈ ranges, r.Valid

@[simp]
theorem lines_nil (line : Int) : ¬Lines [] line := fun ⟨_, none_, _⟩ => nomatch none_

@[simp]
theorem lines_cons (r : ExploreLineRange) (ranges : List ExploreLineRange) (line : Int) :
    Lines (r :: ranges) line ↔ Inside r line ∨ Lines ranges line := by
  simp [Lines]

@[simp]
theorem lines_append (left right : List ExploreLineRange) (line : Int) :
    Lines (left ++ right) line ↔ Lines left line ∨ Lines right line := by
  simp [Lines, or_and_right, exists_or]

private theorem mergeStep_apart {out : List ExploreLineRange} {r : ExploreLineRange}
    (apart : Apart out) (valid : r.Valid) (after : ∀ a ∈ out, a.start ≤ r.start) :
    Apart (mergeStep out r) ∧ (∀ a ∈ mergeStep out r, a.start ≤ r.start) ∧
      ∀ line, Lines (mergeStep out r) line ↔ Lines out line ∨ Inside r line := by
  rcases List.eq_nil_or_concat out with rfl | ⟨init, last, rfl⟩
  · refine ⟨⟨List.pairwise_singleton _ _, ?_⟩, ?_, ?_⟩ <;> simp [mergeStep, valid]
  · rw [List.concat_eq_append] at apart after ⊢
    obtain ⟨pairwise, all_valid⟩ := apart
    rw [List.pairwise_append] at pairwise
    obtain ⟨init_apart, -, gaps⟩ := pairwise
    have last_valid := all_valid last (by simp)
    have last_after := after last (by simp)
    simp only [mergeStep, List.getLast?_append, List.getLast?_singleton, Option.some_or]
    split
    · next touches =>
      rw [List.dropLast_concat]
      refine ⟨⟨?_, ?_⟩, ?_, ?_⟩
      · rw [List.pairwise_append]
        refine ⟨init_apart, List.pairwise_singleton _ _, fun a before b merged => ?_⟩
        cases List.mem_singleton.mp merged
        exact gaps a before last (List.mem_singleton_self _)
      · exact forall_snoc (fun a before => all_valid a (List.mem_append_left _ before))
          ⟨le_trans last_valid.1 (le_max_left _ _), last_valid.2⟩
      · exact forall_snoc (fun a before => after a (List.mem_append_left _ before)) last_after
      · intro line
        have both : Inside { last with «end» := max last.end r.end } line ↔
            Inside last line ∨ Inside r line := by
          obtain ⟨filled, -⟩ := last_valid
          simp only [Inside]
          omega
        simp only [lines_append, lines_cons, both, lines_nil, or_false, or_assoc]
    · next gap =>
      have past : last.end + 1 < r.start := not_le.mp gap
      refine ⟨⟨?_, ?_⟩, ?_, ?_⟩
      · rw [List.pairwise_append]
        refine ⟨List.pairwise_append.mpr ⟨init_apart, List.pairwise_singleton _ _, gaps⟩,
          List.pairwise_singleton _ _, fun a member b new => ?_⟩
        cases List.mem_singleton.mp new
        rcases mem_snoc.mp member with before | merged
        · have gap_before := gaps a before last (List.mem_singleton_self _)
          obtain ⟨filled, -⟩ := last_valid
          omega
        · cases merged
          exact past
      · exact forall_snoc all_valid valid
      · exact forall_snoc after (le_refl _)
      · intro line
        simp only [lines_append, lines_cons, lines_nil, or_false]

private theorem mergeFrom_apart {out ranges : List ExploreLineRange} (apart : Apart out)
    (valid : ∀ r ∈ ranges, r.Valid) (sorted : ranges.Pairwise ExploreLineRange.le)
    (after : ∀ r ∈ ranges, ∀ a ∈ out, a.start ≤ r.start) :
    Apart (ranges.foldl mergeStep out) ∧
      ∀ line, Lines (ranges.foldl mergeStep out) line ↔ Lines out line ∨ Lines ranges line := by
  induction ranges generalizing out with
  | nil => exact ⟨apart, by simp⟩
  | cons r ranges ih =>
    obtain ⟨first, rest⟩ := List.pairwise_cons.mp sorted
    obtain ⟨step_apart, step_after, step_lines⟩ :=
      mergeStep_apart apart (valid r List.mem_cons_self) (after r List.mem_cons_self)
    have later : ∀ s ∈ ranges, ∀ a ∈ mergeStep out r, a.start ≤ s.start := by
      intro s listed a merged
      have below : r.start ≤ s.start := by
        rcases first s listed with less | ⟨same, -⟩
        · exact le_of_lt less
        · exact le_of_eq same
      exact (step_after a merged).trans below
    obtain ⟨whole, lines⟩ :=
      ih step_apart (fun s listed => valid s (List.mem_cons_of_mem r listed)) rest later
    refine ⟨whole, fun line => ?_⟩
    rw [List.foldl_cons, lines, step_lines, lines_cons, or_assoc]

instance : Std.Total ExploreLineRange.le := ⟨fun a b => by
  simp only [ExploreLineRange.le]
  omega⟩

instance : IsTrans ExploreLineRange ExploreLineRange.le := ⟨fun a b c ab bc => by
  simp only [ExploreLineRange.le] at *
  omega⟩

private theorem merged (ranges : List ExploreLineRange) :
    Apart (mergeRanges ranges) ∧
      ∀ line, Lines (mergeRanges ranges) line ↔ Lines (ranges.filter (·.Valid)) line := by
  have same : ∀ r, r ∈ (ranges.filter (·.Valid)).insertionSort ExploreLineRange.le ↔
      r ∈ ranges.filter (·.Valid) := fun r => (List.perm_insertionSort _ _).mem_iff
  have valid : ∀ r ∈ (ranges.filter (·.Valid)).insertionSort ExploreLineRange.le, r.Valid :=
    fun r listed => of_decide_eq_true (List.mem_filter.mp ((same r).mp listed)).2
  obtain ⟨apart, lines⟩ := mergeFrom_apart (show Apart [] from ⟨List.Pairwise.nil, by simp⟩)
    valid (List.pairwise_insertionSort _ _) (by simp)
  refine ⟨apart, fun line => ?_⟩
  rw [mergeRanges, lines]
  simp [Lines, same]

theorem mergeRanges_apart (ranges : List ExploreLineRange) : Apart (mergeRanges ranges) :=
  (merged ranges).1

theorem lines_mergeRanges (ranges : List ExploreLineRange) (line : Int) :
    Lines (mergeRanges ranges) line ↔ ∃ r ∈ ranges, r.Valid ∧ Inside r line := by
  rw [(merged ranges).2 line]
  simp [Lines, and_assoc]

/-! ### Cutting -/

def Ordered (ranges : List ExploreLineRange) : Prop :=
  ranges.Pairwise (fun a b => a.end < b.start) ∧ ∀ r ∈ ranges, r.start ≤ r.end

theorem Apart.ordered {ranges : List ExploreLineRange} (apart : Apart ranges) : Ordered ranges :=
  ⟨apart.1.imp fun gap => by omega, fun r listed => (apart.2 r listed).1⟩

theorem Apart.filter {ranges : List ExploreLineRange} (apart : Apart ranges)
    (p : ExploreLineRange → Bool) : Apart (ranges.filter p) :=
  ⟨apart.1.filter p, fun r listed => apart.2 r (List.mem_filter.mp listed).1⟩

theorem Apart.lines_merge {ranges : List ExploreLineRange} (apart : Apart ranges) (line : Int) :
    Lines (mergeRanges ranges) line ↔ Lines ranges line := by
  rw [lines_mergeRanges]
  refine exists_congr fun r => and_congr_right fun listed => ?_
  exact and_iff_right (apart.2 r listed)

private theorem uncut_spec (range : ExploreLineRange) (cursor : Int) :
    (∀ line, Lines (uncut range cursor) line ↔ cursor ≤ line ∧ line ≤ range.end) ∧
      Ordered (uncut range cursor) ∧ ∀ r ∈ uncut range cursor, cursor ≤ r.start := by
  unfold uncut
  split
  · next left =>
    exact ⟨by simp [Inside], ⟨List.pairwise_singleton _ _, by simpa using left⟩, by simp⟩
  · next nothing =>
    refine ⟨fun line => ?_, ⟨List.Pairwise.nil, by simp⟩, by simp⟩
    simp only [lines_nil, false_iff]
    omega

private theorem subtractFrom_spec (range : ExploreLineRange) {cuts : List ExploreLineRange}
    (apart : Apart cuts) (cursor : Int) :
    (∀ line, Lines (subtractFrom range cursor cuts) line ↔
        (cursor ≤ line ∧ line ≤ range.end) ∧ ¬Lines cuts line) ∧
      Ordered (subtractFrom range cursor cuts) ∧
      ∀ r ∈ subtractFrom range cursor cuts, cursor ≤ r.start := by
  induction cuts generalizing cursor with
  | nil => simpa [subtractFrom] using uncut_spec range cursor
  | cons c cuts ih =>
    obtain ⟨pairwise, valid⟩ := apart
    obtain ⟨gaps, rest⟩ := List.pairwise_cons.mp pairwise
    have rest_apart : Apart cuts := ⟨rest, fun r listed => valid r (List.mem_cons_of_mem c listed)⟩
    have filled : c.start ≤ c.end := (valid c List.mem_cons_self).1
    -- every later cut starts behind this one
    have later : ∀ line, Lines cuts line → c.end + 1 < line := by
      rintro line ⟨b, listed, from_, -⟩
      have gap := gaps b listed
      omega
    simp only [subtractFrom]
    split
    · next behind =>
      obtain ⟨lines, ordered, starts⟩ := ih rest_apart cursor
      refine ⟨fun line => ?_, ordered, starts⟩
      rw [lines, lines_cons, not_or]
      refine and_congr_right fun inside => (and_iff_right ?_).symm
      simp only [Inside]
      omega
    split
    · next past =>
      obtain ⟨lines, ordered, starts⟩ := uncut_spec range cursor
      refine ⟨fun line => ?_, ordered, starts⟩
      rw [lines, lines_cons, not_or]
      refine (and_iff_left_of_imp fun inside => ⟨?_, fun cut => ?_⟩).symm
      · simp only [Inside]
        omega
      · have behind := later line cut
        omega
    next reached before_end =>
    have tail_spec : ∃ tail : List ExploreLineRange,
        (if max cursor (c.end + 1) > range.end then uncut range (max cursor (c.end + 1))
          else subtractFrom range (max cursor (c.end + 1)) cuts) = tail ∧
        (∀ line, Lines tail line ↔
          (max cursor (c.end + 1) ≤ line ∧ line ≤ range.end) ∧ ¬Lines cuts line) ∧
        Ordered tail ∧ ∀ r ∈ tail, max cursor (c.end + 1) ≤ r.start := by
      refine ⟨_, rfl, ?_⟩
      split
      · next beyond =>
        obtain ⟨lines, ordered, starts⟩ := uncut_spec range (max cursor (c.end + 1))
        refine ⟨fun line => ?_, ordered, starts⟩
        rw [lines]
        omega
      · exact ih rest_apart _
    obtain ⟨tail, same, lines, ordered, starts⟩ := tail_spec
    rw [same]
    split
    · next gap =>
      refine ⟨fun line => ?_, ⟨?_, ?_⟩, ?_⟩
      · simp only [lines_append, lines_cons, lines_nil, or_false, lines]
        have behind := later line
        simp only [Inside]
        by_cases cut : Lines cuts line
        · have past := behind cut
          simp only [cut, not_true_eq_false, and_false, or_false, or_true, iff_false]
          omega
        · simp only [cut, not_false_eq_true, and_true, or_false]
          omega
      · rw [List.singleton_append, List.pairwise_cons]
        refine ⟨fun r listed => ?_, ordered.1⟩
        have start := starts r listed
        simp only
        omega
      · intro r listed
        rcases List.mem_cons.mp listed with rfl | later_
        · simp only
          omega
        · exact ordered.2 r later_
      · intro r listed
        rcases List.mem_cons.mp listed with rfl | later_
        · exact le_refl _
        · exact (le_max_left _ _).trans (starts r later_)
    · next at_cut =>
      rw [List.nil_append]
      refine ⟨fun line => ?_, ordered, fun r listed => (le_max_left _ _).trans (starts r listed)⟩
      rw [lines, lines_cons, not_or, ← and_assoc]
      refine and_congr_left fun uncut_ => ?_
      simp only [Inside]
      omega

theorem subtractRange_spec (range : ExploreLineRange) {cut : List ExploreLineRange}
    (apart : Apart cut) :
    (∀ line, Lines (subtractRange range cut) line ↔ Inside range line ∧ ¬Lines cut line) ∧
      Ordered (subtractRange range cut) := by
  obtain ⟨lines, ordered, -⟩ :=
    subtractFrom_spec range (mergeRanges_apart cut) range.start
  refine ⟨fun line => ?_, ordered⟩
  rw [subtractRange, lines, apart.lines_merge]
  rfl

/-- The parts of a span: what they share, what they make up together, and their order. -/
structure Splits (range : ExploreLineRange) (minCovered : Int) (split : RangeDedup) : Prop where
  disjoint : ∀ line, ¬(Lines split.emit line ∧ Lines split.covered line)
  whole : ∀ line, Inside range line ↔ Lines split.emit line ∨ Lines split.covered line
  emit_ordered : Ordered split.emit
  covered_ordered : Ordered split.covered
  long : ∀ r ∈ split.covered, minCovered ≤ r.end - r.start + 1

private theorem splits_whole {range : ExploreLineRange} (filled : range.start ≤ range.end)
    (minCovered : Int) : Splits range minCovered ⟨[range], []⟩ where
  disjoint _ both := lines_nil _ both.2
  whole line := by simp
  emit_ordered := ⟨List.pairwise_singleton _ _, by simpa using filled⟩
  covered_ordered := ⟨List.Pairwise.nil, by simp⟩
  long _ none_ := nomatch none_

theorem lines_intersectRange {range : ExploreLineRange} {served : List ExploreLineRange}
    {line : Int} (covered : Lines (intersectRange range served) line) :
    Inside range line ∧ Lines served line := by
  obtain ⟨part, listed, -, inside⟩ := (lines_mergeRanges _ line).mp covered
  obtain ⟨s, given, shared⟩ := List.mem_filterMap.mp listed
  simp only [overlap, Option.ite_none_right_eq_some, Option.some.injEq] at shared
  obtain ⟨-, rfl⟩ := shared
  simp only [Inside] at inside ⊢
  exact ⟨by omega, s, given, by simp only [Inside]; omega⟩

theorem lines_covered {range : ExploreLineRange} {served : List ExploreLineRange}
    {minCovered line : Int} (covered : Lines (dedupeRange range served minCovered).covered line) :
    Inside range line ∧ Lines served line := by
  simp only [dedupeRange] at covered
  split at covered
  · exact absurd covered (lines_nil line)
  split at covered
  · exact absurd covered (lines_nil line)
  · obtain ⟨r, listed, inside⟩ := covered
    exact lines_intersectRange ⟨r, (List.mem_filter.mp listed).1, inside⟩

theorem dedupeRange_splits {range : ExploreLineRange} (filled : range.start ≤ range.end)
    (served : List ExploreLineRange) (minCovered : Int) :
    Splits range minCovered (dedupeRange range served minCovered) := by
  have inside := fun line => @lines_covered range served minCovered line
  simp only [dedupeRange] at inside ⊢
  split
  · exact splits_whole filled minCovered
  next some_ =>
  rw [if_neg some_] at inside
  split
  · exact splits_whole filled minCovered
  next covered =>
  rw [if_neg covered] at inside
  have apart := (mergeRanges_apart (served.filterMap (overlap range))).filter
    fun r => r.end - r.start + 1 ≥ minCovered
  obtain ⟨lines, ordered⟩ := subtractRange_spec range apart
  refine ⟨fun line both => ?_, fun line => ?_, ordered, apart.ordered, fun r listed => ?_⟩
  · exact ((lines line).mp both.1).2 both.2
  · constructor
    · intro within
      by_cases cut : Lines ((intersectRange range served).filter
          fun r => r.end - r.start + 1 ≥ minCovered) line
      · exact .inr cut
      · exact .inl ((lines line).mpr ⟨within, cut⟩)
    · rintro (emitted | cut)
      · exact ((lines line).mp emitted).1
      · exact (inside line cut).1
  · exact of_decide_eq_true (List.mem_filter.mp listed).2

example : dedupeRange ⟨1, 30⟩ [⟨15, 20⟩, ⟨5, 14⟩, ⟨25, 27⟩] MIN_COVERED_LINES =
    ⟨[⟨1, 4⟩, ⟨21, 30⟩], [⟨5, 20⟩]⟩ := by decide

end CodeGraph.Mcp.Explore
