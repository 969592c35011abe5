import CodeGraph.Resolution.RustUse

/-!
# The pieces of a path

The text of a path is cut at its `::`, and the white space stays with the pieces.
-/
namespace CodeGraph.Resolution.RustUse

open RustText

theorem splitColons_plain {w : List Char} (plain : ∀ c ∈ w, c ≠ ':') : splitColons w = [w] := by
  induction w with
  | nil => simp [splitColons]
  | cons c rest ih =>
    have here : c ≠ ':' := plain c (by simp)
    have later := ih fun d mem => plain d (by simp [mem])
    rw [splitColons, later]
    · simp
    · intro _ colon
      exact absurd colon here

theorem splitColons_append {w : List Char} (plain : ∀ c ∈ w, c ≠ ':') (rest : List Char) :
    splitColons (w ++ ':' :: ':' :: rest) = w :: splitColons rest := by
  induction w with
  | nil => simp [splitColons]
  | cons c w ih =>
    have here : c ≠ ':' := plain c (by simp)
    have later := ih fun d mem => plain d (by simp [mem])
    rw [List.cons_append, splitColons, later]
    · simp
    · intro _ colon
      exact absurd colon here

/-! ### Words -/

theorem Gap.no_colon (gap : Gap) : ∀ c ∈ gap.text, c ≠ ':' := by
  rintro c mem rfl
  have blank := gap.blank ':' mem
  exact absurd blank (by decide)

namespace Segment

theorem no_colon (s : Segment) : ∀ c ∈ s.text, c ≠ ':' := by
  cases s with
  | ident name => exact name.chars
  | super_ => exact by decide

theorem ne_nil (s : Segment) : s.text ≠ [] := by
  cases s with
  | ident name => exact name.ne_nil
  | super_ => exact by decide

theorem ne_self (s : Segment) : s.text ≠ selfName := by
  cases s with
  | ident name => exact name.other
  | super_ => exact by decide

/-- White space before a segment does not make it `self`. -/
theorem spaced_ne_self (gap : Gap) (s : Segment) : gap.text ++ s.text ≠ selfName := by
  intro same
  cases spaced : gap.text with
  | nil =>
    rw [spaced, List.nil_append] at same
    exact s.ne_self same
  | cons c rest =>
    have blank : isWhitespace c = true := gap.blank c (by simp [spaced])
    have first : c = 's' := by
      rw [spaced] at same
      have heads := congrArg List.head? same
      simpa [selfName] using heads
    rw [first] at blank
    exact absurd blank (by decide)

end Segment

namespace Start

/-- The first piece, and the white space in it that comes from a leading `::`. -/
def lead : Start → List Char
  | .global gap _ => gap.text
  | _ => []

theorem name_no_colon (start : Start) : ∀ c ∈ start.name, c ≠ ':' := by
  cases start with
  | segment s => exact s.no_colon
  | self_ => exact by decide
  | crate_ => exact by decide
  | global gap s => exact s.no_colon

theorem name_ne_nil (start : Start) : start.name ≠ [] := by
  cases start with
  | segment s => exact s.ne_nil
  | self_ => exact by decide
  | crate_ => exact by decide
  | global gap s => exact s.ne_nil

theorem word_no_colon (start : Start) : ∀ c ∈ start.lead ++ start.name, c ≠ ':' := by
  intro c mem
  rcases List.mem_append.mp mem with spaced | named
  · cases start with
    | global gap s => exact gap.no_colon c spaced
    | _ => simp [lead] at spaced
  · exact start.name_no_colon c named

theorem word_eq_self (start : Start) : start.lead ++ start.name = selfName ↔ start = .self_ := by
  cases start with
  | segment s => simpa [lead, name] using s.ne_self
  | self_ => simp [lead, name]
  | crate_ => simpa [lead, name] using (by decide : crateName ≠ selfName)
  | global gap s => simpa [lead, name] using s.spaced_ne_self gap

end Start

def pieces (word : List Char) : List Step → List (List Char)
  | [] => [word]
  | s :: steps => (word ++ s.before.text) :: pieces (s.after.text ++ s.segment.text) steps

@[simp] theorem length_pieces (word : List Char) (steps : List Step) :
    (pieces word steps).length = steps.length + 1 := by
  induction steps generalizing word with
  | nil => simp [pieces]
  | cons s steps ih => simp [pieces, ih]

theorem step_no_colon (s : Step) : ∀ c ∈ s.after.text ++ s.segment.text, c ≠ ':' := by
  intro c mem
  rcases List.mem_append.mp mem with spaced | named
  · exact s.after.no_colon c spaced
  · exact s.segment.no_colon c named

theorem splitColons_pieces {word : List Char} (plain : ∀ c ∈ word, c ≠ ':') (steps : List Step) :
    splitColons (word ++ steps.flatMap fun s =>
      s.before.text ++ (':' :: ':' :: (s.after.text ++ s.segment.text))) = pieces word steps := by
  induction steps generalizing word with
  | nil => simp [pieces, splitColons_plain plain]
  | cons s steps ih =>
    have spaced : ∀ c ∈ word ++ s.before.text, c ≠ ':' := by
      intro c mem
      rcases List.mem_append.mp mem with mem | mem
      · exact plain c mem
      · exact s.before.no_colon c mem
    have cut := splitColons_append spaced (s.after.text ++ s.segment.text ++ steps.flatMap fun s =>
      s.before.text ++ (':' :: ':' :: (s.after.text ++ s.segment.text)))
    rw [ih (step_no_colon s)] at cut
    simpa [pieces] using cut

theorem pieces_ne_nil {word : List Char} (ne : word ≠ []) (steps : List Step) :
    ∀ piece ∈ pieces word steps, piece ≠ [] := by
  induction steps generalizing word with
  | nil => simpa [pieces] using ne
  | cons s steps ih =>
    intro piece mem
    rcases List.mem_cons.mp mem with rfl | mem
    · simp [ne]
    · have next : s.after.text ++ s.segment.text ≠ [] := by simp [s.segment.ne_nil]
      exact ih next piece mem

theorem pieces_eq_segments (space name : List Char) (steps : List Step) :
    pieces (space ++ name) steps = name :: steps.map (fun s => s.segment.text) ↔
      space = [] ∧ ∀ s ∈ steps, s.before.text = [] ∧ s.after.text = [] := by
  induction steps generalizing space name with
  | nil => simp [pieces]
  | cons s steps ih =>
    have first : space ++ name ++ s.before.text = name ↔ space = [] ∧ s.before.text = [] := by
      constructor
      · intro same
        have lengths := congrArg List.length same
        simp only [List.length_append] at lengths
        exact ⟨List.length_eq_zero_iff.mp (by omega), List.length_eq_zero_iff.mp (by omega)⟩
      · rintro ⟨rfl, tight⟩
        simp [tight]
    simp only [pieces, List.map_cons, List.cons.injEq, List.mem_cons, forall_eq_or_imp, first, ih]
    tauto

/-- The last piece is `self` when it is the only one. -/
theorem pieces_last_self (word : List Char) (steps : List Step) :
    (pieces word steps).getLast? = some selfName ↔ steps = [] ∧ word = selfName := by
  induction steps generalizing word with
  | nil => simp [pieces]
  | cons s steps ih =>
    have later := ih (s.after.text ++ s.segment.text)
    have other := s.segment.spaced_ne_self s.after
    have some_piece : pieces (s.after.text ++ s.segment.text) steps ≠ [] := by
      intro none
      have count := congrArg List.length none
      simp at count
    rw [pieces, List.getLast?_cons_of_ne_nil some_piece, later]
    simp [other]

namespace Path

def pieces (p : Path) : List (List Char) :=
  RustUse.pieces (p.start.lead ++ p.start.name) p.steps

theorem pieces_length (p : Path) : p.pieces.length = p.segments.length := by
  simp [pieces, segments]

theorem pieces_eq_segments (p : Path) : p.pieces = p.segments ↔ p.Tight := by
  have exact := RustUse.pieces_eq_segments p.start.lead p.start.name p.steps
  have lead : p.start.lead = [] ↔ ∀ gap s, p.start = .global gap s → gap.text = [] := by
    cases p.start <;> simp [Start.lead]
  rw [lead] at exact
  exact exact

theorem pieces_last_self (p : Path) : p.pieces.getLast? = some selfName ↔ p.IsSelf := by
  rw [pieces, RustUse.pieces_last_self, Start.word_eq_self, IsSelf, and_comm]

theorem pieces_self {p : Path} (self : p.IsSelf) : p.pieces = [selfName] := by
  obtain ⟨start, steps⟩ := self
  simp [pieces, start, steps, RustUse.pieces, Start.lead, Start.name]

theorem tight_of_self {p : Path} (self : p.IsSelf) : p.Tight := by
  obtain ⟨start, steps⟩ := self
  constructor
  · simp [start]
  · simp [steps]

theorem join_text (pre : List (List Char)) (p : Path) : join pre p.text = pre ++ p.pieces := by
  have word := Start.word_no_colon p.start
  have whole : (splitColons p.text).filter (· ≠ []) = p.pieces.filter (· ≠ []) := by
    obtain ⟨start, steps, parts⟩ := p
    have cut := splitColons_pieces word steps
    cases start with
    | global gap s =>
      have lead := splitColons_append (w := []) (by simp) (gap.text ++ s.text ++ steps.flatMap fun s =>
        s.before.text ++ (':' :: ':' :: (s.after.text ++ s.segment.text)))
      simp only [Start.lead, Start.name] at cut
      rw [cut] at lead
      have text : text ⟨.global gap s, steps, parts⟩ = [] ++ ':' :: ':' :: (gap.text ++ s.text ++
          steps.flatMap fun s => s.before.text ++ (':' :: ':' :: (s.after.text ++ s.segment.text))) := by
        simp [Path.text, Start.text]
      rw [text, lead]
      simp [pieces, Start.lead, Start.name]
    | segment s => exact congrArg _ cut
    | self_ => exact congrArg _ cut
    | crate_ => exact congrArg _ cut
  have ne : p.start.lead ++ p.start.name ≠ [] := by simp [p.start.name_ne_nil]
  have kept : p.pieces.filter (· ≠ []) = p.pieces :=
    List.filter_eq_self.mpr fun piece mem => by simpa using pieces_ne_nil ne p.steps piece mem
  rw [join, whole, kept]

end Path

end CodeGraph.Resolution.RustUse
