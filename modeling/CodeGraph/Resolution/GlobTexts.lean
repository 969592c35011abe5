import CodeGraph.Resolution.WorkspacePackages

/-!
# The texts of workspace globs

A folder segment of a glob is made the source of a regular expression by four replacements in its text
(`resolution/workspace-packages.ts`). The expression takes the names that the text stands for.
-/
namespace CodeGraph.Resolution.WorkspaceGlobs

open Text

/-! ### What texts stand for -/

def LBRACE : UInt16 := codeUnit '\x7b'

def RBRACE : UInt16 := codeUnit '\x7d'

inductive Term where
  | unit (u : UInt16)
  /-- `?` -/
  | one
  /-- `*` -/
  | many
  deriving DecidableEq

def Term.Means : Term → JsString → Prop
  | .unit u, s => s = [u]
  | .one, s => ∃ u, u ≠ codeUnit '/' ∧ s = [u]
  | .many, s => codeUnit '/' ∉ s

section Spells

variable {α β : Type}

def Spells (means : α → JsString → Prop) : List α → JsString → Prop
  | [], s => s = []
  | a :: as, s => ∃ t rest, s = t ++ rest ∧ means a t ∧ Spells means as rest

variable {means : α → JsString → Prop} {as bs : List α} {s : JsString}

theorem spells_append :
    Spells means (as ++ bs) s ↔ ∃ t rest, s = t ++ rest ∧ Spells means as t ∧ Spells means bs rest := by
  induction as generalizing s with
  | nil => exact ⟨fun h => ⟨[], s, rfl, rfl, h⟩, fun ⟨t, rest, same, none_, h⟩ => by
      rw [same, show t = [] from none_]
      exact h⟩
  | cons a as ih =>
    constructor
    · rintro ⟨t, rest, rfl, first, later⟩
      obtain ⟨u, last, rfl, h, h'⟩ := ih.mp later
      exact ⟨t ++ u, last, (List.append_assoc ..).symm, ⟨t, u, rfl, first, h⟩, h'⟩
    · rintro ⟨_, last, rfl, ⟨t, u, rfl, first, h⟩, h'⟩
      exact ⟨t, u ++ last, List.append_assoc .., first, ih.mpr ⟨u, last, rfl, h, h'⟩⟩

theorem spells_map {f : β → α} {bs : List β} : Spells means (bs.map f) s ↔ Spells (means ∘ f) bs s := by
  induction bs generalizing s with
  | nil => rfl
  | cons b bs ih => exact exists_congr fun t => exists_congr fun rest => and_congr_right fun _ =>
      and_congr_right fun _ => ih

def endsOf (ends : α → JsString → List JsString) : List α → JsString → List JsString
  | [], s => [s]
  | a :: as, s => (ends a s).flatMap (endsOf ends as)

theorem mem_endsOf {ends : α → JsString → List JsString}
    (one : ∀ a s rest, rest ∈ ends a s ↔ ∃ t, s = t ++ rest ∧ means a t) (as : List α) (s rest : JsString) :
    rest ∈ endsOf ends as s ↔ ∃ t, s = t ++ rest ∧ Spells means as t := by
  induction as generalizing s with
  | nil =>
    rw [endsOf, List.mem_singleton]
    exact ⟨fun same => ⟨[], same.symm, rfl⟩, fun ⟨t, same, none_⟩ =>
      by rw [same, show t = [] from none_]; rfl⟩
  | cons a as ih =>
    rw [endsOf, List.mem_flatMap]
    constructor
    · rintro ⟨u, first, later⟩
      obtain ⟨t, rfl, h⟩ := (one a s u).mp first
      obtain ⟨t', rfl, h'⟩ := (ih u).mp later
      exact ⟨t ++ t', (List.append_assoc ..).symm, t, t', rfl, h, h'⟩
    · rintro ⟨_, rfl, t, t', rfl, h, h'⟩
      exact ⟨t' ++ rest, (one a _ _).mpr ⟨t, List.append_assoc .., h⟩, (ih _).mpr ⟨t', rfl, h'⟩⟩

end Spells

/-- The text of a segment with wildcards: braces do not nest. -/
inductive Glob where
  | plain (ts : List Term)
  /-- Terms, a choice in braces, and what follows. -/
  | choice (ts first : List Term) (others : List (List Term)) (rest : Glob)

def Term.text : Term → UInt16
  | .unit u => u
  | .one => codeUnit '?'
  | .many => codeUnit '*'

def Glob.text : Glob → JsString
  | .plain ts => ts.map Term.text
  | .choice ts first others rest =>
    ts.map Term.text ++ LBRACE :: (first.map Term.text ++
      (others.flatMap fun ts => codeUnit ',' :: ts.map Term.text) ++ RBRACE :: rest.text)

def Glob.Means : Glob → JsString → Prop
  | .plain ts, s => Spells Term.Means ts s
  | .choice ts first others rest, s => ∃ a b c, s = a ++ (b ++ c) ∧ Spells Term.Means ts a ∧
      (∃ alternative ∈ first :: others, Spells Term.Means alternative b) ∧ rest.Means c

/-! ### Regular expressions -/

inductive Part where
  | term (t : Term)
  | choice (alternatives : List (List Term))

def Part.Means : Part → JsString → Prop
  | .term t, s => t.Means s
  | .choice alternatives, s => ∃ alternative ∈ alternatives, Spells Term.Means alternative s

/-- The ends of `[^/]*`. -/
def manyEnds : JsString → List JsString
  | [] => [[]]
  | u :: s => (u :: s) :: if u = codeUnit '/' then [] else manyEnds s

def Term.ends : Term → JsString → List JsString
  | .unit u, s => if s.head? = some u then [s.tail] else []
  | .one, s => if s.head?.any (· ≠ codeUnit '/') then [s.tail] else []
  | .many, s => manyEnds s

def Part.ends : Part → JsString → List JsString
  | .term t, s => t.ends s
  | .choice alternatives, s => alternatives.flatMap fun alternative => endsOf Term.ends alternative s

def SYNTAX : JsString := utf16 ".+^$()|[]\\"

inductive Token where
  | term (t : Term)
  | opens | bar | closes

/-- The first token of a source, and what follows it; the other forms are not written here. -/
def nextToken (u : UInt16) (s : JsString) : Option (Token × JsString) :=
  if u = codeUnit '\\' then s.head?.map fun v => (.term (.unit v), s.tail)
  else if (utf16 "[^/]*").isPrefixOf (u :: s) then some (.term .many, s.drop 4)
  else if (utf16 "[^/]").isPrefixOf (u :: s) then some (.term .one, s.drop 3)
  else if (utf16 "(?:").isPrefixOf (u :: s) then some (.opens, s.drop 2)
  else if u = codeUnit '|' then some (.bar, s)
  else if u = codeUnit ')' then some (.closes, s)
  else if u ∈ SYNTAX ∨ u = codeUnit '*' ∨ u = codeUnit '?' then none
  else some (.term (.unit u), s)

def tokens : Nat → JsString → Option (List Token)
  | _, [] => some []
  | 0, _ :: _ => none
  | n + 1, u :: s => (nextToken u s).bind fun (t, rest) => (tokens n rest).map (t :: ·)

/-- The parts read, and of a group that is open the alternatives, the last one apart. -/
structure Reading where
  parts : List Part := []
  group : Option (List (List Term) × List Term) := none

def Reading.step (r : Reading) : Token → Option Reading
  | .term t =>
    match r.group with
    | none => some { r with parts := r.parts ++ [.term t] }
    | some (done, last) => some { r with group := some (done, last ++ [t]) }
  | .opens =>
    match r.group with
    | none => some { r with group := some ([], []) }
    | some _ => none
  | .bar => r.group.map fun (done, last) => { r with group := some (done ++ [last], []) }
  | .closes => r.group.map fun (done, last) => ⟨r.parts ++ [.choice (done ++ [last])], none⟩

def readRegExp (source : JsString) : Option (List Part) :=
  (tokens source.length source).bind fun ts =>
    (ts.foldlM Reading.step {}).bind fun r => if r.group.isNone then some r.parts else none

/-- `re.test(name)` of `^source$` -/
def test (source name : JsString) : Bool :=
  (readRegExp source).any fun parts => [] ∈ endsOf Part.ends parts name

/-- `.replace(/[.+^$()|[\]\\]/g, '\\$&')` -/
def escapeSyntax (s : JsString) : JsString :=
  s.flatMap fun u => if u ∈ SYNTAX then [codeUnit '\\', u] else [u]

/-- `.replace(/\*+/g, '[^/]*')`, at the last star of a run. -/
def starRuns : JsString → JsString
  | [] => []
  | u :: s =>
    if u = codeUnit '*' then (if s.head? = some (codeUnit '*') then [] else utf16 "[^/]*") ++ starRuns s
    else u :: starRuns s

/-- `.replace(/\?/g, '[^/]')` -/
def questionMarks (s : JsString) : JsString :=
  s.flatMap fun u => if u = codeUnit '?' then utf16 "[^/]" else [u]

/-- The replacement of a brace and what is behind it up to the next one, the commas being bars. -/
def groupOf (alts : JsString) : JsString :=
  utf16 "(?:" ++ (alts.map fun u => if u = codeUnit ',' then codeUnit '|' else u) ++ utf16 ")"

/-- `.replace(/\{([^{}]*)\}/g, …)`, with what is read behind the last brace that opens. -/
def braceGroups : Option JsString → JsString → JsString
  | none, [] => []
  | some alts, [] => LBRACE :: alts
  | none, u :: s => if u = LBRACE then braceGroups (some []) s else u :: braceGroups none s
  | some alts, u :: s =>
    if u = RBRACE then groupOf alts ++ braceGroups none s
    else if u = LBRACE then LBRACE :: (alts ++ braceGroups (some []) s)
    else braceGroups (some (alts ++ [u])) s

def regexpSource (text : JsString) : JsString :=
  braceGroups none (questionMarks (starRuns (escapeSyntax text)))

/-! ### The replacements -/

def Term.Proper (special : JsString) (t : Term) : Prop := ∀ u, t = .unit u → u ∉ special

def OUTSIDE : JsString := [codeUnit '*', codeUnit '?', LBRACE]

def INSIDE : JsString := [codeUnit '*', codeUnit '?', LBRACE, RBRACE, codeUnit ',']

def Glob.Proper : Glob → Prop
  | .plain ts => ∀ t ∈ ts, t.Proper OUTSIDE
  | .choice ts first others rest => (∀ t ∈ ts, t.Proper OUTSIDE) ∧
      (∀ alternative ∈ first :: others, ∀ t ∈ alternative, t.Proper INSIDE) ∧ rest.Proper

def squeeze : List Term → List Term
  | [] => []
  | t :: ts => if t = .many ∧ ts.head? = some .many then squeeze ts else t :: squeeze ts

def Term.source : Term → JsString
  | .unit u => if u ∈ SYNTAX then [codeUnit '\\', u] else [u]
  | .one => utf16 "[^/]"
  | .many => utf16 "[^/]*"

def Token.source : Token → JsString
  | .term t => t.source
  | .opens => utf16 "(?:"
  | .bar => [codeUnit '|']
  | .closes => [codeUnit ')']

def termTokens (ts : List Term) : List Token := (squeeze ts).map .term

def Glob.tokens : Glob → List Token
  | .plain ts => termTokens ts
  | .choice ts first others rest => termTokens ts ++ .opens ::
      (termTokens first ++ (others.flatMap fun ts => .bar :: termTokens ts) ++ .closes :: rest.tokens)

def sourceOf (ts : List Token) : JsString := ts.flatMap Token.source

def stages (s : JsString) : JsString := questionMarks (starRuns (escapeSyntax s))

variable {u : UInt16} {s r : JsString} {t : Term} {ts : List Term} {special : JsString}

theorem escapeSyntax_head :
    (escapeSyntax s).head? = some (codeUnit '*') ↔ s.head? = some (codeUnit '*') := by
  cases s with
  | nil => rfl
  | cons u s =>
    rw [escapeSyntax, List.flatMap_cons]
    split
    · next syntax_ =>
      refine iff_of_false (by rw [List.cons_append, List.head?_cons]; decide) fun same => ?_
      rw [List.head?_cons, Option.some.injEq] at same
      exact absurd (same ▸ syntax_) (by decide)
    · rfl

theorem stages_cons (u : UInt16) (s : JsString) : stages (u :: s) =
    if u = codeUnit '*' then (if s.head? = some (codeUnit '*') then [] else utf16 "[^/]*") ++ stages s
    else if u = codeUnit '?' then utf16 "[^/]" ++ stages s
    else if u ∈ SYNTAX then codeUnit '\\' :: u :: stages s
    else u :: stages s := by
  have escaped :
      escapeSyntax (u :: s) = (if u ∈ SYNTAX then [codeUnit '\\', u] else [u]) ++ escapeSyntax s :=
    List.flatMap_cons
  by_cases star : u = codeUnit '*'
  · subst star
    rw [if_pos rfl, stages, escaped, if_neg (by decide), List.singleton_append, starRuns, if_pos rfl,
      questionMarks, List.flatMap_append]
    congr 1
    simp only [escapeSyntax_head]
    split
    · rfl
    · decide
  · rw [if_neg star, stages, escaped]
    by_cases mark : u = codeUnit '?'
    · subst mark
      rfl
    · rw [if_neg mark]
      split
      · have slash : ¬codeUnit '\\' = codeUnit '*' := by decide
        have slash' : ¬codeUnit '\\' = codeUnit '?' := by decide
        simp [starRuns, questionMarks, star, mark, slash, slash', stages]
      · simp [starRuns, questionMarks, star, mark, stages]

theorem Term.text_star (proper : t.Proper OUTSIDE) : t.text = codeUnit '*' ↔ t = .many := by
  cases t with
  | unit u =>
    refine iff_of_false (fun same => proper u rfl ?_) nofun
    rw [show u = codeUnit '*' from same]
    decide
  | one => exact iff_of_false (by decide) nofun
  | many => exact iff_of_true rfl rfl

theorem sourceOf_append (ts us : List Token) : sourceOf (ts ++ us) = sourceOf ts ++ sourceOf us :=
  List.flatMap_append

theorem termTokens_cons (t : Term) (ts : List Term) : termTokens (t :: ts) =
    (if t = .many ∧ ts.head? = some .many then [] else [.term t]) ++ termTokens ts := by
  rw [termTokens, squeeze]
  split <;> rfl

theorem stages_terms (proper : ∀ t ∈ ts, t.Proper OUTSIDE) (next : r.head? ≠ some (codeUnit '*')) :
    stages (ts.map Term.text ++ r) = sourceOf (termTokens ts) ++ stages r := by
  induction ts with
  | nil => rfl
  | cons t ts ih =>
    obtain ⟨first, later⟩ := List.forall_mem_cons.mp proper
    have rest := ih later
    rw [List.map_cons, List.cons_append, stages_cons, rest, termTokens_cons, sourceOf_append,
      List.append_assoc]
    cases t with
    | unit u =>
      have other : ∀ v ∈ OUTSIDE, ¬u = v := fun v listed same => first u rfl (same ▸ listed)
      rw [show (Term.unit u).text = u from rfl, if_neg (other (codeUnit '*') (by decide)),
        if_neg (other (codeUnit '?') (by decide))]
      simp only [reduceCtorEq, false_and, if_false, sourceOf, List.flatMap_singleton, Token.source,
        Term.source]
      split <;> rfl
    | one =>
      simp only [reduceCtorEq, false_and, if_false]
      rfl
    | many =>
      have run : (ts.map Term.text ++ r).head? = some (codeUnit '*') ↔ ts.head? = some .many := by
        cases ts with
        | nil => exact iff_of_false next nofun
        | cons t' ts =>
          rw [List.map_cons, List.cons_append, List.head?_cons, List.head?_cons, Option.some.injEq,
            Option.some.injEq]
          exact Term.text_star (later t' List.mem_cons_self)
      rw [show Term.many.text = codeUnit '*' from rfl, if_pos rfl]
      simp only [run, true_and]
      split
      · rfl
      · rfl

theorem stages_other (plain : u ∉ codeUnit '*' :: codeUnit '?' :: SYNTAX) :
    stages (u :: s) = u :: stages s := by
  rw [List.mem_cons, List.mem_cons, not_or, not_or] at plain
  rw [stages_cons, if_neg plain.1, if_neg plain.2.1, if_neg plain.2.2]

theorem Term.Proper.outside (proper : t.Proper INSIDE) : t.Proper OUTSIDE := fun u is listed =>
  proper u is (List.mem_append_left [RBRACE, codeUnit ','] listed)

def alternativesText (first : List Term) (others : List (List Term)) : JsString :=
  sourceOf (termTokens first) ++ others.flatMap fun ts => codeUnit ',' :: sourceOf (termTokens ts)

variable {first : List Term} {others : List (List Term)}

theorem stages_alternatives (proper : ∀ ts ∈ first :: others, ∀ t ∈ ts, t.Proper INSIDE) :
    stages (first.map Term.text ++ (others.flatMap fun ts => codeUnit ',' :: ts.map Term.text) ++
      RBRACE :: r) =
      alternativesText first others ++ RBRACE :: stages r := by
  induction others generalizing first with
  | nil =>
    rw [List.flatMap_nil, List.append_nil,
      stages_terms (fun t listed => (proper first List.mem_cons_self t listed).outside)
      (by rw [List.head?_cons]; decide), stages_other (by decide), alternativesText,
        List.flatMap_nil, List.append_nil]
  | cons ts others ih =>
    have rest := ih (List.forall_mem_cons.mp proper).2
    rw [List.flatMap_cons, List.append_assoc, List.cons_append, List.cons_append,
      stages_terms (fun t listed => (proper first List.mem_cons_self t listed).outside)
      (by rw [List.head?_cons]; decide), stages_other (by decide), rest]
    simp only [alternativesText, List.flatMap_cons, List.append_assoc, List.cons_append]

theorem not_mem_source (proper : ∀ t ∈ ts, t.Proper special) (listed : u ∈ special)
    (apart : u ∉ utf16 "\\[^/]*") : u ∉ sourceOf (termTokens ts) := by
  induction ts with
  | nil => exact List.not_mem_nil
  | cons t ts ih =>
    obtain ⟨first, later⟩ := List.forall_mem_cons.mp proper
    rw [termTokens_cons, sourceOf_append, List.mem_append, not_or]
    refine ⟨?_, ih later⟩
    split
    · exact List.not_mem_nil
    · rw [sourceOf, List.flatMap_singleton]
      cases t with
      | unit v =>
        have other : ¬u = v := fun same => first v rfl (same ▸ listed)
        have slash : ¬u = codeUnit '\\' := fun same => apart (same ▸ List.mem_cons_self)
        simp only [Token.source, Term.source]
        split
        · simp [other, slash]
        · simp [other]
      | one => exact fun listed =>
          apart (List.mem_append_left [codeUnit '*'] (List.mem_cons_of_mem _ listed))
      | many => exact fun listed => apart (List.mem_cons_of_mem _ listed)

theorem braceGroups_plain {w : JsString} (none_ : LBRACE ∉ w) :
    braceGroups none (w ++ s) = w ++ braceGroups none s := by
  induction w with
  | nil => rfl
  | cons u w ih =>
    rw [List.mem_cons, not_or] at none_
    rw [List.cons_append, braceGroups, if_neg (Ne.symm none_.1), ih none_.2, List.cons_append]

theorem braceGroups_group {w alts : JsString} (opens : LBRACE ∉ w) (closes : RBRACE ∉ w) :
    braceGroups (some alts) (w ++ RBRACE :: s) = groupOf (alts ++ w) ++ braceGroups none s := by
  induction w generalizing alts with
  | nil => rw [List.nil_append, List.append_nil, braceGroups, if_pos rfl]
  | cons u w ih =>
    rw [List.mem_cons, not_or] at opens closes
    rw [List.cons_append, braceGroups, if_neg (Ne.symm closes.1), if_neg (Ne.symm opens.1),
      ih opens.2 closes.2,
      List.append_assoc, List.singleton_append]

theorem not_mem_alternativesText (proper : ∀ ts ∈ first :: others, ∀ t ∈ ts, t.Proper INSIDE)
    (listed : u ∈ INSIDE)
    (apart : u ∉ codeUnit ',' :: utf16 "\\[^/]*") : u ∉ alternativesText first others := by
  obtain ⟨front, later⟩ := List.forall_mem_cons.mp proper
  rw [List.mem_cons, not_or] at apart
  rw [alternativesText, List.mem_append, List.mem_flatMap, not_or]
  refine ⟨not_mem_source front listed apart.2, ?_⟩
  rintro ⟨ts, among, inside⟩
  rcases List.mem_cons.mp inside with comma | inside
  · exact apart.1 comma
  · exact not_mem_source (later ts among) listed apart.2 inside

theorem groupOf_alternatives (proper : ∀ ts ∈ first :: others, ∀ t ∈ ts, t.Proper INSIDE) :
    groupOf (alternativesText first others) =
      sourceOf (.opens :: (termTokens first ++ (others.flatMap fun ts => .bar :: termTokens ts) ++
        [.closes])) := by
  have bars {ts : List Term} (fine : ∀ t ∈ ts, t.Proper INSIDE) : (sourceOf (termTokens ts)).map
      (fun u => if u = codeUnit ',' then codeUnit '|' else u) = sourceOf (termTokens ts) := by
    refine (List.map_congr_left fun u listed => if_neg fun same => ?_).trans (List.map_id _)
    exact not_mem_source fine (by decide) (by decide) (same ▸ listed)
  obtain ⟨front, later⟩ := List.forall_mem_cons.mp proper
  rw [groupOf, alternativesText, List.map_append, bars front, List.map_flatMap]
  simp only [sourceOf, List.flatMap_cons, List.flatMap_append, List.flatMap_assoc, List.append_assoc]
  congr 2
  · congr 1
    refine List.flatMap_congr fun ts among => ?_
    exact congrArg (codeUnit '|' :: ·) (bars (later ts among))

theorem regexpSource_text {g : Glob} (proper : g.Proper) : regexpSource g.text = sourceOf g.tokens := by
  induction g with
  | plain ts =>
    have all : stages (ts.map Term.text ++ []) = _ := stages_terms proper nofun
    rw [List.append_nil] at all
    have source := braceGroups_plain (s := []) (not_mem_source proper (u := LBRACE) (by decide) (by decide))
    exact (congrArg (braceGroups none) all).trans (source.trans (List.append_nil _))
  | choice ts first others rest ih =>
    obtain ⟨before, inside, later⟩ := proper
    have none_ (u : UInt16) (listed : u ∈ INSIDE) (apart : u ∉ codeUnit ',' :: utf16 "\\[^/]*") :=
      not_mem_alternativesText inside listed apart
    have staged (s : JsString) : questionMarks (starRuns (escapeSyntax s)) = stages s := rfl
    rw [regexpSource, staged, Glob.text, stages_terms before (by rw [List.head?_cons]; decide),
      stages_other (by decide), stages_alternatives inside,
      braceGroups_plain (not_mem_source before (by decide) (by decide)), braceGroups, if_pos rfl,
      braceGroups_group (none_ LBRACE (by decide) (by decide)) (none_ RBRACE (by decide) (by decide)),
      List.nil_append, groupOf_alternatives inside,
      show braceGroups none (stages rest.text) = _ from ih later,
      ← sourceOf_append, ← sourceOf_append, Glob.tokens, List.cons_append, List.append_assoc,
        List.singleton_append]

/-! ### What is read -/

def Token.Proper (t : Token) : Prop := ∀ u, t = .term (.unit u) → u ≠ codeUnit '*' ∧ u ≠ codeUnit '?'

theorem nextToken_source {t : Token} (proper : t.Proper) : ∃ u w, t.source = u :: w ∧ u ≠ codeUnit '*' ∧
    ∀ r : JsString, r.head? ≠ some (codeUnit '*') → nextToken u (w ++ r) = some (t, r) := by
  cases t with
  | opens => exact ⟨_, _, rfl, by decide, fun r _ => rfl⟩
  | bar => exact ⟨_, _, rfl, by decide, fun r _ => rfl⟩
  | closes => exact ⟨_, _, rfl, by decide, fun r _ => rfl⟩
  | term t =>
    cases t with
    | one =>
      refine ⟨codeUnit '[', utf16 "^/]", rfl, by decide, fun r next => ?_⟩
      cases r with
      | nil => rfl
      | cons v r =>
        have longer : ¬(utf16 "[^/]*").isPrefixOf (codeUnit '[' :: (utf16 "^/]" ++ v :: r)) = true := by
          intro begins
          obtain ⟨rest, same⟩ := List.isPrefixOf_iff_prefix.mp begins
          have fifth : some (codeUnit '*') = some v := congrArg (·[4]?) same
          exact next fifth.symm
        have this_ : (utf16 "[^/]").isPrefixOf (codeUnit '[' :: (utf16 "^/]" ++ v :: r)) = true := rfl
        rw [nextToken, if_neg (by decide), if_neg longer, if_pos this_]
        rfl
    | many => exact ⟨_, _, rfl, by decide, fun r _ => rfl⟩
    | unit v =>
      by_cases syntax_ : v ∈ SYNTAX
      · exact ⟨codeUnit '\\', [v], if_pos syntax_, by decide, fun r _ => rfl⟩
      · refine ⟨v, [], if_neg syntax_, (proper v rfl).1, fun r _ => ?_⟩
        have other {c : UInt16} (listed : c ∈ SYNTAX) : ¬v = c := fun same => syntax_ (same ▸ listed)
        have apart {w : JsString} (begin_ : w.head?.any (· ∈ SYNTAX) = true) :
            ¬w.isPrefixOf (v :: r) = true := by
          intro begins
          obtain ⟨rest, same⟩ := List.isPrefixOf_iff_prefix.mp begins
          cases w with
          | nil => cases begin_
          | cons c w => exact other (of_decide_eq_true begin_) (List.cons.inj same).1.symm
        obtain ⟨star, mark⟩ := proper v rfl
        rw [List.nil_append, nextToken, if_neg (other (by decide)), if_neg (apart (by decide)),
          if_neg (apart (by decide)),
          if_neg (apart (by decide)), if_neg (other (by decide)), if_neg (other (by decide)),
          if_neg (not_or.mpr ⟨syntax_, not_or.mpr ⟨star, mark⟩⟩)]

theorem tokens_sourceOf {ts : List Token} (proper : ∀ t ∈ ts, t.Proper) {n : Nat}
    (enough : (sourceOf ts).length ≤ n) :
    (sourceOf ts).head? ≠ some (codeUnit '*') ∧ tokens n (sourceOf ts) = some ts := by
  induction ts generalizing n with
  | nil =>
    refine ⟨nofun, ?_⟩
    cases n <;> rfl
  | cons t ts ih =>
    obtain ⟨first, later⟩ := List.forall_mem_cons.mp proper
    obtain ⟨u, w, source, other, next⟩ := nextToken_source first
    have whole : sourceOf (t :: ts) = u :: (w ++ sourceOf ts) := by
      rw [sourceOf, List.flatMap_cons, source]
      rfl
    rw [whole] at enough ⊢
    refine ⟨fun star => other (Option.some.inj star), ?_⟩
    cases n with
    | zero => cases enough
    | succ n =>
      rw [List.length_cons, List.length_append] at enough
      obtain ⟨apart, rest⟩ := ih later (n := n) (by omega)
      rw [tokens, next _ apart]
      exact congrArg (Option.map (t :: ·)) rest

theorem termTokens_proper (proper : ∀ t ∈ ts, t.Proper OUTSIDE) : ∀ t ∈ termTokens ts, t.Proper := by
  induction ts with
  | nil => exact nofun
  | cons t ts ih =>
    obtain ⟨first, later⟩ := List.forall_mem_cons.mp proper
    rw [termTokens_cons]
    refine List.forall_mem_append.mpr ⟨?_, ih later⟩
    split
    · exact nofun
    · refine List.forall_mem_singleton.mpr fun u is => ?_
      have apart := first u (Token.term.inj is)
      exact ⟨fun star => apart (star ▸ by decide), fun mark => apart (mark ▸ by decide)⟩

theorem Glob.tokens_proper {g : Glob} (proper : g.Proper) : ∀ t ∈ g.tokens, t.Proper := by
  induction g with
  | plain ts => exact termTokens_proper proper
  | choice ts first others rest ih =>
    obtain ⟨before, inside, later⟩ := proper
    have fine {ts : List Term} (among : ts ∈ first :: others) : ∀ t ∈ termTokens ts, t.Proper :=
      termTokens_proper fun t listed => (inside ts among t listed).outside
    rw [Glob.tokens]
    refine List.forall_mem_append.mpr ⟨termTokens_proper before, List.forall_mem_cons.mpr ⟨nofun, ?_⟩⟩
    refine List.forall_mem_append.mpr
      ⟨List.forall_mem_append.mpr ⟨fine List.mem_cons_self, fun t listed => ?_⟩,
      List.forall_mem_cons.mpr ⟨nofun, ih later⟩⟩
    obtain ⟨ts, among, member⟩ := List.mem_flatMap.mp listed
    rcases List.mem_cons.mp member with rfl | member
    · exact nofun
    · exact fine (List.mem_cons_of_mem _ among) t member

def Glob.parts : Glob → List Part
  | .plain ts => (squeeze ts).map .term
  | .choice ts first others rest =>
    (squeeze ts).map .term ++ .choice ((first :: others).map squeeze) :: rest.parts

theorem read_terms (us : List Term) (ps : List Part) :
    (us.map Token.term).foldlM Reading.step ⟨ps, none⟩ = some ⟨ps ++ us.map .term, none⟩ := by
  induction us generalizing ps with
  | nil => rw [List.map_nil, List.map_nil, List.append_nil]; rfl
  | cons u us ih =>
    rw [List.map_cons, List.foldlM_cons]
    refine (ih (ps ++ [.term u])).trans ?_
    rw [List.append_assoc]
    rfl

theorem read_alternative (us : List Term) (ps : List Part) (done : List (List Term)) (last : List Term) :
    (us.map Token.term).foldlM Reading.step ⟨ps, some (done, last)⟩ =
      some ⟨ps, some (done, last ++ us)⟩ := by
  induction us generalizing last with
  | nil => rw [List.append_nil]; rfl
  | cons u us ih =>
    rw [List.map_cons, List.foldlM_cons]
    refine (ih (last ++ [u])).trans ?_
    rw [List.append_assoc]
    rfl

theorem read_alternatives (others : List (List Term)) (ps : List Part) (done : List (List Term))
    (last : List Term) :
    ((others.flatMap fun ts => Token.bar :: termTokens ts) ++ [Token.closes]).foldlM Reading.step
      ⟨ps, some (done, last)⟩ =
      some ⟨ps ++ [Part.choice (done ++ last :: others.map squeeze)], none⟩ := by
  induction others generalizing done last with
  | nil => rfl
  | cons ts others ih =>
    rw [List.flatMap_cons, List.append_assoc, List.cons_append, List.foldlM_cons]
    refine (List.foldlM_append).trans ?_
    refine (congrArg (Option.bind · _) (read_alternative (squeeze ts) ps (done ++ [last]) [])).trans ?_
    refine (ih (done ++ [last]) (squeeze ts)).trans ?_
    rw [List.append_assoc]
    rfl

theorem Glob.read (g : Glob) (ps : List Part) :
    g.tokens.foldlM Reading.step ⟨ps, none⟩ = some ⟨ps ++ g.parts, none⟩ := by
  induction g generalizing ps with
  | plain ts => exact read_terms (squeeze ts) ps
  | choice ts first others rest ih =>
    have inside : (Token.opens :: (termTokens first ++ (others.flatMap fun ts => .bar :: termTokens ts) ++
        [.closes])).foldlM Reading.step ⟨ps ++ (squeeze ts).map .term, none⟩ =
        some ⟨ps ++ (squeeze ts).map .term ++ [.choice ((first :: others).map squeeze)], none⟩ := by
      rw [List.foldlM_cons, List.append_assoc]
      refine (List.foldlM_append).trans ?_
      refine (congrArg (Option.bind · _) (read_alternative (squeeze first) _ [] [])).trans ?_
      exact read_alternatives others _ [] (squeeze first)
    have whole : Glob.tokens (.choice ts first others rest) = termTokens ts ++
      ((Token.opens :: (termTokens first ++
        (others.flatMap fun ts => .bar :: termTokens ts) ++ [.closes])) ++ rest.tokens) := by
      rw [Glob.tokens, List.cons_append, List.append_assoc _ [_], List.singleton_append]
    rw [whole, List.foldlM_append]
    refine (congrArg (Option.bind · _) (read_terms (squeeze ts) ps)).trans (List.foldlM_append.trans ?_)
    refine (congrArg (Option.bind · _) inside).trans ((ih _).trans ?_)
    rw [Glob.parts, List.append_assoc, List.append_assoc, List.singleton_append]

theorem readRegExp_text {g : Glob} (proper : g.Proper) :
    readRegExp (regexpSource g.text) = some g.parts := by
  rw [readRegExp, regexpSource_text proper, (tokens_sourceOf (Glob.tokens_proper proper) (Nat.le_refl _)).2,
    Option.bind_some, show ({} : Reading) = ⟨[], none⟩ from rfl, Glob.read]
  rfl

theorem spells_squeeze (ts : List Term) (s : JsString) :
    Spells Term.Means (squeeze ts) s ↔ Spells Term.Means ts s := by
  induction ts generalizing s with
  | nil => rfl
  | cons t ts ih =>
    rw [squeeze]
    split
    · next run =>
      obtain ⟨rfl, next⟩ := run
      rw [ih]
      refine ⟨fun h => ⟨[], s, rfl, List.not_mem_nil, h⟩, ?_⟩
      rintro ⟨a, rest, rfl, first, h⟩
      cases ts with
      | nil => cases next
      | cons t ts =>
        obtain rfl := Option.some.inj next
        obtain ⟨b, c, rfl, second, h'⟩ := h
        exact ⟨a ++ b, c, (List.append_assoc ..).symm, fun slash =>
          (List.mem_append.mp slash).elim first second, h'⟩
    · exact exists_congr fun a => exists_congr fun rest => and_congr_right fun _ =>
        and_congr_right fun _ => ih rest

theorem Glob.spells_parts (g : Glob) (s : JsString) : Spells Part.Means g.parts s ↔ g.Means s := by
  have terms (ts : List Term) (s : JsString) :
      Spells Part.Means ((squeeze ts).map .term) s ↔ Spells Term.Means ts s :=
    spells_map.trans (spells_squeeze ts s)
  induction g generalizing s with
  | plain ts => exact terms ts s
  | choice ts first others rest ih =>
    have inside (b : JsString) : (Part.choice ((first :: others).map squeeze)).Means b ↔
        ∃ alternative ∈ first :: others, Spells Term.Means alternative b := by
      simp only [Part.Means, List.mem_map, exists_exists_and_eq_and, spells_squeeze]
    rw [Glob.parts, spells_append]
    constructor
    · rintro ⟨a, _, rfl, before, b, c, rfl, chosen, later⟩
      exact ⟨a, b, c, rfl, (terms ts a).mp before, (inside b).mp chosen, (ih c).mp later⟩
    · rintro ⟨a, b, c, rfl, before, chosen, later⟩
      exact ⟨a, b ++ c, rfl, (terms ts a).mpr before, b, c, rfl, (inside b).mpr chosen, (ih c).mpr later⟩

theorem mem_manyEnds (s rest : JsString) : rest ∈ manyEnds s ↔ ∃ t, s = t ++ rest ∧ codeUnit '/' ∉ t := by
  induction s with
  | nil =>
    rw [manyEnds, List.mem_singleton]
    exact ⟨fun same => ⟨[], same.symm, List.not_mem_nil⟩, fun ⟨t, same, _⟩ =>
      (List.append_eq_nil_iff.mp same.symm).2⟩
  | cons u s ih =>
    rw [manyEnds, List.mem_cons]
    constructor
    · rintro (rfl | later)
      · exact ⟨[], rfl, List.not_mem_nil⟩
      · split at later
        · cases later
        · next plain =>
          obtain ⟨t, rfl, none_⟩ := ih.mp later
          exact ⟨u :: t, rfl, fun slash =>
            (List.mem_cons.mp slash).elim (fun same => plain same.symm) none_⟩
    · rintro ⟨t, same, none_⟩
      cases t with
      | nil => exact .inl same.symm
      | cons v t =>
        obtain ⟨rfl, rfl⟩ := List.cons.inj same
        rw [List.mem_cons, not_or] at none_
        rw [if_neg (Ne.symm none_.1)]
        exact .inr (ih.mpr ⟨t, rfl, none_.2⟩)

theorem Term.mem_ends (t : Term) (s rest : JsString) :
    rest ∈ t.ends s ↔ ∃ u, s = u ++ rest ∧ t.Means u := by
  cases t with
  | many => exact mem_manyEnds s rest
  | unit u =>
    rw [Term.ends]
    cases s with
    | nil => simp [Term.Means]
    | cons v s =>
      by_cases same : v = u
      · simp [Term.Means, same, eq_comm]
      · simp [Term.Means, same]
  | one =>
    rw [Term.ends]
    cases s with
    | nil => simp [Term.Means]
    | cons v s =>
      by_cases slash : v = codeUnit '/'
      · simp [Term.Means, slash]
      · simp [Term.Means, slash, eq_comm]

theorem Part.mem_ends (p : Part) (s rest : JsString) :
    rest ∈ p.ends s ↔ ∃ u, s = u ++ rest ∧ p.Means u := by
  cases p with
  | term t => exact t.mem_ends s rest
  | choice alternatives =>
    rw [Part.ends, List.mem_flatMap]
    simp only [mem_endsOf Term.mem_ends, Part.Means]
    exact ⟨fun ⟨ts, among, u, same, h⟩ => ⟨u, same, ts, among, h⟩, fun ⟨u, same, ts, among, h⟩ =>
      ⟨ts, among, u, same, h⟩⟩

/-- The regular expression of a segment takes what the segment stands for. -/
theorem test_text {g : Glob} (proper : g.Proper) (name : JsString) :
    test (regexpSource g.text) name = true ↔ g.Means name := by
  rw [test, readRegExp_text proper, Option.any_some, decide_eq_true_iff, mem_endsOf Part.mem_ends,
    ← g.spells_parts]
  simp only [List.append_nil, exists_eq_left']

end CodeGraph.Resolution.WorkspaceGlobs
