import CodeGraph.Resolution.MacroLines

/-!
# Calls of macros

`expandMacroCalls` rewrites one call in each pass over a text. What a call is and what it is rewritten to
is said here apart from the scanners that find it.
-/
namespace CodeGraph.Resolution.Macros

open JsText

/-! ### The scanners -/

def closeFrom (depth : Int) : Text → Option Nat
  | [] => none
  | c :: t =>
    if c = '(' then (closeFrom (depth + 1) t).map (· + 1)
    else if c = ')' then if depth - 1 = 0 then some 0 else (closeFrom (depth - 1) t).map (· + 1)
    else (closeFrom depth t).map (· + 1)

/-- The index of the `)` for the `(` that a text begins with. -/
def matchParen (src : Text) : Option Nat := closeFrom 0 src

def isOpening (c : Char) : Bool := c == '{' || c == '(' || c == '['

def isClosing (c : Char) : Bool := c == '}' || c == ')' || c == ']'

/-- The parts of a text between separators that are in no bracket; `part` is the one that was begun. -/
def splitFrom (sep : Char) (depth : Int) (part : Text) : Text → List Text
  | [] => [part]
  | c :: t =>
    if isOpening c then splitFrom sep (depth + 1) (part ++ [c]) t
    else if isClosing c then splitFrom sep (depth - 1) (part ++ [c]) t
    else if c = sep ∧ depth = 0 then part :: splitFrom sep depth [] t
    else splitFrom sep depth (part ++ [c]) t

def splitTopLevel (body : Text) (sep : Char) : List Text := splitFrom sep 0 [] body

/-- `text.replace(/\b\w+\b/g, f)`; `word` is the one that was begun. -/
def replaceWords (f : Text → Text) (word : Text) : Text → Text
  | [] => if word = [] then [] else f word
  | c :: t =>
    if isWord c then replaceWords f (word ++ [c]) t
    else (if word = [] then [] else f word) ++ c :: replaceWords f [] t

def substituteMacro (macro_ : MacroDef) (args : List Text) : Text :=
  let map := toMap (macro_.params.zipIdx.map fun (p, i) => (p, (args[i]?).getD []))
  replaceWords (fun tok => (InsertionMap.lookup map tok).getD tok) [] macro_.expansion

/-- `(\w+)\s*\(` at the start of a text: the name, and the text from the parenthesis on. -/
def callPattern (t : Text) : Option (Text × Text) :=
  match skipSpace (afterWord t) with
  | '(' :: u => if wordAt t = [] then none else some (wordAt t, '(' :: u)
  | _ => none

/-- `/\b(\w+)\s*\(/g` from match to match, up to the first that is a call of a known macro. `before` is
the text up to the place, and `skip` characters are still part of the last match. -/
def expandFrom (env : List (Text × MacroDef)) (before : Text) : Nat → Text → Option Text
  | _, [] => none
  | skip + 1, c :: t => expandFrom env (before ++ [c]) skip t
  | 0, c :: t =>
    match if before.getLast?.all (fun d => !isWord d) then callPattern (c :: t) else none with
    | none => expandFrom env (before ++ [c]) 0 t
    | some (name, rest) =>
      match InsertionMap.lookup env name, matchParen rest with
      | some macro_, some close =>
        some (before ++ (substituteMacro macro_ ((splitTopLevel ((rest.take close).drop 1) ',').map trim) ++
          rest.drop (close + 1)))
      | _, _ => expandFrom env (before ++ [c]) (t.length + 1 - rest.length) t

def expandPasses (env : List (Text × MacroDef)) : Nat → Text → Text
  | 0, out => out
  | pass + 1, out =>
    match expandFrom env [] 0 out with
    | none => out
    | some next => expandPasses env pass next

def expandMacroCalls (text : Text) (env : List (Text × MacroDef)) : Text :=
  if env = [] then text else expandPasses env 6 text

/-! ### What a call is -/

def parens (t : Text) : Int := t.count '(' - t.count ')'

def brackets (t : Text) : Int := t.countP isOpening - t.countP isClosing

def Balanced (body : Text) : Prop := parens body = 0 ∧ ∀ a, a <+: body → 0 ≤ parens a

def Whole (l : Text) : Prop := ∀ a b, l = a ++ ',' :: b → brackets a ≠ 0

inductive Arguments : Text → List Text → Prop
  | last {l : Text} (whole : Whole l) : Arguments l [l]
  | more {l body : Text} {args : List Text} (whole : Whole l) (level : brackets l = 0)
      (rest : Arguments body args) : Arguments (l ++ ',' :: body) (l :: args)

/-- The trimmed argument for a name, if a parameter has it: that of the last such parameter, empty if it
is missing. -/
def argumentOf (params args : List Text) (name : Text) : Option Text :=
  (params.zipIdx.reverse.find? (·.1 = name)).map fun p => trim ((args[p.2]?).getD [])

inductive Substituted (value : Text → Option Text) : Text → Text → Prop
  | nil : Substituted value [] []
  | word (w : Word) {t u : Text} (stop : ∀ c ∈ t.head?, isWord c = false)
      (rest : Substituted value t u) : Substituted value (w.1 ++ t) ((value w.1).getD w.1 ++ u)
  | other {c : Char} {t u : Text} (apart : isWord c = false) (rest : Substituted value t u) :
      Substituted value (c :: t) (c :: u)

structure Call (env : List (Text × MacroDef)) where
  before : Text
  name : Word
  space : Text
  body : Text
  after : Text
  macro_ : MacroDef
  apart : ∀ c ∈ before.getLast?, isWord c = false
  white : ∀ c ∈ space, isSpace c = true
  balanced : Balanced body
  known : InsertionMap.lookup env name.1 = some macro_

variable {env : List (Text × MacroDef)}

def Call.rest (call : Call env) : Text :=
  call.name.1 ++ (call.space ++ '(' :: (call.body ++ ')' :: call.after))

def Call.text (call : Call env) : Text := call.before ++ call.rest

def Call.Rewritten (call : Call env) (u : Text) : Prop :=
  ∃ args body, Arguments call.body args ∧
    Substituted (argumentOf call.macro_.params args) call.macro_.expansion body ∧
    u = call.before ++ (body ++ call.after)

def Expands (env : List (Text × MacroDef)) (t u : Text) : Prop :=
  ∃ call : Call env, call.text = t ∧ call.Rewritten u

def Done (env : List (Text × MacroDef)) (t : Text) : Prop := ∀ call : Call env, call.text ≠ t

/-- A full expansion: calls rewritten until none is left. -/
def Expanded (env : List (Text × MacroDef)) (t u : Text) : Prop :=
  Relation.ReflTransGen (Expands env) t u ∧ Done env u

def ExpandsFirst (env : List (Text × MacroDef)) (t u : Text) : Prop :=
  ∃ call : Call env, call.text = t ∧ call.Rewritten u ∧
    ∀ other : Call env, other.text = t → call.before.length ≤ other.before.length

/-- Rewriting the first call again and again leaves none after `n` rewritings or fewer. -/
inductive DoneWithin (env : List (Text × MacroDef)) : Nat → Text → Prop
  | done {n : Nat} {t : Text} (none_ : Done env t) : DoneWithin env n t
  | next {n : Nat} {t u : Text} (first : ExpandsFirst env t u) (later : DoneWithin env n u) :
      DoneWithin env (n + 1) t

/-! ### Parentheses -/

@[simp] theorem parens_nil : parens [] = 0 := rfl

theorem parens_cons (c : Char) (t : Text) :
    parens (c :: t) = (if c = '(' then 1 else if c = ')' then -1 else 0) + parens t := by
  rw [parens, parens, List.count_cons, List.count_cons]
  by_cases opens : c = '('
  · subst opens
    simp
    omega
  · by_cases closes : c = ')'
    · subst closes
      simp
      omega
    · simp [opens, closes]

/-- The depth that is right before the `)`. -/
theorem closeFrom_some {depth : Int} {t : Text} {i : Nat} (open_ : 1 ≤ depth)
    (found : closeFrom depth t = some i) : ∃ body after, t = body ++ ')' :: after ∧ body.length = i ∧
      depth + parens body = 1 ∧ ∀ a, a <+: body → 1 ≤ depth + parens a := by
  induction t generalizing depth i with
  | nil => cases found
  | cons c t ih =>
    have more : ∀ (step : Int) {j : Nat}, 1 ≤ depth + step → (∀ u, parens (c :: u) = step + parens u) →
        closeFrom (depth + step) t = some j → ∃ body after, c :: t = body ++ ')' :: after ∧
          body.length = j + 1 ∧ depth + parens body = 1 ∧ ∀ a, a <+: body → 1 ≤ depth + parens a := by
      intro step j above count found
      obtain ⟨body, after, rfl, length, level, high⟩ := ih above found
      refine ⟨c :: body, after, rfl, by rw [List.length_cons, length], ?_, ?_⟩
      · rw [count]
        omega
      · intro a part
        rcases a with _ | ⟨d, a⟩
        · simpa using open_
        · obtain ⟨rfl, within⟩ := List.cons_prefix_cons.mp part
          have there := high a within
          rw [count]
          omega
    rw [closeFrom] at found
    split at found
    · next opens =>
      obtain ⟨j, inner, rfl⟩ := Option.map_eq_some_iff.mp found
      exact more 1 (by omega) (fun u => by rw [parens_cons, if_pos opens]) inner
    · next other =>
      split at found
      · next closes =>
        split at found
        · next last =>
          cases found
          refine ⟨[], t, by rw [closes]; rfl, rfl, ?_, ?_⟩
          · simp only [parens_nil]
            omega
          · intro a part
            rw [List.prefix_nil.mp part]
            simpa using open_
        · next deep =>
          obtain ⟨j, inner, rfl⟩ := Option.map_eq_some_iff.mp found
          exact more (-1) (by omega) (fun u => by rw [parens_cons, if_neg other, if_pos closes]) inner
      · next plain =>
        obtain ⟨j, inner, rfl⟩ := Option.map_eq_some_iff.mp found
        exact more 0 (by omega) (fun u => by rw [parens_cons, if_neg other, if_neg plain])
          (by rwa [Int.add_zero])

theorem closeFrom_append {depth : Int} {body : Text} (after : Text) (level : depth + parens body = 1)
    (high : ∀ a, a <+: body → 1 ≤ depth + parens a) :
    closeFrom depth (body ++ ')' :: after) = some body.length := by
  induction body generalizing depth with
  | nil =>
    have last : depth - 1 = 0 := by
      simp only [parens_nil] at level
      omega
    simp [closeFrom, last]
  | cons c body ih =>
    have first := high [c] ⟨body, rfl⟩
    have inner : ∀ (step : Int), (∀ u, parens (c :: u) = step + parens u) →
        closeFrom (depth + step) (body ++ ')' :: after) = some body.length := by
      intro step count
      refine ih ?_ ?_
      · rw [count] at level
        omega
      · intro a part
        have there := high (c :: a) (List.cons_prefix_cons.mpr ⟨rfl, part⟩)
        rw [count] at there
        omega
    rw [List.cons_append, closeFrom]
    by_cases opens : c = '('
    · rw [if_pos opens, inner 1 fun u => by rw [parens_cons, if_pos opens]]
      rfl
    · by_cases closes : c = ')'
      · have count : ∀ u, parens (c :: u) = -1 + parens u :=
          fun u => by rw [parens_cons, if_neg opens, if_pos closes]
        have deep : ¬depth - 1 = 0 := by
          rw [count, parens_nil] at first
          omega
        rw [if_neg opens, if_pos closes, if_neg deep, Int.sub_eq_add_neg, inner _ count]
        rfl
      · have found := inner 0 fun u => by rw [parens_cons, if_neg opens, if_neg closes]
        rw [Int.add_zero] at found
        rw [if_neg opens, if_neg closes, found]
        rfl

theorem matchParen_some {t : Text} {i : Nat} (found : matchParen ('(' :: t) = some i) :
    ∃ body after, t = body ++ ')' :: after ∧ i = body.length + 1 ∧ Balanced body := by
  rw [matchParen, closeFrom, if_pos rfl] at found
  obtain ⟨j, inner, rfl⟩ := Option.map_eq_some_iff.mp found
  obtain ⟨body, after, rfl, length, level, high⟩ := closeFrom_some (by decide) inner
  refine ⟨body, after, rfl, by rw [length], ?_, fun a part => ?_⟩
  · omega
  · have there := high a part
    omega

theorem matchParen_append {body : Text} (balanced : Balanced body) (after : Text) :
    matchParen ('(' :: (body ++ ')' :: after)) = some (body.length + 1) := by
  have found : closeFrom (0 + 1) (body ++ ')' :: after) = some body.length := by
    refine closeFrom_append after ?_ fun a part => ?_
    · rw [balanced.1]
      rfl
    · have there := balanced.2 a part
      omega
  rw [matchParen, closeFrom, if_pos rfl, found]
  rfl

theorem brackets_cons (c : Char) (t : Text) :
    brackets (c :: t) = (if isOpening c then 1 else if isClosing c then -1 else 0) + brackets t := by
  rw [brackets, brackets, List.countP_cons, List.countP_cons]
  by_cases opens : isOpening c = true
  · have open_ : isClosing c = false := by
      rw [isOpening, Bool.or_eq_true, Bool.or_eq_true] at opens
      simp only [beq_iff_eq] at opens
      rcases opens with (rfl | rfl) | rfl <;> rfl
    simp [opens, open_]
    omega
  · by_cases closes : isClosing c = true
    · simp [opens, closes]
      omega
    · simp [opens, closes]

/-- A text without a separator of its own goes on the part that was begun. -/
theorem splitFrom_append {l : Text} (depth : Int) (part z : Text)
    (whole : ∀ a b, l = a ++ ',' :: b → depth + brackets a ≠ 0) :
    splitFrom ',' depth part (l ++ z) = splitFrom ',' (depth + brackets l) (part ++ l) z := by
  induction l generalizing depth part with
  | nil => simp [brackets]
  | cons c l ih =>
    have step : ∀ d : Int, (∀ u, depth + brackets (c :: u) = d + brackets u) →
        splitFrom ',' d (part ++ [c]) (l ++ z) =
          splitFrom ',' (depth + brackets (c :: l)) (part ++ c :: l) z := by
      intro d count
      rw [ih d (part ++ [c]) fun a b parts => ?_, count, List.append_assoc, List.singleton_append]
      have there := whole (c :: a) b (by rw [parts, List.cons_append])
      rwa [count] at there
    rw [List.cons_append, splitFrom]
    by_cases opens : isOpening c = true
    · rw [if_pos opens]
      exact step _ fun u => by rw [brackets_cons, if_pos opens, Int.add_assoc]
    · rw [if_neg opens]
      by_cases closes : isClosing c = true
      · rw [if_pos closes]
        exact step _ fun u => by
          rw [brackets_cons, if_neg opens, if_pos closes]
          omega
      · have apart : ¬(c = ',' ∧ depth = 0) := by
          rintro ⟨rfl, level⟩
          refine whole [] l rfl ?_
          simp [brackets, level]
        rw [if_neg closes, if_neg apart]
        exact step _ fun u => by
          rw [brackets_cons, if_neg opens, if_neg closes]
          omega

theorem splitTopLevel_of_arguments {body : Text} {args : List Text} (are : Arguments body args) :
    splitTopLevel body ',' = args := by
  rw [splitTopLevel]
  induction are with
  | @last l whole =>
    have found := splitFrom_append 0 [] [] fun a b parts => by
      rw [Int.zero_add]
      exact whole a b parts
    rw [List.append_nil, List.nil_append] at found
    rw [found]
    rfl
  | @more l body args whole level rest ih =>
    have comma : splitFrom ',' 0 l (',' :: body) = l :: splitFrom ',' 0 [] body := rfl
    rw [splitFrom_append 0 [] (',' :: body) fun a b parts => by
      rw [Int.zero_add]
      exact whole a b parts, level, List.nil_append, Int.add_zero, comma, ih]

theorem whole_or (t : Text) : Whole t ∨
    ∃ l body, t = l ++ ',' :: body ∧ Whole l ∧ brackets l = 0 := by
  induction t using List.reverseRecOn with
  | nil => exact Or.inl fun a b parts => by cases a <;> cases parts
  | append_singleton t c ih =>
    rcases ih with whole | ⟨l, body, rfl, whole, level⟩
    · by_cases cut : c = ',' ∧ brackets t = 0
      · obtain ⟨rfl, level⟩ := cut
        exact Or.inr ⟨t, [], rfl, whole, level⟩
      · refine Or.inl fun a b parts => ?_
        rcases List.eq_nil_or_concat' b with rfl | ⟨b, d, rfl⟩
        · obtain ⟨rfl, same⟩ := List.append_inj' parts rfl
          cases same
          exact fun level => cut ⟨rfl, level⟩
        · rw [← List.cons_append, ← List.append_assoc] at parts
          exact whole a b (List.append_inj' parts rfl).1
    · exact Or.inr ⟨l, body ++ [c], by rw [List.append_assoc, List.cons_append], whole, level⟩

theorem arguments_splitTopLevel (body : Text) : Arguments body (splitTopLevel body ',') := by
  have some_ : ∃ args, Arguments body args := by
    induction length : body.length using Nat.strongRecOn generalizing body with
    | ind n ih =>
      rcases whole_or body with whole | ⟨l, rest, rfl, whole, level⟩
      · exact ⟨_, .last whole⟩
      · have less : rest.length < n := by
          rw [← length, List.length_append, List.length_cons]
          omega
        obtain ⟨args, are⟩ := ih rest.length less rest rfl
        exact ⟨_, .more whole level are⟩
  obtain ⟨args, are⟩ := some_
  rwa [splitTopLevel_of_arguments are]

variable {value : Text → Option Text} {t u : Text}

theorem replaceWords_word {f : Text → Text} {w : Text} (all : ∀ c ∈ w, isWord c = true) (word t : Text) :
    replaceWords f word (w ++ t) = replaceWords f (word ++ w) t := by
  induction w generalizing word with
  | nil => rw [List.nil_append, List.append_nil]
  | cons c w ih =>
    rw [List.cons_append, replaceWords, if_pos (all c List.mem_cons_self),
      ih (fun d listed => all d (List.mem_cons_of_mem c listed)), List.append_assoc, List.singleton_append]

theorem replaceWords_stop {f : Text → Text} {word : Text} (some_ : word ≠ [])
    (stop : ∀ c ∈ t.head?, isWord c = false) : replaceWords f word t = f word ++ replaceWords f [] t := by
  cases t with
  | nil => rw [replaceWords, if_neg some_, replaceWords, if_pos rfl, List.append_nil]
  | cons c t =>
    have apart : ¬isWord c = true := by simp [stop c rfl]
    rw [replaceWords, if_neg apart, if_neg some_, replaceWords, if_neg apart, if_pos rfl, List.nil_append]

theorem replaceWords_of_substituted (is : Substituted value t u) :
    replaceWords (fun tok => (value tok).getD tok) [] t = u := by
  induction is with
  | nil => rfl
  | word w stop rest ih => rw [replaceWords_word w.2.2, List.nil_append, replaceWords_stop w.2.1 stop, ih]
  | other apart rest ih =>
    rw [replaceWords, if_neg (by simp [apart]), if_pos rfl, ih, List.nil_append]

theorem word_first {c : Char} (word : isWord c = true) (t : Text) :
    ∃ (w : Word) (rest : Text), c :: t = w.1 ++ rest ∧ rest.length ≤ t.length ∧
      ∀ d ∈ rest.head?, isWord d = false := by
  have shape : wordAt (c :: t) = c :: wordAt t := List.takeWhile_cons_of_pos word
  have short := (List.dropWhile_suffix isWord (l := t)).length_le
  refine ⟨⟨wordAt (c :: t), ?_, fun d listed => List.mem_takeWhile_imp listed⟩, afterWord t, ?_, short, ?_⟩
  · rw [shape]
    exact List.cons_ne_nil _ _
  · change c :: t = wordAt (c :: t) ++ afterWord t
    rw [shape, List.cons_append, wordAt_append_afterWord]
  · intro d first
    have stop := List.head?_dropWhile_not isWord t
    rw [← afterWord, first] at stop
    simpa using stop

theorem substituted_replaceWords (value : Text → Option Text) (t : Text) :
    Substituted value t (replaceWords (fun tok => (value tok).getD tok) [] t) := by
  have some_ : ∃ u, Substituted value t u := by
    induction length : t.length using Nat.strongRecOn generalizing t with
    | ind n ih =>
      cases t with
      | nil => exact ⟨[], .nil⟩
      | cons c t =>
        rw [List.length_cons] at length
        by_cases word : isWord c = true
        · obtain ⟨w, rest, parts, short, stop⟩ := word_first word t
          obtain ⟨u, is⟩ := ih rest.length (by omega) rest rfl
          rw [parts]
          exact ⟨_, .word w stop is⟩
        · obtain ⟨u, is⟩ := ih t.length (by omega) t rfl
          exact ⟨c :: u, .other (by simpa using word) is⟩
  obtain ⟨u, is⟩ := some_
  rwa [replaceWords_of_substituted is]

theorem lookup_arguments (params args : List Text) (tok : Text) :
    InsertionMap.lookup (toMap (params.zipIdx.map fun (p, i) => (p, ((args.map trim)[i]?).getD []))) tok =
      argumentOf params args tok := by
  have trimmed : ∀ i : Nat, ((args.map trim)[i]?).getD [] = trim ((args[i]?).getD []) := by
    intro i
    rw [List.getElem?_map]
    cases args[i]? <;> rfl
  rw [lookup_toMap, argumentOf, ← List.map_reverse, List.find?_map, Option.map_map]
  simp only [trimmed]
  rfl

theorem substituteMacro_iff (macro_ : MacroDef) (args : List Text) :
    Substituted (argumentOf macro_.params args) macro_.expansion u ↔
      substituteMacro macro_ (args.map trim) = u := by
  have same : substituteMacro macro_ (args.map trim) =
      replaceWords (fun tok => (argumentOf macro_.params args tok).getD tok) [] macro_.expansion := by
    rw [substituteMacro]
    simp only [lookup_arguments]
  rw [same]
  constructor
  · exact replaceWords_of_substituted
  · rintro rfl
    exact substituted_replaceWords _ _

end CodeGraph.Resolution.Macros
