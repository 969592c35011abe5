import CodeGraph.Foundation.JsText

/-!
# Conditional lines

`evalConditionals` blanks the arms of `#if` groups that the defined names switch off. It reads each line
by patterns, and keeps a frame for each group that it is in.
-/
namespace CodeGraph.Resolution.Conditionals

open JsText

inductive Directive where
  | ifdef (name : Text)
  | ifndef (name : Text)
  | ifExpr (expr : Text)
  | elif
  | else_
  | endif
  deriving DecidableEq, Repr

/-- `^#\s*` and a keyword: what follows it. -/
def afterKeyword (keyword : Text) : Text → Option Text
  | '#' :: rest =>
    if keyword.isPrefixOf (skipSpace rest) then some ((skipSpace rest).drop keyword.length) else none
  | _ => none

/-- `\s+(\w+)` -/
def nameAfterSpace : Text → Option Text
  | [] => none
  | c :: rest =>
    if isSpace c then
      let name := wordAt (skipSpace rest)
      if name = [] then none else some name
    else none

/-- `\s+(.+)$` on a trimmed line; what is captured is trimmed. -/
def exprAfterSpace : Text → Option Text
  | [] => none
  | c :: rest =>
    if isSpace c then
      let expr := skipSpace rest
      if expr = [] ∨ expr.any isTerminator then none else some (trim expr)
    else none

/-- `\b` after a keyword. -/
def atBoundary (rest : Text) : Bool := rest.head?.all fun c => !isWord c

def read (t : Text) : Option Directive :=
  match (afterKeyword ['i', 'f', 'd', 'e', 'f'] t).bind nameAfterSpace with
  | some name => some (.ifdef name)
  | none =>
    match (afterKeyword ['i', 'f', 'n', 'd', 'e', 'f'] t).bind nameAfterSpace with
    | some name => some (.ifndef name)
    | none =>
      match (afterKeyword ['i', 'f'] t).bind exprAfterSpace with
      | some expr => some (.ifExpr expr)
      | none =>
        if (afterKeyword ['e', 'l', 'i', 'f'] t).any atBoundary then some .elif
        else if (afterKeyword ['e', 'l', 's', 'e'] t).any atBoundary then some .else_
        else if (afterKeyword ['e', 'n', 'd', 'i', 'f'] t).any atBoundary then some .endif
        else none

/-- `\(?` or `\)?` -/
def optional (c : Char) : Text → Text
  | [] => []
  | d :: rest => if d = c then rest else d :: rest

/-- `^defined\s*\(?\s*(\w+)\s*\)?$` -/
def definedName (expr : Text) : Option Text :=
  if ['d', 'e', 'f', 'i', 'n', 'e', 'd'].isPrefixOf expr then
    let rest := skipSpace (optional '(' (skipSpace (expr.drop 7)))
    let name := wordAt rest
    if name ≠ [] ∧ optional ')' (skipSpace (afterWord rest)) = [] then some name else none
  else none

/-- `^!\s*` and the same. -/
def notDefinedName : Text → Option Text
  | '!' :: rest => definedName (skipSpace rest)
  | _ => none

/-- The value of a condition for the defined names, unless it is beyond the patterns. -/
def condDefined (defined : Text → Bool) (expr : Text) : Option Bool :=
  match definedName expr with
  | some name => some (defined name)
  | none => (notDefinedName expr).map fun name => !defined name

structure Frame where
  /-- Is what surrounds the group kept? -/
  parentActive : Bool
  /-- Is this arm kept? -/
  active : Bool
  /-- Was any arm taken yet? -/
  taken : Bool
  deriving DecidableEq, Repr

def activeNow : List Frame → Bool
  | [] => true
  | top :: _ => top.active

def push (stack : List Frame) (cond : Bool) : List Frame :=
  ⟨activeNow stack, activeNow stack && cond, cond⟩ :: stack

/-- The frames at an `#elif` or `#else`. -/
def nextArm : List Frame → List Frame
  | [] => []
  | top :: stack => { top with active := top.parentActive && !top.taken, taken := true } :: stack

def evalLine (defined : Text → Bool) (stack : List Frame) (line : Text) : List Frame × Text :=
  match read (trim line) with
  | some (.ifdef name) => (push stack (defined name), [])
  | some (.ifndef name) => (push stack (!defined name), [])
  | some (.ifExpr expr) => (push stack ((condDefined defined expr).getD true), [])
  | some .elif | some .else_ => (nextArm stack, [])
  | some .endif => (stack.tail, [])
  | none => (stack, if activeNow stack then line else [])

def evalLines (defined : Text → Bool) : List Frame → List Text → List Text
  | _, [] => []
  | stack, line :: lines =>
    (evalLine defined stack line).2 :: evalLines defined (evalLine defined stack line).1 lines

/-- `/#\s*if/.test(text)` -/
def hasIf (text : Text) : Bool := text.tails.any fun t => (afterKeyword ['i', 'f'] t).isSome

def evalConditionals (text : Text) (defined : Text → Bool) : Text :=
  if hasIf text then List.intercalate ['\n'] (evalLines defined [] (text.splitOn '\n')) else text

/-!
### Groups of conditional lines

What the C preprocessor makes of a text whose conditional lines nest: in each group it keeps the first
arm whose condition holds, or else the last one after an `#else`.
-/

open JsText

variable {κ : Type}

/-! ### Lines -/

/-- The word after the `#` of a line. -/
def directiveWord (line : Text) : Text :=
  match trim line with
  | '#' :: rest => wordAt (skipSpace rest)
  | _ => []

def conditionals : List Text :=
  [['i', 'f'], ['i', 'f', 'd', 'e', 'f'], ['i', 'f', 'n', 'd', 'e', 'f'], ['e', 'l', 'i', 'f'],
    ['e', 'l', 's', 'e'], ['e', 'n', 'd', 'i', 'f']]

def Plain (line : Text) : Prop := directiveWord line ∉ conditionals

instance (line : Text) : Decidable (Plain line) := inferInstanceAs (Decidable (_ ∉ _))

/-- A condition: a test of a name, or one whose truth is open; `occurrence` tells those apart. -/
inductive Condition (κ : Type) where
  | isDefined (name : Text)
  | notDefined (name : Text)
  | other (occurrence : κ)

def Condition.holds (defined : Text → Bool) (truth : κ → Bool) : Condition κ → Bool
  | .isDefined name => defined name
  | .notDefined name => !defined name
  | .other occurrence => truth occurrence

def Condition.Simple : Condition κ → Prop
  | .other _ => False
  | _ => True

def Spaces (gap : Text) : Prop := ∀ c ∈ gap, isSpace c = true

instance (gap : Text) : Decidable (Spaces gap) := inferInstanceAs (Decidable (∀ c ∈ gap, _))

def Name (name : Text) : Prop := name ≠ [] ∧ ∀ c ∈ name, isWord c = true

instance (name : Text) : Decidable (Name name) := inferInstanceAs (Decidable (_ ∧ _))

/-- `defined name` or `defined(name)`. -/
inductive IsDefined (name : Text) : Text → Prop where
  | bare {gap : Text} : Spaces gap → gap ≠ [] → Name name →
    IsDefined name (['d', 'e', 'f', 'i', 'n', 'e', 'd'] ++ gap ++ name)
  | inParens {before inside after : Text} : Spaces before → Spaces inside → Spaces after →
    Name name → IsDefined name
      (['d', 'e', 'f', 'i', 'n', 'e', 'd'] ++ before ++ '(' :: inside ++ name ++ after ++ [')'])

inductive NotDefined (name : Text) : Text → Prop where
  | not {gap expr : Text} : Spaces gap → IsDefined name expr → NotDefined name ('!' :: gap ++ expr)

inductive Says (expr : Text) : Condition κ → Prop where
  | isDefined {name : Text} : IsDefined name expr → Says expr (.isDefined name)
  | notDefined {name : Text} : NotDefined name expr → Says expr (.notDefined name)
  | other {occurrence : κ} : (∀ name, ¬ IsDefined name expr) → (∀ name, ¬ NotDefined name expr) →
    Says expr (.other occurrence)

/-- A line `#keyword expr`. -/
inductive Keyed (keyword : Text) (expr : Text) : Text → Prop where
  | mk {line before gap : Text} : Spaces before → Spaces gap → expr ≠ [] →
    (∀ c ∈ expr.head?, isSpace c = false) →
    (gap = [] → ∀ c ∈ expr.head?, isWord c = false) →
    trim line = '#' :: before ++ keyword ++ gap ++ expr → Keyed keyword expr line

inductive Opens : Text → Condition κ → Prop where
  | ifdef {line name rest : Text} : Keyed ['i', 'f', 'd', 'e', 'f'] (name ++ rest) line → Name name →
    (∀ c ∈ rest.head?, isSpace c = true) → Opens line (.isDefined name)
  | ifndef {line name rest : Text} : Keyed ['i', 'f', 'n', 'd', 'e', 'f'] (name ++ rest) line →
    Name name → (∀ c ∈ rest.head?, isSpace c = true) → Opens line (.notDefined name)
  | ifExpr {line expr : Text} {condition : Condition κ} : Keyed ['i', 'f'] expr line →
    Says expr condition → Opens line condition

inductive Elif : Text → Condition κ → Prop where
  | mk {line expr : Text} {condition : Condition κ} : Keyed ['e', 'l', 'i', 'f'] expr line →
    Says expr condition → Elif line condition

def Else (line : Text) : Prop := directiveWord line = ['e', 'l', 's', 'e']

def Endif (line : Text) : Prop := directiveWord line = ['e', 'n', 'd', 'i', 'f']

instance (line : Text) : Decidable (Else line) := inferInstanceAs (Decidable (_ = _))

instance (line : Text) : Decidable (Endif line) := inferInstanceAs (Decidable (_ = _))

/-! ### Groups -/

mutual

inductive Lines (κ : Type) : Type where
  | done
  | line (text : Text) (plain : Plain text) (rest : Lines κ)
  | group (opening : Text) (condition : Condition κ) (opens : Opens opening condition)
    (body : Lines κ) (arms : Arms κ) (rest : Lines κ)

inductive Arms (κ : Type) : Type where
  | endif (text : Text) (ends : Endif text)
  | elif (text : Text) (condition : Condition κ) (is : Elif text condition) (body : Lines κ)
    (arms : Arms κ)
  | else_ (text : Text) (is : Else text) (body : Lines κ) (closing : Text) (ends : Endif closing)

end

mutual

def Lines.texts : Lines κ → List Text
  | .done => []
  | .line text _ rest => text :: rest.texts
  | .group opening _ _ body arms rest => opening :: (body.texts ++ (arms.texts ++ rest.texts))

def Arms.texts : Arms κ → List Text
  | .endif text _ => [text]
  | .elif text _ _ body arms => text :: (body.texts ++ arms.texts)
  | .else_ text _ body closing _ => text :: (body.texts ++ [closing])

end

mutual

/-- The lines that the preprocessor keeps, where `active` says whether it keeps what is around them. -/
def Lines.keeps (defined : Text → Bool) (truth : κ → Bool) (active : Bool) : Lines κ → List Bool
  | .done => []
  | .line _ _ rest => active :: rest.keeps defined truth active
  | .group _ condition _ body arms rest =>
    let taken := condition.holds defined truth
    false :: (body.keeps defined truth (active && taken) ++
      (arms.keeps defined truth active taken ++ rest.keeps defined truth active))

/-- The same for the arms of a group, where `taken` says whether an earlier arm is kept. -/
def Arms.keeps (defined : Text → Bool) (truth : κ → Bool) (active taken : Bool) : Arms κ → List Bool
  | .endif _ _ => [false]
  | .elif _ condition _ body arms =>
    let here := !taken && condition.holds defined truth
    false :: (body.keeps defined truth (active && here) ++
      arms.keeps defined truth active (taken || here))
  | .else_ _ _ body _ _ => false :: (body.keeps defined truth (active && !taken) ++ [false])

end

mutual

def Lines.Simple : Lines κ → Prop
  | .done => True
  | .line _ _ rest => rest.Simple
  | .group _ condition _ body arms rest => condition.Simple ∧ body.Simple ∧ arms.Simple ∧ rest.Simple

def Arms.Simple : Arms κ → Prop
  | .endif _ _ => True
  | .elif _ condition _ body arms => condition.Simple ∧ body.Simple ∧ arms.Simple
  | .else_ _ _ body _ _ => body.Simple

end

/-- What is to hold of a text whose lines are `tree`. -/
structure Faithful (tree : Lines κ) (text : Text) (defined : Text → Bool) : Prop where
  lines : List.Forall₂ (fun line out => out = line ∨ out = []) (text.splitOn '\n')
    ((evalConditionals text defined).splitOn '\n')
  /-- What the preprocessor may keep is kept. -/
  kept : ∀ (truth : κ → Bool) (i : Nat) (line : Text), (text.splitOn '\n')[i]? = some line →
    (tree.keeps defined truth true)[i]? = some true →
    ((evalConditionals text defined).splitOn '\n')[i]? = some line
  /-- Nothing else is, if every condition is a test of a name. -/
  dropped : tree.Simple → ∀ (truth : κ → Bool) (i : Nat),
    (tree.keeps defined truth true)[i]? = some false →
    ((evalConditionals text defined).splitOn '\n')[i]? = some []

/-- An arm as the patterns read it: the value of the first condition of its group, unless that is beyond
them, and how many arms of the group come before it. -/
abbrev Arm := Option Bool × Nat

/-- The arm that the source follows: the second one where the first condition fails, else the first. -/
def followed (arm : Arm) : Bool := if arm.1 = some false then arm.2 == 1 else arm.2 == 0

def openingValue (defined : Text → Bool) : Directive → Option (Option Bool)
  | .ifdef name => some (some (defined name))
  | .ifndef name => some (some (!defined name))
  | .ifExpr expr => some (condDefined defined expr)
  | _ => none

/-- The arms around the line after `line`. -/
def armsAfter (defined : Text → Bool) (around : List Arm) (line : Text) : List Arm :=
  match read (trim line) with
  | none => around
  | some .elif | some .else_ => around.modifyHead fun arm => (arm.1, arm.2 + 1)
  | some .endif => around.tail
  | some directive =>
    match openingValue defined directive with
    | none => around
    | some value => (value, 0) :: around

def armsOf (defined : Text → Bool) : List Arm → List Text → List (List Arm)
  | _, [] => []
  | around, line :: lines => around :: armsOf defined (armsAfter defined around line) lines

/-- The lines in the arms that the source follows are those that the preprocessor may keep. -/
structure Followed (tree : Lines κ) (text : Text) (defined : Text → Bool) : Prop where
  /-- What the preprocessor may keep, empty lines apart, is in such arms. -/
  kept : ∀ (truth : κ → Bool) (i : Nat) (line : Text) (arms : List Arm),
    (text.splitOn '\n')[i]? = some line → line ≠ [] →
    (armsOf defined [] (text.splitOn '\n'))[i]? = some arms →
    (tree.keeps defined truth true)[i]? = some true → arms.all followed
  /-- Nothing else is, if every condition is a test of a name. -/
  dropped : tree.Simple → ∀ (truth : κ → Bool) (i : Nat) (line : Text) (arms : List Arm),
    (text.splitOn '\n')[i]? = some line → line ≠ [] → read (trim line) = none →
    (armsOf defined [] (text.splitOn '\n'))[i]? = some arms →
    (tree.keeps defined truth true)[i]? = some false → ¬ arms.all followed

end CodeGraph.Resolution.Conditionals
