import CodeGraph.Extraction.PascalScanners

/-!
# Conditional groups of Pascal source

The groups of conditional directives, and what their branches hold.
-/
namespace CodeGraph.Extraction.PascalPreparse

open Scanning Text

def MAX_HEADER_PART_LENGTH : Nat := 500

def ROUTINE_KEYWORDS : List JsString :=
  ["procedure", "function", "constructor", "destructor", "operator"].map utf16

/-- The hints that a routine's header can carry after its `;`. -/
def ROUTINE_HINTS : List JsString :=
  ["static", "virtual", "dynamic", "abstract", "override", "overload", "reintroduce", "inline",
    "stdcall", "cdecl", "pascal", "register", "safecall", "assembler", "noreturn", "local", "far",
    "near", "default", "nodefault", "deprecated", "experimental", "message", "platform",
    "unimplemented", "cppdecl", "cvar", "mwpascal", "nostackframe", "interrupt", "iocheck",
    "hardfloat", "softfloat", "ms_abi_default", "ms_abi_cdecl", "saveregisters", "sysv_abi_default",
    "sysv_abi_cdecl", "vectorcall", "varargs", "winapi", "public", "export", "alias", "dispid"].map utf16

/-- Words that open a block which an `end` closes. -/
def BLOCK_OPENERS : List JsString := ["begin", "asm", "try", "case", "record"].map utf16

variable {s : JsString}

/-! ### Groups -/

inductive ConditionalKind where
  | none | open | else | close
  deriving DecidableEq, Repr

def conditionalKind (s : JsString) (i : Nat) : ConditionalKind :=
  let name := toLowerCase ((s.drop (i + 2)).takeWhile fun c => 97 ≤ c ||| 32 && c ||| 32 ≤ 122)
  if name ∈ ["if", "ifdef", "ifndef", "ifopt"].map utf16 then .open
  else if name ∈ ["else", "elseif"].map utf16 then .else
  else if name ∈ ["endif", "ifend"].map utf16 then .close
  else .none

structure Directive (s : JsString) where
  start : Nat
  stop : Nat
  forward : start < stop
  within : stop ≤ s.length
  brace : s[start]? = some CH_LBRACE
  dollar : s[start + 1]? = some CH_DOLLAR

def Directive.range (d : Directive s) : Range := (d.start, d.stop)

/-- A group that has not been closed, with whether a group sits in each of its branches. -/
structure OpenGroup (s : JsString) where
  opening : Directive s
  alternatives : List (Directive s)
  nested : List Bool

/-- A conditional group: its own directives in order, and whether a group sits in each branch. -/
structure ConditionalGroup (s : JsString) where
  opening : Directive s
  alternatives : List (Directive s)
  closing : Directive s
  nested : List Bool
  closes : conditionalKind s closing.start = .close

namespace ConditionalGroup

def bounds (g : ConditionalGroup s) : List (Directive s) := g.opening :: g.alternatives ++ [g.closing]

def branches (g : ConditionalGroup s) : List Range :=
  List.zipWith (fun a b => (a.stop, b.start)) g.bounds (g.alternatives ++ [g.closing])

end ConditionalGroup

/-- The groups that are closed, and those that are open, the innermost first. -/
structure Groups (s : JsString) where
  closed : List (ConditionalGroup s)
  opened : List (OpenGroup s)

def markNested : List (OpenGroup s) → List (OpenGroup s)
  | [] => []
  | top :: rest => { top with nested := top.nested.dropLast ++ [true] } :: rest

def directiveStep (g : Groups s) (d : Directive s) : Groups s :=
  match kind : conditionalKind s d.start, g.opened with
  | .open, opened => { g with opened := ⟨d, [], [false]⟩ :: markNested opened }
  | .else, top :: rest =>
    { g with
      opened :=
        { top with alternatives := top.alternatives ++ [d], nested := top.nested ++ [false] } :: rest }
  | .close, top :: rest =>
    { closed := g.closed ++ [⟨top.opening, top.alternatives, d, top.nested, kind⟩], opened := rest }
  | _, _ => g

def conditionalGroups (s : JsString) : List (ConditionalGroup s) :=
  scan 0 s.length (fun (g : Groups s) ⟨i, _⟩ =>
    match ends : commentOrStringEnd s i with
    | none => .go g (next i)
    | some k =>
      if d : s[i]? = some CH_LBRACE ∧ s[i + 1]? = some CH_DOLLAR then
        .go (directiveStep g ⟨i, k, k.2, commentOrStringEnd_le ends, d.1, d.2⟩) k
      else .go g k) (fun g _ => g.closed) ⟨[], []⟩

def Ordered (groups : List (ConditionalGroup s)) : Prop :=
  ∀ g ∈ groups, g.opening.stop ≤ g.closing.start

theorem conditionalGroups_ordered (s : JsString) : Ordered (conditionalGroups s) := by
  apply scan_spec
    (fun (g : Groups s) i => Ordered g.closed ∧ ∀ o ∈ g.opened, o.opening.stop ≤ i) Ordered
  · intro g ⟨i, _⟩ _ ⟨closed, opened⟩
    have later : ∀ k : After i, ∀ o ∈ g.opened, o.opening.stop ≤ k := fun k o listed =>
      (opened o listed).trans (Nat.le_of_succ_le k.2)
    dsimp only
    split
    next => exact ⟨closed, later (next i)⟩
    next k ends =>
      split
      next d =>
        rw [directiveStep]
        split
        next =>
          refine ⟨closed, fun o listed => ?_⟩
          rcases List.mem_cons.mp listed with rfl | outer
          · exact Nat.le_refl _
          · cases stack : g.opened with
            | nil =>
              rw [stack] at outer
              cases outer
            | cons top rest =>
              rw [stack] at outer later
              rcases List.mem_cons.mp outer with rfl | below
              · exact later k top List.mem_cons_self
              · exact later k o (List.mem_cons_of_mem _ below)
        next top rest _ stack =>
          rw [stack] at later
          refine ⟨closed, fun o listed => ?_⟩
          rcases List.mem_cons.mp listed with rfl | below
          · exact later k top List.mem_cons_self
          · exact later k o (List.mem_cons_of_mem _ below)
        next top rest _ stack =>
          rw [stack] at later opened
          refine ⟨fun group listed => ?_, fun o below => later k o (List.mem_cons_of_mem _ below)⟩
          rcases mem_snoc.mp listed with old | new
          · exact closed group old
          · rw [new]
            exact opened top List.mem_cons_self
        next => exact ⟨closed, later k⟩
      next => exact ⟨closed, later k⟩
  · exact fun g _ _ kept => kept.1
  · exact ⟨fun g none_ => (nomatch none_), fun o none_ => (nomatch none_)⟩

def groupAt (groups : List (ConditionalGroup s)) (i : Nat) : Option (ConditionalGroup s) :=
  groups.reverse.find? (·.opening.start = i)

theorem groupAt_spec {groups : List (ConditionalGroup s)} {i : Nat} {g : ConditionalGroup s}
    (found : groupAt groups i = some g) : g ∈ groups ∧ g.opening.start = i :=
  ⟨List.mem_reverse.mp (List.mem_of_find?_eq_some found), by simpa using List.find?_some found⟩

structure BodyScan where
  blocks : List JsString
  /-- Routines declared at the top whose body hasn't come yet. -/
  pending : Int
  /-- Whether the last top-level block is no declared routine's. -/
  own : Bool
  last : JsString
  beforeLast : JsString

/-- A word of a body, or that the code closes a block that it has not opened. -/
def BodyScan.word (b : BodyScan) (word : JsString) : Option BodyScan :=
  let pending :=
    if b.blocks = [] then
      if word ∈ ROUTINE_KEYWORDS ∧ (b.last = [] ∨ b.last = [CH_SEMI]) then b.pending + 1
      else if (word = utf16 "forward" ∨ word = utf16 "external") ∧ 0 < b.pending then b.pending - 1
      else b.pending
    else b.pending
  let b := { b with pending := pending, beforeLast := b.last, last := word }
  if word = utf16 "end" then
    match b.blocks with
    | [] => none
    | _ :: rest => some { b with blocks := rest }
  else if word = utf16 "begin" ∨ word = utf16 "asm" then
    if b.blocks = [] then
      some { b with
        own := b.pending = 0
        pending := if b.pending = 0 then b.pending else b.pending - 1
        blocks := [word] }
    else some { b with blocks := word :: b.blocks }
  else if word = utf16 "try" ∨ word = utf16 "record" ∨
      (word = utf16 "case" ∧ b.blocks.head? ≠ some (utf16 "record")) then
    some { b with blocks := word :: b.blocks }
  else some b

def holdsBody (s : JsString) (r : Range) : Bool :=
  scan r.1 r.2 (fun (b : BodyScan) ⟨i, _⟩ =>
    match commentOrStringEnd s i with
    | some k =>
      .go (if s[i]? = some CH_QUOTE then { b with beforeLast := b.last, last := [CH_QUOTE] } else b) k
    | none =>
      if identStartAt s i then
        let ⟨e, later⟩ := wordEnd s (i + 1)
        match b.word (if e - i ≤ 11 then toLowerCase (slice s i e) else utf16 "word") with
        | none => .stop true
        | some b => .go b ⟨e, later⟩
      else if spaceAt s i then .go b (next i)
      else .go { b with beforeLast := b.last, last := s[i]?.toList } (next i))
    (fun b _ => b.blocks = [] ∧ b.own ∧ b.beforeLast = utf16 "end" ∧ b.last = [CH_SEMI])
    ⟨[], 0, false, [], []⟩

/-- Whether a stretch holds a `begin` or an `asm`. -/
def holdsBlock (s : JsString) (r : Range) : Bool :=
  scan r.1 r.2 (fun () ⟨i, _⟩ =>
    match commentOrStringEnd s i with
    | some k => .go () k
    | none =>
      if identStartAt s i then
        let ⟨e, later⟩ := wordEnd s (i + 1)
        let word := toLowerCase (slice s i e)
        if (e - i = 3 ∨ e - i = 5) ∧ (word = utf16 "begin" ∨ word = utf16 "asm") then .stop true
        else .go () ⟨e, later⟩
      else .go () (next i)) (fun _ _ => false) ()

/-- The first place that is neither white space nor in a comment, where a group's directive is none. -/
def skipTriviaToGroup (s : JsString) (i : Nat) (groups : List (ConditionalGroup s)) : From i :=
  scan i s.length (fun () j =>
    if spaceAt s j then .go () (next j)
    else if isCommentStart s j ∧ groupAt groups j = none then
      match commentOrStringEnd s j with
      | some k => .go () k
      | none => .stop j
    else .stop j) (fun () j => j) ()

theorem group_on {groups : {gs : List (ConditionalGroup s) // Ordered gs}} {group : ConditionalGroup s}
    {i j : Nat} {at_ : From i} (past : at_.1 ≤ j) (found : groupAt groups.1 j = some group) :
    at_.1 + 1 ≤ if holdsBlock s (group.opening.stop, group.closing.start) then group.closing.stop
      else group.opening.stop := by
  have ordered := groups.2 group (groupAt_spec found).1
  have here := (groupAt_spec found).2
  have opens := group.opening.forward
  have closes := group.closing.forward
  split <;> omega

def blankConditionalsAfterHeader (s : JsString) (i : Nat)
    (groups : {gs : List (ConditionalGroup s) // Ordered gs}) (ranges : List Range) : List Range :=
  scan i s.length (fun (ranges : List Range) at_ =>
    let ⟨j, past⟩ := skipTriviaToGroup s at_ groups
    match found : groupAt groups.1 j with
    | some group =>
      if group.branches.all (holdsBody s) then .stop ranges
      else
        .go (ranges ++ group.bounds.map Directive.range)
          ⟨if holdsBlock s (group.opening.stop, group.closing.start) then group.closing.stop
            else group.opening.stop, group_on past found⟩
    | none =>
      if lowerWordAt s j ∉ ROUTINE_HINTS then .stop ranges
      else
        match semicolonEnd s j MAX_HEADER_PART_LENGTH with
        | none => .stop ranges
        | some ⟨e, later⟩ => .go ranges ⟨e, From.beyond past later⟩) (fun ranges _ => ranges) ranges

end CodeGraph.Extraction.PascalPreparse
