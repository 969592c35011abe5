import CodeGraph.Foundation.Decisions

/-!
# Codes that are read in step

A code writes each letter as a list of units. When no word begins another and only the first unit of
a word is one that starts words, a coded text can be searched unit by unit: what is found lies at the
boundaries of letters.
-/
namespace CodeGraph.PrefixCodes

variable {α β : Type}

structure Synchronous (code : α → List β) (starts : β → Bool) : Prop where
  word : ∀ a, ∃ u rest, code a = u :: rest ∧ starts u = true ∧ ∀ v ∈ rest, starts v = false
  free : ∀ a b, code a <+: code b → a = b

variable {code : α → List β} {starts : β → Bool}

theorem Synchronous.nonempty (sync : Synchronous code starts) (a : α) : code a ≠ [] := by
  obtain ⟨u, rest, word, _⟩ := sync.word a
  rw [word]
  exact List.cons_ne_nil u rest

theorem Synchronous.head_eq (sync : Synchronous code starts) {a b : α} {xs ys : List β}
    (same : code a ++ xs = code b ++ ys) : a = b := by
  have first : code a <+: code a ++ xs := List.prefix_append _ _
  have second : code b <+: code a ++ xs := same ▸ List.prefix_append _ _
  rcases List.prefix_or_prefix_of_prefix first second with before | before
  · exact sync.free a b before
  · exact (sync.free b a before).symm

theorem Synchronous.prefix_iff (sync : Synchronous code starts) {ps cs : List α} :
    ps.flatMap code <+: cs.flatMap code ↔ ps <+: cs := by
  constructor
  · intro before
    induction ps generalizing cs with
    | nil => exact List.nil_prefix
    | cons p ps ih =>
      rw [List.flatMap_cons] at before
      obtain ⟨rest, whole⟩ := before
      cases cs with
      | nil =>
        have none_ := (List.append_eq_nil_iff.mp (List.append_eq_nil_iff.mp whole).1).1
        exact absurd none_ (sync.nonempty p)
      | cons c cs =>
        rw [List.flatMap_cons, List.append_assoc] at whole
        obtain rfl := sync.head_eq whole
        rw [List.cons_prefix_cons]
        exact ⟨rfl, ih ⟨rest, List.append_cancel_left whole⟩⟩
  · rintro ⟨rest, rfl⟩
    rw [List.flatMap_append]
    exact List.prefix_append _ _

theorem Synchronous.not_prefix_inside (sync : Synchronous code starts) {ps : List α}
    (some_ : ps ≠ []) {v : β} (inside : starts v = false) (xs : List β) :
    ¬ps.flatMap code <+: v :: xs := by
  cases ps with
  | nil => exact absurd rfl some_
  | cons p ps =>
    obtain ⟨u, rest, word, start, _⟩ := sync.word p
    rw [List.flatMap_cons, word, List.cons_append, List.cons_prefix_cons]
    rintro ⟨rfl, _⟩
    exact Bool.false_ne_true (inside.symm.trans start)

variable [DecidableEq β]

/-- The first place at which a list of units stands in another, counted from `start`. -/
def indexFrom (needle : List β) : Nat → List β → Option Nat
  | start, [] => if needle.isPrefixOf [] then some start else none
  | start, u :: units =>
    if needle.isPrefixOf (u :: units) then some start else indexFrom needle (start + 1) units

theorem Synchronous.indexFrom_inside (sync : Synchronous code starts) {ps : List α}
    (some_ : ps ≠ []) {inner : List β} (inside : ∀ v ∈ inner, starts v = false) (start : Nat)
    (xs : List β) :
    indexFrom (ps.flatMap code) start (inner ++ xs) =
      indexFrom (ps.flatMap code) (start + inner.length) xs := by
  induction inner generalizing start with
  | nil => rfl
  | cons v inner ih =>
    have other : (ps.flatMap code).isPrefixOf (v :: (inner ++ xs)) = false := by
      rw [Bool.eq_false_iff, ne_eq, List.isPrefixOf_iff_prefix]
      exact sync.not_prefix_inside some_ (inside v List.mem_cons_self) _
    rw [List.cons_append, indexFrom, other, if_neg Bool.false_ne_true,
      ih fun w listed => inside w (List.mem_cons_of_mem v listed), List.length_cons]
    congr 1
    omega

def firstFrom (code : α → List β) (test : List α → Bool) : Nat → List α → Option Nat
  | start, [] => if test [] then some start else none
  | start, c :: cs =>
    if test (c :: cs) then some start else firstFrom code test (start + (code c).length) cs

theorem Synchronous.indexFrom_eq [DecidableEq α] (sync : Synchronous code starts) {ps : List α}
    (some_ : ps ≠ []) (start : Nat) (cs : List α) :
    indexFrom (ps.flatMap code) start (cs.flatMap code) =
      firstFrom code (fun cs => ps.isPrefixOf cs) start cs := by
  have tests : ∀ cs : List α, (ps.flatMap code).isPrefixOf (cs.flatMap code) = ps.isPrefixOf cs := by
    intro cs
    rw [Bool.eq_iff_iff, List.isPrefixOf_iff_prefix, List.isPrefixOf_iff_prefix]
    exact sync.prefix_iff
  induction cs generalizing start with
  | nil => rw [List.flatMap_nil, indexFrom, firstFrom, ← tests, List.flatMap_nil]
  | cons c cs ih =>
    obtain ⟨u, rest, word, _, inside⟩ := sync.word c
    have here := tests (c :: cs)
    rw [List.flatMap_cons, word, List.cons_append] at here
    rw [List.flatMap_cons, word, List.cons_append, indexFrom, here, firstFrom]
    split
    · rfl
    · rw [sync.indexFrom_inside some_ inside, ih, word, List.length_cons]
      congr 1
      omega

section First

variable {test : List α → Bool} {xs ys : List α} {start i : Nat}

omit [DecidableEq β]

/-- A match that cannot reach into `ys` is searched in `xs` alone, and then in `ys`. -/
theorem firstFrom_append (never : test [] = false)
    (blind : ∀ before after, xs = before ++ after → after ≠ [] → test (after ++ ys) = test after) :
    firstFrom code test start (xs ++ ys) =
      (firstFrom code test start xs).or
        (firstFrom code test (start + (xs.flatMap code).length) ys) := by
  induction xs generalizing start with
  | nil =>
    rw [List.nil_append, firstFrom, never, if_neg Bool.false_ne_true, Option.none_or]
    rfl
  | cons x xs ih =>
    have here := blind [] (x :: xs) rfl (List.cons_ne_nil x xs)
    have blind' : ∀ before after, xs = before ++ after → after ≠ [] →
        test (after ++ ys) = test after := fun before after split =>
      blind (x :: before) after (by rw [split, List.cons_append])
    have later := @ih (start + (code x).length) blind'
    rw [List.cons_append] at here
    rw [List.cons_append, firstFrom, here, firstFrom]
    split
    · rfl
    · rw [later, List.flatMap_cons, List.length_append, Nat.add_assoc]

theorem firstFrom_isSome :
    (firstFrom code test start xs).isSome = true ↔
      ∃ before after, xs = before ++ after ∧ test after = true := by
  induction xs generalizing start with
  | nil =>
    rw [firstFrom]
    constructor
    · intro some_
      split at some_
      next here => exact ⟨[], [], rfl, here⟩
      next => cases some_
    · rintro ⟨before, after, split, here⟩
      obtain ⟨rfl, rfl⟩ := List.append_eq_nil_iff.mp split.symm
      rw [if_pos here]
      rfl
  | cons x xs ih =>
    rw [firstFrom]
    by_cases here : test (x :: xs) = true
    · rw [if_pos here]
      exact iff_of_true rfl ⟨[], x :: xs, rfl, here⟩
    · rw [if_neg here, ih]
      constructor
      · rintro ⟨before, after, rfl, matched⟩
        exact ⟨x :: before, after, rfl, matched⟩
      · rintro ⟨before, after, split, matched⟩
        cases before with
        | nil =>
          rw [List.nil_append] at split
          exact absurd (split ▸ matched) here
        | cons y before =>
          rw [List.cons_append, List.cons.injEq] at split
          exact ⟨before, after, split.2, matched⟩

theorem firstFrom_within (never : test [] = false) (nonempty : ∀ a, code a ≠ [])
    (found : firstFrom code test start xs = some i) :
    start ≤ i ∧ i < start + (xs.flatMap code).length := by
  induction xs generalizing start with
  | nil =>
    rw [firstFrom, never, if_neg Bool.false_ne_true] at found
    cases found
  | cons x xs ih =>
    have long := List.length_pos_of_ne_nil (nonempty x)
    rw [List.flatMap_cons, List.length_append]
    rw [firstFrom] at found
    split at found
    next here =>
      cases found
      omega
    next =>
      obtain ⟨le, less⟩ := ih found
      omega

end First

end CodeGraph.PrefixCodes
