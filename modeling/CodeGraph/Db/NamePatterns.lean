import CodeGraph.Db.NameSubstringIndex

/-!
# Patterns on names

Both ways of matching, the plain search and the one with wildcards, are one search over characters.
-/
namespace CodeGraph.Db.NameSubstring

open Text Utf16 PrefixCodes

/-- Whether a text begins with a match: `_` is any character, and letters of ASCII are compared
without case. -/
def BeginsWith : List Char → List Char → Prop
  | [], _ => True
  | _ :: _, [] => False
  | p :: ps, c :: cs => (p = '_' ∨ p.toLower = c.toLower) ∧ BeginsWith ps cs

instance decidableBeginsWith : (ps cs : List Char) → Decidable (BeginsWith ps cs)
  | [], _ => isTrue trivial
  | _ :: _, [] => isFalse id
  | _ :: ps, _ :: cs => @instDecidableAnd _ _ _ (decidableBeginsWith ps cs)

def Contains (pattern name : String) : Prop :=
  ∃ before after, name.toList = before ++ after ∧ BeginsWith pattern.toList after

def StartsWith (pattern name : String) : Prop := BeginsWith pattern.toList name.toList

theorem toNat_toLower (c : Char) :
    c.toLower.val.toNat = if 65 ≤ c.val.toNat ∧ c.val.toNat ≤ 90 then c.val.toNat + 32
      else c.val.toNat := by
  have bounds : (c.val ≥ 'A'.val ∧ c.val ≤ 'Z'.val) ↔ 65 ≤ c.val.toNat ∧ c.val.toNat ≤ 90 := by
    rw [ge_iff_le, UInt32.le_iff_toNat_le, UInt32.le_iff_toNat_le]
    rfl
  rw [Char.toLower]
  split
  next upper =>
    rw [if_pos (bounds.mp upper)]
    change (c.val + 32).toNat = _
    rw [UInt32.toNat_add]
    have := bounds.mp upper
    change (c.val.toNat + 32) % 2 ^ 32 = _
    omega
  next other => rw [if_neg fun upper => other (bounds.mpr upper)]

theorem toLower_eq_iff {c d : Char} (plain : d.val.toNat < 65 ∨ 90 < d.val.toNat ∧ d.val.toNat < 97) :
    c.toLower = d ↔ c = d := by
  have value := toNat_toLower c
  constructor
  · intro same
    apply Char.ext
    apply UInt32.toNat_inj.mp
    rw [same] at value
    split at value <;> omega
  · rintro rfl
    apply Char.ext
    apply UInt32.toNat_inj.mp
    rw [value]
    split <;> omega

theorem toLower_underscore {c : Char} : c.toLower = '_' ↔ c = '_' := toLower_eq_iff (by decide)

theorem toLower_nul {c : Char} : c.toLower = '\x00' ↔ c = '\x00' := toLower_eq_iff (by decide)

def lowered (s : String) : List Char := s.toList.map Char.toLower

theorem mem_lowered {s : String} {d : Char}
    (plain : d.val.toNat < 65 ∨ 90 < d.val.toNat ∧ d.val.toNat < 97) :
    d ∈ lowered s ↔ d ∈ s.toList := by
  rw [lowered, List.mem_map]
  constructor
  · rintro ⟨c, listed, same⟩
    rwa [← (toLower_eq_iff plain).mp same]
  · intro listed
    exact ⟨d, listed, (toLower_eq_iff plain).mpr rfl⟩

private theorem charUnits_toLower (c : Char) : asciiLower (charUnits c) = charUnits c.toLower := by
  have value := toNat_toLower c
  have upper : ∀ u : UInt16, (0x41 ≤ u && u ≤ 0x5A) = true ↔ 65 ≤ u.toNat ∧ u.toNat ≤ 90 := by
    intro u
    simp only [Bool.and_eq_true, decide_eq_true_eq, UInt16.le_iff_toNat_le]
    rfl
  rcases charUnits_cases c with ⟨u, word, unit, _⟩ | ⟨high, low, word, is_high, is_low, _, _, large⟩
  · have small : c.val.toNat < 0x10000 := by
      rw [← unit]
      exact u.toNat_lt
    rw [word, asciiLower, List.map_cons, List.map_nil]
    rcases charUnits_cases c.toLower with ⟨v, word', unit', _⟩ | ⟨_, _, _, _, _, _, _, large⟩
    · rw [word', List.cons.injEq]
      refine ⟨UInt16.toNat_inj.mp ?_, rfl⟩
      rw [unit', value, ← unit]
      by_cases letter : 65 ≤ u.toNat ∧ u.toNat ≤ 90
      · rw [if_pos letter, if_pos ((upper u).mpr letter), UInt16.toNat_add]
        change (u.toNat + 32) % 2 ^ 16 = _
        omega
      · rw [if_neg letter, if_neg fun letter' => letter ((upper u).mp letter')]
    · split at value <;> omega
  · -- No surrogate is a letter.
    have same : c.toLower = c := by
      apply Char.ext
      apply UInt32.toNat_inj.mp
      rw [value, if_neg (by omega)]
    rw [isHigh_iff] at is_high
    rw [isLow_iff] at is_low
    rw [same, word, asciiLower, List.map_cons, List.map_cons, List.map_nil,
      if_neg fun letter => by have := (upper high).mp letter; omega,
      if_neg fun letter => by have := (upper low).mp letter; omega]

theorem asciiLower_utf16 (s : String) : asciiLower (utf16 s) = (lowered s).flatMap charUnits := by
  rw [utf16, lowered]
  induction s.toList with
  | nil => rfl
  | cons c cs ih =>
    rw [List.flatMap_cons, List.map_cons, List.flatMap_cons, ← charUnits_toLower, ← ih]
    exact List.map_append

/-! ### Matching -/

/-- A match of a lowered pattern at the start of a lowered text, which does not reach over the end of
a name. -/
def matchesHead : List Char → List Char → Bool
  | [], _ => true
  | _ :: _, [] => false
  | p :: ps, c :: cs => (if p = '_' then c ≠ '\x00' else c = p) && matchesHead ps cs

theorem matchesHead_nil {ps : List Char} (some_ : ps ≠ []) : matchesHead ps [] = false := by
  cases ps with
  | nil => exact absurd rfl some_
  | cons p ps => rfl

/-- A match in a name does not depend on the names after it. -/
theorem matchesHead_append {ps cs : List Char} (plain : '\x00' ∉ ps) (rest : List Char) :
    matchesHead ps (cs ++ '\x00' :: rest) = matchesHead ps cs := by
  induction cs generalizing ps with
  | nil =>
    cases ps with
    | nil => rfl
    | cons p ps =>
      have other : '\x00' ≠ p := fun same => plain (same ▸ List.mem_cons_self)
      rw [List.nil_append, matchesHead]
      by_cases wild : p = '_'
      · simp [wild, matchesHead]
      · simp [wild, other, matchesHead]
  | cons c cs ih =>
    cases ps with
    | nil => rfl
    | cons p ps =>
      rw [List.cons_append, matchesHead, matchesHead,
        ih fun listed => plain (List.mem_cons_of_mem p listed)]

theorem matchesHead_lowered {ps cs : List Char} (plain : '\x00' ∉ cs) :
    matchesHead (ps.map Char.toLower) (cs.map Char.toLower) = true ↔ BeginsWith ps cs := by
  induction ps generalizing cs with
  | nil => exact iff_of_true rfl trivial
  | cons p ps ih =>
    cases cs with
    | nil => exact iff_of_false Bool.false_ne_true id
    | cons c cs =>
      have other : c ≠ '\x00' := fun same => plain (same ▸ List.mem_cons_self)
      rw [List.map_cons, List.map_cons, matchesHead, BeginsWith, Bool.and_eq_true,
        ih fun listed => plain (List.mem_cons_of_mem c listed)]
      apply and_congr_left
      intro _
      by_cases wild : p = '_'
      · subst wild
        have lowered_ : Char.toLower '_' = '_' := rfl
        have other' : c.toLower ≠ '\x00' := fun same => other (toLower_nul.mp same)
        simp [lowered_, other']
      · have wild' : p.toLower ≠ '_' := fun same => wild (toLower_underscore.mp same)
        simp [wild, wild', eq_comm]

theorem matchesHead_plain {ps cs : List Char} (plain : '_' ∉ ps) :
    matchesHead ps cs = ps.isPrefixOf cs := by
  induction ps generalizing cs with
  | nil => cases cs <;> rfl
  | cons p ps ih =>
    cases cs with
    | nil => rfl
    | cons c cs =>
      have tame : p ≠ '_' := fun same => plain (same ▸ List.mem_cons_self)
      rw [matchesHead, List.isPrefixOf, ih fun listed => plain (List.mem_cons_of_mem p listed),
        if_neg tame]
      congr 1
      rw [Bool.eq_iff_iff, decide_eq_true_eq, beq_iff_eq, eq_comm]

private theorem pointsMatch_eq (ps cs : List Char) :
    pointsMatch (ps.map charUnits) (cs.map charUnits) = matchesHead ps cs := by
  have word {c d : Char} : charUnits c = charUnits d ↔ c = d :=
    ⟨charUnits_injective, fun same => same ▸ rfl⟩
  have wild : ([underscore] : JsString) = charUnits '_' := rfl
  have nul : ([SEPARATOR] : JsString) = charUnits '\x00' := rfl
  induction ps generalizing cs with
  | nil => cases cs <;> rfl
  | cons p ps ih =>
    cases cs with
    | nil => rfl
    | cons c cs =>
      rw [List.map_cons, List.map_cons, pointsMatch, matchesHead, ih, wild, nul]
      simp only [ne_eq, word]

private theorem scan_eq (ps : List Char) (start : Nat) (cs : List Char) :
    scan (ps.map charUnits) start (cs.map charUnits) =
      firstFrom charUnits (matchesHead ps) start cs := by
  induction cs generalizing start with
  | nil => rw [List.map_nil, scan, firstFrom, ← pointsMatch_eq, List.map_nil]
  | cons c cs ih =>
    rw [List.map_cons, scan, firstFrom, ← pointsMatch_eq, List.map_cons, ih]

structure Finds (matcher : Matcher) (ps : List Char) : Prop where
  next : ∀ (hay : JsString) (start : Nat) (cs : List Char), hay.drop start = cs.flatMap charUnits →
    matcher.next hay start = firstFrom charUnits (matchesHead ps) start cs
  startsAt : ∀ (hay : JsString) (start : Nat) (cs : List Char), hay.drop start = cs.flatMap charUnits →
    matcher.startsAt hay start = matchesHead ps cs

theorem patternMatcher_finds {ps : List Char} (some_ : ps ≠ []) :
    Finds (patternMatcher (ps.flatMap charUnits)) ps := by
  have wild : (ps.flatMap charUnits).contains underscore = true ↔ '_' ∈ ps := by
    rw [List.contains_iff_mem]
    exact mem_flatMap_charUnits rfl (by decide)
  rw [patternMatcher]
  split
  next =>
    constructor
    · intro hay start cs follows
      dsimp only
      rw [follows, codePoints_flatMap, codePoints_flatMap, scan_eq]
    · intro hay start cs follows
      dsimp only
      rw [follows, codePoints_flatMap, codePoints_flatMap, pointsMatch_eq]
  next tame =>
    have tests : matchesHead ps = fun cs => ps.isPrefixOf cs :=
      funext fun cs => matchesHead_plain fun listed => tame (wild.mpr listed)
    constructor
    · intro hay start cs follows
      dsimp only
      rw [follows, tests, synchronous.indexFrom_eq some_]
    · intro hay start cs follows
      dsimp only
      rw [follows, tests, Bool.eq_iff_iff, List.isPrefixOf_iff_prefix, List.isPrefixOf_iff_prefix]
      exact synchronous.prefix_iff

end CodeGraph.Db.NameSubstring
