import CodeGraph.Db.NamePatterns
import CodeGraph.Foundation.CharOffsets

/-!
# The index answers as the query

The text of all names is searched name by name: a match is mapped back to its name, and the search
goes on at the next one.
-/
namespace CodeGraph.Db.NameSubstring

open Text Utf16 PrefixCodes CharOffsets InsertionMap

/-! ### The text of the names -/

def textOf (names : List (List Char)) : List Char := names.flatMap (· ++ ['\x00'])

def startOf (names : List (List Char)) (k : Nat) : Nat := units (textOf (names.take k))

variable {names : List (List Char)} {ps : List Char}

theorem startOf_succ {k : Nat} {name : List Char} (found : names[k]? = some name) :
    startOf names (k + 1) = startOf names k + (units name + 1) := by
  rw [startOf, startOf, List.take_add_one, found, Option.toList_some, textOf, List.flatMap_append,
    ← textOf, units_append, List.flatMap_singleton, units_append]
  rfl

theorem startOf_lt {i j : Nat} (less : i < j) (le : j ≤ names.length) :
    startOf names i < startOf names j := by
  have step : ∀ k < names.length, startOf names k < startOf names (k + 1) := by
    intro k within
    rw [startOf_succ (List.getElem?_eq_getElem within)]
    omega
  induction less with
  | refl => exact step i le
  | step _ ih => exact Nat.lt_trans (ih (Nat.le_of_succ_le le)) (step _ le)

theorem drop_startOf (k : Nat) :
    ((textOf names).flatMap charUnits).drop (startOf names k) =
      (textOf (names.drop k)).flatMap charUnits := by
  have split : textOf names = textOf (names.take k) ++ textOf (names.drop k) := by
    rw [textOf, textOf, textOf, ← List.flatMap_append, List.take_append_drop]
  rw [split, List.flatMap_append, startOf, ← length_flatMap_charUnits, List.drop_left]

theorem startsFrom_eq (offset : Nat) :
    startsFrom offset (names.map (·.flatMap charUnits)) =
      (List.range (names.length + 1)).map fun k => offset + startOf names k := by
  induction names generalizing offset with
  | nil => rfl
  | cons name names ih =>
    rw [List.map_cons, startsFrom, ih, List.length_cons, @List.range_succ_eq_map (names.length + 1),
      List.map_cons, List.map_map]
    congr 1
    apply List.map_congr_left
    intro k _
    have first : startOf (name :: names) (k + 1) = units name + 1 + startOf names k := by
      rw [startOf, startOf, List.take_succ_cons, textOf, List.flatMap_cons, units_append,
        units_append]
      rfl
    rw [Function.comp, Nat.succ_eq_add_one, first, length_flatMap_charUnits]
    omega

private theorem getD_starts {k : Nat} (le : k ≤ names.length) :
    (startsFrom 0 (names.map (·.flatMap charUnits))).getD k 0 = startOf names k := by
  rw [startsFrom_eq, List.getD_eq_getElem?_getD, List.getElem?_map,
    List.getElem?_range (Nat.lt_succ_of_le le), Option.map_some, Option.getD_some, Nat.zero_add]

private theorem nameAtLoop_eq {k here fuel lo hi : Nat} {starts : List Nat}
    (before : ∀ i ≤ k, starts.getD i 0 ≤ here) (after : ∀ i, k < i → i ≤ hi → here < starts.getD i 0)
    (above : lo ≤ k) (below : k ≤ hi) (enough : hi - lo ≤ fuel) :
    nameAtLoop starts here fuel lo hi = k := by
  induction fuel generalizing lo hi with
  | zero =>
    rw [nameAtLoop]
    omega
  | succ fuel ih =>
    rw [nameAtLoop]
    split
    next wide =>
      by_cases left : (lo + hi + 1) / 2 ≤ k
      · rw [if_pos (before _ left)]
        exact ih after left below (by omega)
      · have later := after _ (Nat.lt_of_not_le left) (by omega)
        rw [if_neg (Nat.not_le_of_lt later)]
        exact ih (fun i past le => after i past (by omega)) above (by omega) (by omega)
    next => omega

theorem nameAt_eq {k here : Nat} (within : k < names.length) (start : startOf names k ≤ here)
    (stop : here < startOf names (k + 1)) :
    nameAt (startsFrom 0 (names.map (·.flatMap charUnits))) here = k := by
  have length : (startsFrom 0 (names.map (·.flatMap charUnits))).length = names.length + 1 := by
    rw [startsFrom_eq, List.length_map, List.length_range]
  rw [nameAt, length]
  apply nameAtLoop_eq
  · intro i le
    rw [getD_starts (by omega)]
    rcases Nat.lt_or_eq_of_le le with less | rfl
    · exact Nat.le_trans (Nat.le_of_lt (startOf_lt less (Nat.le_of_lt within))) start
    · exact start
  · intro i past le
    rw [getD_starts (by omega)]
    rcases Nat.lt_or_eq_of_le (Nat.succ_le_of_lt past) with less | rfl
    · exact Nat.lt_trans stop (startOf_lt less (by omega))
    · exact stop
  · exact Nat.zero_le k
  · omega
  · omega

private theorem first_textOf_cons (some_ : ps ≠ []) (plain : '\x00' ∉ ps) (start : Nat)
    (name : List Char) (names : List (List Char)) :
    firstFrom charUnits (matchesHead ps) start (textOf (name :: names)) =
      (firstFrom charUnits (matchesHead ps) start name).or
        (firstFrom charUnits (matchesHead ps) (start + (units name + 1)) (textOf names)) := by
  have shape : textOf (name :: names) = name ++ '\x00' :: textOf names := by
    rw [textOf, List.flatMap_cons, ← textOf, List.append_assoc]
    rfl
  have stopped : matchesHead ps ('\x00' :: textOf names) = false := by
    have here : matchesHead ps ([] ++ '\x00' :: textOf names) = matchesHead ps [] :=
      matchesHead_append plain (textOf names)
    rwa [List.nil_append, matchesHead_nil some_] at here
  rw [shape, firstFrom_append (matchesHead_nil some_) fun _ after _ _ =>
    matchesHead_append plain (textOf names)]
  congr 1
  rw [firstFrom, stopped, if_neg Bool.false_ne_true, length_flatMap_charUnits, Nat.add_assoc]
  rfl

def isHit (ps : List Char) (excludePrefix : Bool) (name : List Char) : Bool :=
  (firstFrom charUnits (matchesHead ps) 0 name).isSome && !(excludePrefix && matchesHead ps name)

private theorem firstFrom_found (start : Nat) (name : List Char) :
    (firstFrom charUnits (matchesHead ps) start name).isSome =
      (firstFrom charUnits (matchesHead ps) 0 name).isSome := by
  rw [Bool.eq_iff_iff, firstFrom_isSome, firstFrom_isSome]

/-- What the search uses of the index: the text of its names, and where they start. -/
structure Holds (index : NameSubstringIndex) (names : List (List Char)) : Prop where
  hay : index.hay = List.intercalate [SEPARATOR] (names.map (·.flatMap charUnits)) ++ [SEPARATOR]
  starts : index.starts = startsFrom 0 (names.map (·.flatMap charUnits))

private theorem hay_eq {index : NameSubstringIndex} (holds : Holds index names)
    (some_ : names ≠ []) : index.hay = (textOf names).flatMap charUnits := by
  rw [holds.hay]
  clear holds
  have nul : charUnits '\x00' = [SEPARATOR] := rfl
  induction names with
  | nil => exact absurd rfl some_
  | cons name names ih =>
    cases names with
    | nil =>
      rw [textOf, List.flatMap_singleton, List.flatMap_append, List.flatMap_singleton, nul]
      simp [List.intercalate]
    | cons next names =>
      have rest := ih (List.cons_ne_nil next names)
      rw [textOf, List.flatMap_cons, ← textOf, List.flatMap_append, List.flatMap_append, ← rest,
        List.flatMap_singleton, nul, List.map_cons, List.map_cons, List.intercalate_cons_cons]
      simp

theorem next_eq {index : NameSubstringIndex} {matcher : Matcher}
    (holds : Holds index names) (finds : Finds matcher ps) (some_ : ps ≠ []) (plain : '\x00' ∉ ps)
    (k : Nat) :
    matcher.next index.hay (startOf names k) =
      firstFrom charUnits (matchesHead ps) (startOf names k) (textOf (names.drop k)) := by
  by_cases none_ : names = []
  · subst none_
    -- Without names the text is one separator, which no pattern matches.
    have bare : index.hay.drop (startOf [] k) = ['\x00'].flatMap charUnits := by
      have zero : startOf [] k = 0 := by simp [startOf, textOf]
      rw [holds.hay, zero]
      rfl
    have stopped : matchesHead ps ['\x00'] = false := by
      have here : matchesHead ps ([] ++ ['\x00']) = matchesHead ps [] := matchesHead_append plain []
      rwa [List.nil_append, matchesHead_nil some_] at here
    rw [finds.next _ _ _ bare, List.drop_nil, textOf, List.flatMap_nil]
    simp only [firstFrom, stopped, matchesHead_nil some_]
    rfl
  · apply finds.next
    rw [hay_eq holds none_, drop_startOf]

theorem hitsFrom_eq {index : NameSubstringIndex} {matcher : Matcher} (holds : Holds index names)
    (finds : Finds matcher ps) (some_ : ps ≠ []) (plain : '\x00' ∉ ps) (table : List Bool)
    (excludePrefix : Bool) {k fuel : Nat} (rest : List (List Char)) (later : names.drop k = rest)
    (enough : rest.length < fuel) :
    index.hitsFrom matcher table excludePrefix fuel
        (firstFrom charUnits (matchesHead ps) (startOf names k) (textOf rest)) =
      some ((rest.zipIdx k).flatMap fun entry =>
        if isHit ps excludePrefix entry.1 then index.entriesOf table entry.2 else []) := by
  induction rest generalizing k fuel with
  | nil =>
    obtain ⟨fuel, rfl⟩ := Nat.exists_eq_add_of_lt enough
    rw [textOf, List.flatMap_nil, firstFrom, matchesHead_nil some_, if_neg Bool.false_ne_true]
    rfl
  | cons name rest ih =>
    have found : names[k]? = some name := by
      have first := congrArg List.head? later
      rwa [List.head?_drop] at first
    have later' : names.drop (k + 1) = rest := by
      have tail := congrArg List.tail later
      rwa [List.tail_drop] at tail
    have within : k < names.length := (List.getElem?_eq_some_iff.mp found).1
    rw [List.length_cons] at enough
    rw [first_textOf_cons some_ plain, ← startOf_succ found, List.zipIdx_cons, List.flatMap_cons]
    cases matched : firstFrom charUnits (matchesHead ps) (startOf names k) name with
    | none =>
      have missed : isHit ps excludePrefix name = false := by
        rw [isHit, ← firstFrom_found (startOf names k), matched]
        rfl
      rw [Option.none_or, missed, if_neg Bool.false_ne_true, List.nil_append]
      exact ih later' (by omega)
    | some here =>
      obtain ⟨fuel, rfl⟩ := Nat.exists_eq_add_of_lt (Nat.zero_lt_of_lt enough)
      obtain ⟨start, stop⟩ := firstFrom_within (matchesHead_nil some_) synchronous.nonempty matched
      rw [length_flatMap_charUnits] at stop
      have at_ : nameAt index.starts here = k := by
        rw [holds.starts]
        apply nameAt_eq within start
        rw [startOf_succ found]
        omega
      have begins : matcher.startsAt index.hay (startOf names k) = matchesHead ps name := by
        have follows : index.hay.drop (startOf names k) =
            (name ++ '\x00' :: textOf rest).flatMap charUnits := by
          rw [hay_eq holds (List.ne_nil_of_length_pos (by omega)), drop_startOf, later, textOf,
            List.flatMap_cons, ← textOf, List.append_assoc]
          rfl
        rw [finds.startsAt _ _ _ follows, matchesHead_append plain]
      have hit : isHit ps excludePrefix name = !(excludePrefix && matchesHead ps name) := by
        rw [isHit, ← firstFrom_found (startOf names k), matched]
        rfl
      have first : index.starts.getD k 0 = startOf names k := by
        rw [holds.starts, getD_starts (Nat.le_of_lt within)]
      have second : index.starts.getD (k + 1) 0 = startOf names (k + 1) := by
        rw [holds.starts, getD_starts within]
      have shorter : rest.length < 0 + fuel := by omega
      have onward := ih later' shorter
      rw [Option.some_or, NameSubstringIndex.hitsFrom]
      simp only [at_, first, second, begins, next_eq holds finds some_ plain, later', onward, hit,
        Option.map_some]
      cases excludePrefix && matchesHead ps name with
      | true => rfl
      | false => rfl

end CodeGraph.Db.NameSubstring
