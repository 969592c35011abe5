import CodeGraph.Resolution.PythonHeaders

/-!
# The pieces that the scan reads

The scan cuts the list at the commas outside brackets and takes a name from each piece. What a text
adds to the names is known from where in a piece it begins, and texts are put together so.
-/
namespace CodeGraph.Resolution.PythonParams

open RustText

variable {classes : WordClasses}

/-- The pieces, the first of which has begun with `cur`. -/
def pieces : Nat → List Char → List Char → List (List Char)
  | depth, cur, [] => if depth = 0 then [cur] else []
  | depth, cur, c :: rest =>
    if isOpen c then pieces (depth + 1) (cur ++ [c]) rest
    else if isClose c then pieces (depth - 1) (cur ++ [c]) rest
    else if c = ',' ∧ depth = 0 then cur :: pieces 0 [] rest
    else pieces depth (cur ++ [c]) rest

def pieceNames (classes : WordClasses) (depth : Nat) (cur rest : List Char) : List (List Char) :=
  (pieces depth cur rest).filterMap (pieceName classes)

private theorem scan_pieces (rest before : List Char) (s : Scan) (le : s.start ≤ before.length) :
    (((rest ++ [',']).zipIdx before.length).foldl (scanChar classes (before ++ rest)) s).out =
      s.out ++ pieceNames classes s.depth (before.drop s.start) rest := by
  induction rest generalizing before s with
  | nil =>
    have comma : isOpen ',' = false ∧ isClose ',' = false := by decide
    simp only [List.nil_append, List.zipIdx_cons, List.zipIdx_nil, List.foldl_cons, List.foldl_nil,
      List.append_nil, scanChar, comma, Bool.false_eq_true, if_false, true_and, pieceNames, pieces]
    split
    · rw [List.take_length, List.filterMap_cons, List.filterMap_nil]
      cases pieceName classes (before.drop s.start) with
      | none => rfl
      | some name => rfl
    · rw [List.filterMap_nil, List.append_nil]
  | cons c rest ih =>
    have split_ : before ++ c :: rest = (before ++ [c]) ++ rest := by simp
    have count : (before ++ [c]).length = before.length + 1 := List.length_append
    have later (s' : Scan) (le' : s'.start ≤ before.length + 1) :
        (((rest ++ [',']).zipIdx (before.length + 1)).foldl
          (scanChar classes (before ++ c :: rest)) s').out =
          s'.out ++ pieceNames classes s'.depth ((before ++ [c]).drop s'.start) rest := by
      rw [split_, ← count]
      exact ih (before ++ [c]) s' (count ▸ le')
    have grow : (before ++ [c]).drop s.start = before.drop s.start ++ [c] :=
      List.drop_append_of_le_length le
    rw [List.cons_append, List.zipIdx_cons, List.foldl_cons, pieceNames, pieces]
    rw [scanChar]
    dsimp only
    split
    next =>
      rw [later ⟨s.depth + 1, s.start, s.out⟩ (Nat.le_succ_of_le le), grow, pieceNames]
    next =>
      split
      next => rw [later ⟨s.depth - 1, s.start, s.out⟩ (Nat.le_succ_of_le le), grow, pieceNames]
      next =>
        split
        next cut =>
          rw [later _ (Nat.le_refl _), ← count, List.drop_length, cut.2, pieceNames,
            List.take_left, List.filterMap_cons]
          cases pieceName classes (before.drop s.start) with
          | none => simp
          | some name => simp
        next => rw [later _ (Nat.le_succ_of_le le), grow, pieceNames]

theorem pythonParamNames_eq (params : List Char) :
    pythonParamNames classes params = pieceNames classes 0 [] params :=
  scan_pieces params [] ⟨0, 0, []⟩ (Nat.le_refl 0)

/-! ### Texts between two states of a piece -/

/-- A piece that begins so has the name `name`, whatever follows. -/
def Fixed (classes : WordClasses) (cur : List Char) (name : Option (List Char)) : Prop :=
  ∀ t, pieceName classes (cur ++ t) = name

def Stops (t : List Char) : Prop := t = [] ∨ ∃ c rest, t = c :: rest ∧ (c = ':' ∨ c = '=')

/-- A piece that begins so has the name `name`, if a parameter's name ends there. -/
def Ended (classes : WordClasses) (cur : List Char) (name : Option (List Char)) : Prop :=
  ∀ t, Stops t → pieceName classes (cur ++ t) = name

def Fresh (_ : WordClasses) (cur : List Char) (name : Option (List Char)) : Prop :=
  cur = [] ∧ name = none

abbrev PieceState := WordClasses → List Char → Option (List Char) → Prop

/-- From a piece in the state `K` the text leads to one in the state `K'`, and adds `names`. -/
def Passes (classes : WordClasses) (K K' : PieceState) (text : List Char)
    (names : List (List Char)) : Prop :=
  ∀ cur name, K classes cur name → ∃ given cur' name', K' classes cur' name' ∧
    given ++ name'.toList = name.toList ++ names ∧
    ∀ rest, pieceNames classes 0 cur (text ++ rest) = given ++ pieceNames classes 0 cur' rest

section Passes

variable {K K' K'' : PieceState} {text text' : List Char} {names names' : List (List Char)} {c : Char}

theorem Passes.append (first : Passes classes K K' text names)
    (second : Passes classes K' K'' text' names') :
    Passes classes K K'' (text ++ text') (names ++ names') := by
  intro cur name state
  obtain ⟨given, cur', name', state', adds, reads⟩ := first cur name state
  obtain ⟨given', cur'', name'', state'', adds', reads'⟩ := second cur' name' state'
  refine ⟨given ++ given', cur'', name'', state'', ?_, fun rest => ?_⟩
  · rw [List.append_assoc, adds', ← List.append_assoc, adds, List.append_assoc]
  · rw [List.append_assoc, reads, reads', List.append_assoc]

theorem Passes.nil : Passes classes K K [] [] := by
  intro cur name state
  exact ⟨[], cur, name, state, by simp, fun rest => rfl⟩

theorem Fixed.ended {cur : List Char} {name : Option (List Char)} (fixed : Fixed classes cur name) :
    Ended classes cur name :=
  fun t _ => fixed t

theorem Passes.ended : Passes classes Fixed Ended [] [] := by
  intro cur name state
  exact ⟨[], cur, name, state.ended, by simp, fun rest => rfl⟩

theorem pieceNames_plain (plain : isPlain c = true) (depth : Nat) (cur rest : List Char) :
    pieceNames classes depth cur (c :: rest) = pieceNames classes depth (cur ++ [c]) rest := by
  rw [isPlain, Bool.and_eq_true, Bool.and_eq_true, bne_iff_ne] at plain
  obtain ⟨⟨open_, close⟩, comma⟩ := plain
  rw [pieceNames, pieces, if_neg, if_neg, if_neg, pieceNames]
  · exact fun h => comma h.1
  · simpa using close
  · simpa using open_

theorem Fixed.append {cur : List Char} {name : Option (List Char)} (fixed : Fixed classes cur name)
    (t : List Char) : Fixed classes (cur ++ t) name := by
  intro t'
  rw [List.append_assoc]
  exact fixed _

theorem pieceNames_chars (plain : ∀ c ∈ text, isPlain c = true) (cur rest : List Char) :
    pieceNames classes 0 cur (text ++ rest) = pieceNames classes 0 (cur ++ text) rest := by
  induction text generalizing cur with
  | nil => rw [List.nil_append, List.append_nil]
  | cons c text ih =>
    rw [List.cons_append, pieceNames_plain (plain c List.mem_cons_self),
      ih fun d mem => plain d (List.mem_cons_of_mem c mem), List.append_assoc, List.singleton_append]

theorem Passes.chars (plain : ∀ c ∈ text, isPlain c = true) :
    Passes classes Fixed Fixed text [] := by
  intro cur name fixed
  exact ⟨[], cur ++ text, name, fixed.append text, by simp, pieceNames_chars plain cur⟩

theorem Passes.stop (stop : c = ':' ∨ c = '=') : Passes classes Ended Fixed [c] [] := by
  intro cur name ended
  have plain : isPlain c = true := by
    rcases stop with rfl | rfl
    · rfl
    · rfl
  refine ⟨[], cur ++ [c], name, fun t => ?_, by simp, fun rest => ?_⟩
  · rw [List.append_assoc]
    exact ended _ (Or.inr ⟨c, t, rfl, stop⟩)
  · exact pieceNames_plain plain 0 cur rest

theorem Passes.comma : Passes classes Ended Fresh [','] [] := by
  intro cur name ended
  have here : pieceName classes cur = name := by
    rw [← ended [] (Or.inl rfl), List.append_nil]
  refine ⟨name.toList, [], none, ⟨rfl, rfl⟩, by simp, fun rest => ?_⟩
  have signs : isOpen ',' = false ∧ isClose ',' = false := by decide
  rw [List.singleton_append, pieceNames, pieces]
  simp only [signs, Bool.false_eq_true, if_false, and_self, if_true]
  rw [List.filterMap_cons, here]
  cases name with
  | none => rfl
  | some name => rfl

theorem Bracket.signs (kind : Bracket) : isOpen kind.open_ = true ∧ isOpen kind.close = false ∧
    isClose kind.close = true := by
  cases kind with
  | round => decide
  | square => decide
  | curly => decide

theorem pieceNames_open (kind : Bracket) (depth : Nat) (cur rest : List Char) :
    pieceNames classes depth cur (kind.open_ :: rest) =
      pieceNames classes (depth + 1) (cur ++ [kind.open_]) rest := by
  rw [pieceNames, pieces, if_pos kind.signs.1, pieceNames]

theorem pieceNames_close (kind : Bracket) (depth : Nat) (cur rest : List Char) :
    pieceNames classes (depth + 1) cur (kind.close :: rest) =
      pieceNames classes depth (cur ++ [kind.close]) rest := by
  obtain ⟨_, other, closes⟩ := kind.signs
  rw [pieceNames, pieces, if_neg (by rw [other]; nofun), if_pos closes, Nat.add_sub_cancel,
    pieceNames]

theorem pieceNames_balanced (b : Balanced) (depth : Nat) (cur rest : List Char) :
    pieceNames classes (depth + 1) cur (b.text ++ rest) =
      pieceNames classes (depth + 1) (cur ++ b.text) rest := by
  induction b generalizing depth cur rest with
  | done => rw [Balanced.text, List.nil_append, List.append_nil]
  | char c other inner ih =>
    obtain ⟨open_, close⟩ := Bool.or_eq_false_iff.mp other
    have step : pieceNames classes (depth + 1) cur (c :: (inner.text ++ rest)) =
        pieceNames classes (depth + 1) (cur ++ [c]) (inner.text ++ rest) := by
      rw [pieceNames, pieces]
      simp only [open_, close, Bool.false_eq_true, if_false, Nat.succ_ne_zero, and_false]
      rw [pieceNames]
    rw [Balanced.text, List.cons_append, step, ih, List.append_assoc, List.singleton_append]
  | group kind inner later ih ih' =>
    rw [Balanced.text]
    simp only [List.cons_append, List.append_assoc]
    rw [pieceNames_open, ih, pieceNames_close, ih']
    simp

theorem Passes.group (kind : Bracket) (inner : Balanced) :
    Passes classes Fixed Fixed (kind.open_ :: inner.text ++ [kind.close]) [] := by
  intro cur name fixed
  refine ⟨[], cur ++ (kind.open_ :: inner.text ++ [kind.close]), name, fixed.append _, by simp,
    fun rest => ?_⟩
  simp only [List.cons_append, List.append_assoc, List.nil_append]
  rw [pieceNames_open, pieceNames_balanced, pieceNames_close]
  simp

end Passes

end CodeGraph.Resolution.PythonParams
