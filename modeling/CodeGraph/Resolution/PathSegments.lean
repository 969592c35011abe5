import CodeGraph.Resolution.Paths

/-!
# Normalised paths

A normalised path is a way up, if it is relative, and then names; it leads where the path does.
-/
namespace CodeGraph.Resolution.Paths

variable {p : Str} {seg : Str} {out names folder : List Str} {absolute : Bool}

structure Proper (seg : Str) : Prop where
  nonempty : seg ≠ []
  other : seg ≠ here
  down : seg ≠ up
  plain : '/' ∉ seg

theorem enter_proper (proper : Proper seg) : enter folder seg = folder ++ [seg] := by
  simp [enter, proper.nonempty, proper.other, proper.down]

theorem foldl_enter_proper (proper : ∀ s ∈ names, Proper s) :
    names.foldl enter folder = folder ++ names := by
  induction names generalizing folder with
  | nil => simp
  | cons seg names ih =>
    rw [List.foldl_cons, enter_proper (proper seg List.mem_cons_self),
      ih fun s listed => proper s (List.mem_cons_of_mem seg listed), List.append_assoc,
      List.singleton_append]

structure Shape (absolute : Bool) (out : List Str) (ups : Nat) (names : List Str) : Prop where
  parts : out = List.replicate ups up ++ names
  proper : ∀ s ∈ names, Proper s
  root : absolute = true → ups = 0

theorem normalizeStep_shape {ups : Nat} (shape : Shape absolute out ups names) (plain : '/' ∉ seg) :
    (∃ ups' names', Shape absolute (normalizeStep absolute out seg) ups' names') ∧
      ∀ folder, (absolute = true → folder = []) →
        (normalizeStep absolute out seg).foldl enter folder =
          enter (out.foldl enter folder) seg := by
  obtain ⟨parts, proper, root⟩ := shape
  rw [normalizeStep]
  split
  next skipped =>
    refine ⟨⟨ups, names, parts, proper, root⟩, fun folder _ => ?_⟩
    rw [enter, if_pos skipped]
  next kept =>
    split
    next above =>
      subst above
      by_cases none_ : names = []
      · subst none_
        rw [List.append_nil] at parts
        have last : out.getLast?.any (· ≠ up) = false := by
          rw [parts, List.getLast?_replicate]
          split <;> simp
        rw [if_neg (Bool.eq_false_iff.mp last)]
        split
        next relative =>
          refine ⟨⟨ups + 1, [], ?_, proper, fun is => ?_⟩, fun folder _ => ?_⟩
          · rw [parts, List.append_nil, List.replicate_succ']
          · simp [is] at relative
          · rw [List.foldl_append]
            rfl
        next fixed =>
          have is : absolute = true := by simpa using fixed
          have empty : out = [] := by
            rw [parts, root is]
            rfl
          refine ⟨⟨ups, [], by rw [parts, List.append_nil], proper, root⟩, fun folder start => ?_⟩
          rw [empty, start is]
          rfl
      · obtain ⟨init, last, rfl⟩ := (List.eq_nil_or_concat' names).resolve_left none_
        have down := (proper last (List.mem_append_right _ List.mem_cons_self)).down
        have init_proper : ∀ s ∈ init, Proper s :=
          fun s listed => proper s (List.mem_append_left _ listed)
        have cut : out = (List.replicate ups up ++ init) ++ [last] := by
          rw [parts, List.append_assoc]
        have popped : out.dropLast = List.replicate ups up ++ init := by
          rw [cut, List.dropLast_concat]
        have some_ : out.getLast?.any (· ≠ up) = true := by
          rw [cut, List.getLast?_concat]
          simpa using down
        rw [if_pos some_]
        refine ⟨⟨ups, init, popped, init_proper, root⟩, fun folder _ => ?_⟩
        have entered : out.foldl enter folder =
            (out.dropLast).foldl enter folder ++ [last] := by
          rw [popped, cut, List.foldl_append]
          exact enter_proper (proper last (List.mem_append_right _ List.mem_cons_self))
        rw [entered]
        exact (List.dropLast_concat).symm
    next below =>
      have name : Proper seg :=
        ⟨fun none_ => kept (Or.inl none_), fun same => kept (Or.inr same), below, plain⟩
      refine ⟨⟨ups, names ++ [seg], by rw [parts, List.append_assoc], ?_, root⟩, fun folder _ => ?_⟩
      · exact forall_snoc proper name
      · rw [List.foldl_append]
        rfl

theorem foldl_normalizeStep {segs : List Str} (plain : ∀ s ∈ segs, '/' ∉ s) {ups : Nat}
    (shape : Shape absolute out ups names) :
    (∃ ups' names', Shape absolute (segs.foldl (normalizeStep absolute) out) ups' names') ∧
      ∀ folder, (absolute = true → folder = []) →
        (segs.foldl (normalizeStep absolute) out).foldl enter folder =
          segs.foldl enter (out.foldl enter folder) := by
  induction segs generalizing out ups names with
  | nil => exact ⟨⟨ups, names, shape⟩, fun _ _ => rfl⟩
  | cons seg segs ih =>
    obtain ⟨⟨ups', names', next⟩, step⟩ := normalizeStep_shape shape (plain seg List.mem_cons_self)
    obtain ⟨last, rest⟩ := ih (fun s listed => plain s (List.mem_cons_of_mem seg listed)) next
    refine ⟨last, fun folder start => ?_⟩
    rw [List.foldl_cons, rest folder start, step folder start, List.foldl_cons]

def kept (p : Str) : List Str := (p.splitOn '/').foldl (normalizeStep (isAbsolute p)) []

theorem kept_shape (p : Str) : ∃ ups names, Shape (isAbsolute p) (kept p) ups names :=
  (foldl_normalizeStep (fun _ listed => Lines.not_mem_of_mem_splitOn listed)
    (⟨rfl, fun _ none_ => (nomatch none_), fun _ => rfl⟩ : Shape _ [] 0 [])).1

theorem kept_location (p : Str) (folder : List Str) :
    (kept p).foldl enter (if isAbsolute p then [] else folder) = location folder p :=
  (foldl_normalizeStep (fun _ listed => Lines.not_mem_of_mem_splitOn listed)
    (⟨rfl, fun _ none_ => (nomatch none_), fun _ => rfl⟩ : Shape _ [] 0 [])).2 _
      fun is => by rw [if_pos is]

theorem Shape.plain {ups : Nat} (shape : Shape absolute out ups names) :
    ∀ s ∈ out, s ≠ [] ∧ '/' ∉ s := by
  intro s listed
  rw [shape.parts] at listed
  rcases List.mem_append.mp listed with above | name
  · rw [List.eq_of_mem_replicate above]
    decide
  · have proper := shape.proper s name
    exact ⟨proper.nonempty, proper.plain⟩

theorem splitOn_joined (plain : ∀ s ∈ out, s ≠ [] ∧ '/' ∉ s) (some_ : out ≠ []) :
    (joined out).splitOn '/' = out :=
  List.splitOn_intercalate '/' (fun s listed => (plain s listed).2) some_

theorem joined_eq_nil (plain : ∀ s ∈ out, s ≠ [] ∧ '/' ∉ s) : joined out = [] ↔ out = [] := by
  constructor
  · intro nothing
    by_contra some_
    have split := splitOn_joined plain some_
    rw [nothing] at split
    have listed : [] ∈ out := by
      rw [← split]
      exact List.mem_cons_self
    exact (plain [] listed).1 rfl
  · rintro rfl
    rfl

/-- A path is relative if its first segment is there. -/
theorem isAbsolute_joined (plain : ∀ s ∈ out, s ≠ [] ∧ '/' ∉ s) : isAbsolute (joined out) = false := by
  cases out with
  | nil => rfl
  | cons seg out =>
    obtain ⟨some_, none_⟩ := plain seg List.mem_cons_self
    obtain ⟨c, rest, rfl⟩ := List.exists_cons_of_ne_nil some_
    have other : c ≠ '/' := fun same => none_ (same ▸ List.mem_cons_self)
    have head : (joined ((c :: rest) :: out)).head? = some c := by
      cases out with
      | nil => rfl
      | cons next out =>
        rw [joined, List.intercalate_cons_cons]
        rfl
    rw [isAbsolute, head]
    simpa using other

def written (absolute : Bool) (out : List Str) : Str :=
  if absolute then '/' :: joined out else if out = [] then here else joined out

theorem pos_normalize_eq (p : Str) : pos_normalize p = written (isAbsolute p) (kept p) := by
  obtain ⟨ups, names, shape⟩ := kept_shape p
  rw [pos_normalize, written]
  split
  next => rfl
  next => exact if_congr (joined_eq_nil shape.plain) rfl rfl

theorem isAbsolute_written {ups : Nat} (shape : Shape absolute out ups names) :
    isAbsolute (written absolute out) = absolute := by
  rw [written]
  split
  next is => rw [is]; rfl
  next not_ =>
    have is : absolute = false := by simpa using not_
    rw [is]
    split
    next => rfl
    next => exact isAbsolute_joined shape.plain

theorem foldl_written {σ : Type} {f : σ → Str → σ} (skips : ∀ s, f s [] = s ∧ f s here = s) {ups : Nat}
    (shape : Shape absolute out ups names) (s : σ) :
    ((written absolute out).splitOn '/').foldl f s = out.foldl f s := by
  have empty : out = [] → joined out = [] := by
    rintro rfl
    rfl
  rw [written]
  split
  next =>
    have cut : ('/' :: joined out).splitOn '/' = [] :: (joined out).splitOn '/' :=
      List.splitOn_append_cons_self_of_not_mem (List.not_mem_nil (a := '/')) _
    rw [cut, List.foldl_cons, (skips s).1]
    by_cases none_ : out = []
    · subst none_
      exact (skips s).1
    · rw [splitOn_joined shape.plain none_]
  next =>
    split
    next none_ =>
      subst none_
      exact (skips s).2
    next some_ => rw [splitOn_joined shape.plain some_]

theorem foldl_normalizeStep_proper {names : List Str} (proper : ∀ s ∈ names, Proper s) :
    names.foldl (normalizeStep absolute) out = out ++ names := by
  induction names generalizing out with
  | nil => simp
  | cons seg names ih =>
    have first := proper seg List.mem_cons_self
    have pushed : normalizeStep absolute out seg = out ++ [seg] := by
      simp [normalizeStep, first.nonempty, first.other, first.down]
    rw [List.foldl_cons, pushed, ih fun s listed => proper s (List.mem_cons_of_mem seg listed),
      List.append_assoc, List.singleton_append]

theorem foldl_normalizeStep_ups (ups : Nat) :
    (List.replicate ups up).foldl (normalizeStep false) [] = List.replicate ups up := by
  induction ups with
  | zero => rfl
  | succ ups ih =>
    have last : (List.replicate ups up).getLast?.any (· ≠ up) = false := by
      rw [List.getLast?_replicate]
      split <;> simp
    have name : ¬(up = [] ∨ up = here) := by decide
    rw [List.replicate_succ', List.foldl_append, ih, List.foldl_cons, List.foldl_nil, normalizeStep,
      if_neg name, if_pos rfl, if_neg (Bool.eq_false_iff.mp last)]
    rfl

theorem foldl_normalizeStep_kept {ups : Nat} (shape : Shape absolute out ups names) :
    out.foldl (normalizeStep absolute) [] = out := by
  obtain ⟨parts, proper, root⟩ := shape
  rw [parts, List.foldl_append, foldl_normalizeStep_proper proper]
  cases absolute with
  | true =>
    rw [root rfl]
    rfl
  | false => rw [foldl_normalizeStep_ups]

theorem pos_normalize_idempotent (p : Str) : pos_normalize (pos_normalize p) = pos_normalize p := by
  obtain ⟨ups, names, shape⟩ := kept_shape p
  have skips : ∀ s, normalizeStep (isAbsolute p) s [] = s ∧ normalizeStep (isAbsolute p) s here = s :=
    fun s => ⟨if_pos (Or.inl rfl), if_pos (Or.inr rfl)⟩
  have again : kept (pos_normalize p) = kept p := by
    rw [kept, pos_normalize_eq, isAbsolute_written shape, foldl_written skips shape,
      foldl_normalizeStep_kept shape]
  rw [pos_normalize_eq (pos_normalize p), again, pos_normalize_eq p, isAbsolute_written shape]

theorem location_normalize (folder : List Str) (p : Str) :
    location folder (pos_normalize p) = location folder p := by
  obtain ⟨ups, names, shape⟩ := kept_shape p
  have skips : ∀ s, enter s [] = s ∧ enter s here = s :=
    fun s => ⟨if_pos (Or.inl rfl), if_pos (Or.inr rfl)⟩
  rw [location, pos_normalize_eq, isAbsolute_written shape, foldl_written skips shape, kept_location]

theorem enter_keeps (proper : ∀ s ∈ folder, Proper s) (plain : '/' ∉ seg) :
    ∀ s ∈ enter folder seg, Proper s := by
  intro s listed
  rw [enter] at listed
  split at listed
  next => exact proper s listed
  next kept =>
    split at listed
    next => exact proper s (List.dropLast_subset folder listed)
    next below =>
      rcases mem_snoc.mp listed with old | new
      · exact proper s old
      · rw [new]
        exact ⟨fun none_ => kept (Or.inl none_), fun same => kept (Or.inr same), below, plain⟩

theorem location_proper (proper : ∀ s ∈ folder, Proper s) (p : Str) :
    ∀ s ∈ location folder p, Proper s := by
  have all : ∀ (segs folder : List Str), (∀ s ∈ segs, '/' ∉ s) → (∀ s ∈ folder, Proper s) →
      ∀ s ∈ segs.foldl enter folder, Proper s := by
    intro segs
    induction segs with
    | nil => exact fun _ _ proper => proper
    | cons seg segs ih =>
      intro folder plain proper
      exact ih _ (fun s listed => plain s (List.mem_cons_of_mem seg listed))
        (enter_keeps proper (plain seg List.mem_cons_self))
  refine all _ _ (fun s listed => Lines.not_mem_of_mem_splitOn listed) ?_
  split
  next => exact fun s none_ => nomatch none_
  next => exact proper

theorem pos_normalize_absolute (is : isAbsolute p = true) (folder : List Str) :
    pos_normalize p = '/' :: joined (location folder p) := by
  obtain ⟨ups, names, shape⟩ := kept_shape p
  have start : kept p = location folder p := by
    rw [← kept_location p folder, if_pos is]
    rw [is] at shape
    have parts := shape.parts
    rw [shape.root rfl] at parts
    rw [parts]
    exact (foldl_enter_proper shape.proper).symm
  rw [pos_normalize_eq, written, if_pos is, start]

end CodeGraph.Resolution.Paths
