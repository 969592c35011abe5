import CodeGraph.Resolution.PythonTypes

/-! What an attribute query answers when nothing stops it among the ancestors. -/
namespace CodeGraph.Resolution.PythonTypes

open BoundedMemo

variable (G : ClassGraph) (attr : String)

/-! ### Ancestors -/

def basesAncestry (below : String → Option (List String)) : List Base → Option (List String)
  | [] => some []
  | .ofClass id :: rest => do
    let first ← below id
    let later ← basesAncestry below rest
    return first ++ later
  | _ :: rest => basesAncestry below rest

/-- The classes that a query enters if it looks at every base, in order; none if they are nested
too deep. -/
def ancestry : Nat → String → Option (List String)
  | 0, _ => none
  | levels + 1, id =>
    if settledHere G attr id then some [id]
    else (basesAncestry (ancestry levels) (G.facts id).bases).map (id :: ·)

def Unstopped (id : String) : Prop :=
  ∃ entered ∈ ancestry G attr walkLimit id, entered.Nodup ∧ entered.length ≤ walkLimit

instance (id : String) : Decidable (Unstopped G attr id) :=
  inferInstanceAs (Decidable (∃ entered ∈ ancestry G attr walkLimit id, _))

def plainReading : Nat → String → Reading
  | 0, _ => ⟨.absent, ∅⟩
  | levels + 1, id =>
    (pythonAttributeTypeUncached G attr (fun base (_ : Unit) => (plainReading levels base, ())) id ()).1

variable {G attr}

theorem basesAncestry_cons {below : String → Option (List String)} {id : String} {rest : List Base}
    {entered : List String} (listed : basesAncestry below (.ofClass id :: rest) = some entered) :
    ∃ first later, below id = some first ∧ basesAncestry below rest = some later ∧
      entered = first ++ later := by
  obtain ⟨first, head, tail⟩ := Option.bind_eq_some_iff.mp listed
  obtain ⟨later, below_rest, whole⟩ := Option.bind_eq_some_iff.mp tail
  exact ⟨first, later, head, below_rest, (Option.some.inj whole).symm⟩

theorem ancestry_bases {levels : Nat} {id : String} {entered : List String}
    (asks : ¬settledHere G attr id = true) (listed : ancestry G attr (levels + 1) id = some entered) :
    ∃ below, basesAncestry (ancestry G attr levels) (G.facts id).bases = some below ∧
      entered = id :: below := by
  simp only [ancestry, if_neg asks] at listed
  obtain ⟨below, each, rfl⟩ := Option.map_eq_some_iff.mp listed
  exact ⟨below, each, rfl⟩

theorem ancestry_self {levels : Nat} {id : String} {entered : List String}
    (listed : ancestry G attr (levels + 1) id = some entered) : id ∈ entered := by
  by_cases settled : settledHere G attr id = true
  · simp only [ancestry, if_pos settled] at listed
    cases listed
    exact List.mem_cons_self
  · obtain ⟨below, -, rfl⟩ := ancestry_bases settled listed
    exact List.mem_cons_self

theorem baseAnswers_congr {f g : String → Unit → Reading × Unit}
    {below : String → Option (List String)} {bases : List Base} {entered : List String}
    (listed : basesAncestry below bases = some entered)
    (same : ∀ id first, below id = some first → f id () = g id ()) :
    baseAnswers G f bases () = baseAnswers G g bases () := by
  induction bases generalizing entered with
  | nil => rfl
  | cons base rest ih =>
    cases base with
    | ofClass id =>
      obtain ⟨first, later, head, tail, -⟩ := basesAncestry_cons listed
      simp only [baseAnswers, same id first head, ih tail]
    | runtime =>
      have later := ih listed
      simp only [baseAnswers, later]
    | passed => exact ih listed

theorem plainReading_levels {m n : Nat} {id : String} {entered : List String}
    (listed : ancestry G attr m id = some entered) (more : m ≤ n) :
    plainReading G attr n id = plainReading G attr m id := by
  induction m generalizing n id entered with
  | zero => cases listed
  | succ m ih =>
    obtain ⟨k, rfl⟩ : ∃ k, n = k + 1 := ⟨n - 1, by omega⟩
    simp only [plainReading, pythonAttributeTypeUncached]
    by_cases settled : settledHere G attr id = true
    · simp only [settled, if_true]
    · obtain ⟨below, each, -⟩ := ancestry_bases settled listed
      have same := baseAnswers_congr (G := G) each
        (f := fun base _ => (plainReading G attr k base, ()))
        (g := fun base _ => (plainReading G attr m base, ()))
        fun base first head => by rw [ih head (by omega)]
      simp only [if_neg settled, same]

theorem plainReading_unique {m n : Nat} {id : String} {first second : List String}
    (one : ancestry G attr m id = some first) (other : ancestry G attr n id = some second) :
    plainReading G attr m id = plainReading G attr n id := by
  rw [← plainReading_levels one (Nat.le_max_left m n),
    ← plainReading_levels other (Nat.le_max_right m n)]

/-! ### A query that nothing stops -/

variable (G) in
def Remembered (key : String × String) (reading : Reading) : Prop :=
  ∃ levels, (∃ entered, ancestry G key.2 levels key.1 = some entered) ∧
    reading = plainReading G key.2 levels key.1

variable (G) in
structure Within (entered : List String) (walk after : AttributeWalk) : Prop where
  sound : Sound (Remembered G) after.memo
  seen : ∀ id ∈ after.seen, id ∈ walk.seen ∨ id ∈ entered
  room : after.seen.length ≤ walk.seen.length + entered.length

variable (G) in
structure Open (entered : List String) (walk : AttributeWalk) : Prop where
  nodup : entered.Nodup
  apart : ∀ id ∈ entered, id ∉ walk.seen
  room : walk.seen.length + entered.length ≤ walkLimit
  sound : Sound (Remembered G) walk.memo

theorem Within.trans {first later : List String} {walk middle after : AttributeWalk}
    (one : Within G first walk middle) (two : Within G later middle after) :
    Within G (first ++ later) walk after where
  sound := two.sound
  seen := by
    intro id listed
    rw [List.mem_append]
    rcases two.seen id listed with before | last
    · exact (one.seen id before).imp_right .inl
    · exact .inr (.inr last)
  room := by
    have h := one.room
    have k := two.room
    rw [List.length_append]
    omega

theorem Open.first {first later : List String} {walk : AttributeWalk}
    (fits : Open G (first ++ later) walk) : Open G first walk where
  nodup := (List.nodup_append.mp fits.nodup).1
  apart := fun id listed => fits.apart id (List.mem_append_left later listed)
  room := by
    have room := fits.room
    rw [List.length_append] at room
    omega
  sound := fits.sound

theorem Open.later {first later : List String} {walk middle : AttributeWalk}
    (fits : Open G (first ++ later) walk) (done : Within G first walk middle) :
    Open G later middle where
  nodup := (List.nodup_append.mp fits.nodup).2.1
  apart := by
    intro id listed entered
    rcases done.seen id entered with before | inFirst
    · exact fits.apart id (List.mem_append_right first listed) before
    · exact (List.nodup_append.mp fits.nodup).2.2 id inFirst id listed rfl
  room := by
    have room := fits.room
    have used := done.room
    rw [List.length_append] at room
    omega
  sound := done.sound

variable (G attr) in
/-- The bases are read as they are on their own, if each base is. -/
def Exact (levels : Nat) : Prop :=
  ∀ id entered walk, ancestry G attr levels id = some entered → Open G entered walk →
    (pythonAttributeType G attr levels id walk).1 = plainReading G attr levels id ∧
      Within G entered walk (pythonAttributeType G attr levels id walk).2

theorem baseAnswers_exact {levels : Nat} (each : Exact G attr levels) {bases : List Base}
    {entered : List String} {walk : AttributeWalk}
    (listed : basesAncestry (ancestry G attr levels) bases = some entered)
    (fits : Open G entered walk) :
    (baseAnswers G (pythonAttributeType G attr levels) bases walk).1 =
        (baseAnswers G (fun base _ => (plainReading G attr levels base, ())) bases ()).1 ∧
      Within G entered walk (baseAnswers G (pythonAttributeType G attr levels) bases walk).2 := by
  induction bases generalizing entered walk with
  | nil => exact ⟨rfl, fits.sound, fun _ seen => .inl seen, Nat.le_add_right _ _⟩
  | cons base rest ih =>
    cases base with
    | ofClass id =>
      obtain ⟨first, later, head, tail, rfl⟩ := basesAncestry_cons listed
      obtain ⟨reading, done⟩ := each id first walk head fits.first
      obtain ⟨answers, finished⟩ := ih tail (fits.later done)
      refine ⟨?_, done.trans finished⟩
      simp only [baseAnswers, reading, answers]
    | runtime =>
      obtain ⟨answers, finished⟩ := ih listed fits
      refine ⟨?_, finished⟩
      simp only [baseAnswers, answers]
    | passed => exact ih listed fits

theorem Open.enter {id : String} {below : List String} {walk : AttributeWalk}
    (fits : Open G (id :: below) walk) :
    Open G below { walk with seen := id :: walk.seen } where
  nodup := (List.nodup_cons.mp fits.nodup).2
  apart := by
    intro other listed seen
    rcases List.mem_cons.mp seen with rfl | before
    · exact (List.nodup_cons.mp fits.nodup).1 listed
    · exact fits.apart other (List.mem_cons_of_mem id listed) before
  room := by
    have room := fits.room
    simp only [List.length_cons] at room ⊢
    omega
  sound := fits.sound

theorem uncached_exact {levels : Nat} (each : Exact G attr levels) {id : String}
    {entered : List String} {walk : AttributeWalk}
    (listed : ancestry G attr (levels + 1) id = some entered) (fits : Open G entered walk) :
    (pythonAttributeTypeUncached G attr (pythonAttributeType G attr levels) id
          { walk with seen := id :: walk.seen }).1 = plainReading G attr (levels + 1) id ∧
      Within G entered walk (pythonAttributeTypeUncached G attr (pythonAttributeType G attr levels) id
          { walk with seen := id :: walk.seen }).2 := by
  simp only [plainReading, pythonAttributeTypeUncached]
  by_cases settled : settledHere G attr id = true
  · have self := ancestry_self listed
    simp only [settled, if_true, true_and]
    refine ⟨fits.sound, ?_, ?_⟩
    · intro other seen
      rcases List.mem_cons.mp seen with rfl | before
      · exact .inr self
      · exact .inl before
    · have some_ := List.length_pos_of_mem self
      simp only [List.length_cons]
      omega
  · obtain ⟨below, bases, rfl⟩ := ancestry_bases settled listed
    obtain ⟨answers, done⟩ := baseAnswers_exact each bases fits.enter
    simp only [if_neg settled, answers, true_and]
    refine ⟨done.sound, ?_, ?_⟩
    · intro other seen
      rcases done.seen other seen with before | inside
      · rcases List.mem_cons.mp before with rfl | earlier
        · exact .inr List.mem_cons_self
        · exact .inl earlier
      · exact .inr (List.mem_cons_of_mem id inside)
    · have room := done.room
      simp only [List.length_cons] at room ⊢
      omega

theorem pythonAttributeType_exact (levels : Nat) : Exact G attr levels := by
  induction levels with
  | zero =>
    intro id entered walk listed
    cases listed
  | succ levels each =>
    intro id entered walk listed fits
    have self := ancestry_self listed
    have enters : ¬(walkLimit ≤ walk.seen.length ∨ id ∈ walk.seen) := by
      rintro (full | seen)
      · have room := fits.room
        have some_ := List.length_pos_of_mem self
        omega
      · exact fits.apart id self seen
    obtain ⟨reading, done⟩ := uncached_exact each listed fits
    simp only [pythonAttributeType, if_neg enters]
    cases found : InsertionMap.lookup walk.memo (id, attr) with
    | some known =>
      obtain ⟨other, ⟨others, its⟩, rfl⟩ := fits.sound.lookup found
      refine ⟨plainReading_unique its listed, fits.sound, ?_, ?_⟩
      · intro member seen
        rcases List.mem_cons.mp seen with rfl | before
        · exact .inr self
        · exact .inl before
      · have some_ := List.length_pos_of_mem self
        simp only [List.length_cons]
        omega
    | none =>
      refine ⟨reading, done.sound.remember memoCapacity ?_, done.seen, done.room⟩
      exact ⟨levels + 1, ⟨entered, listed⟩, reading⟩

theorem query_exact {id : String} {memo : List ((String × String) × Reading)}
    (unstopped : Unstopped G attr id) (sound : Sound (Remembered G) memo) :
    (pythonAttributeType G attr walkLimit id ⟨[], memo⟩).1 = plainReading G attr walkLimit id ∧
      Sound (Remembered G) (pythonAttributeType G attr walkLimit id ⟨[], memo⟩).2.memo := by
  obtain ⟨entered, listed, nodup, few⟩ := unstopped
  have fits : Open G entered ⟨[], memo⟩ :=
    ⟨nodup, (fun _ _ seen => nomatch seen), by simpa using few, sound⟩
  obtain ⟨reading, done⟩ := pythonAttributeType_exact walkLimit id entered _ listed fits
  exact ⟨reading, done.sound⟩

end CodeGraph.Resolution.PythonTypes
