import CodeGraph.Foundation.Walks

/-!
# Ruby ancestry

`rubyAncestry` (`ruby-flow-scope.ts`, `resolve/lang_scope.rs`) walks the declarations with one set of
names that it has seen. Ruby places a module where the earlier `include` has it, and does not place one
again that a superclass has. The two orders agree where the walk meets each name once.
-/
namespace CodeGraph.Resolution.RubyAncestry

open Walks

structure RubyMixins where
  prepended : List String
  included : List String
  extended : List String
  superclass : Option String

structure Visited where
  seen : List String
  order : List String

def Visited.list (v : Visited) (q : String) : Visited :=
  { v with order := if q ∈ v.order then v.order else v.order ++ [q] }

/-- The walk from a name; `mixinsOf` are the mixins of its declarations. The fuel bounds the depth. -/
def visit (mixinsOf : String → List RubyMixins) (instance_ : Bool) : Nat → String → Visited → Visited
  | 0, _, v => v
  | fuel + 1, q, v =>
    if q ∈ v.seen ∨ 250 ≤ v.seen.length then v
    else
      let all (names : List String) (v : Visited) := names.foldl (fun v p => visit mixinsOf instance_ fuel p v) v
      let v : Visited := { v with seen := q :: v.seen }
      let v := (mixinsOf q).foldl (fun v m => all m.prepended v) v
      let v := v.list q
      let v := (mixinsOf q).foldl
        (fun v m => let v := all m.included v; if instance_ then v else all m.extended v) v
      (mixinsOf q).foldl (fun v m => all m.superclass.toList v) v

def rubyAncestry (mixinsOf : String → List RubyMixins) (qn : String) (instance_ : Bool) : List String :=
  (visit mixinsOf instance_ 251 qn ⟨[], []⟩).order

/-! ### Ruby -/

inductive Mixin where
  | prepended
  | included
  | extended
  deriving DecidableEq

/-- The body of a class or module: its statements, in the order in which they are executed. -/
structure Declaration where
  statements : List (Mixin × String)
  superclass : Option String

abbrev Program := String → Option Declaration

def mixed (kind : Mixin) (statements : List (Mixin × String)) : List String :=
  ((statements.filter (·.1 = kind)).map (·.2)).reverse

def Declaration.mixins (d : Declaration) : RubyMixins where
  prepended := mixed .prepended d.statements
  included := mixed .included d.statements
  extended := mixed .extended d.statements
  superclass := d.superclass

def Program.mixinsOf (program : Program) (q : String) : List RubyMixins :=
  (program q).toList.map Declaration.mixins

/-- `include_modules_at`: the modules of a chain, each behind the one before it. One that is placed
already stays where it is; the next ones go behind it. -/
def placeAll (elsewhere : String → Bool) : List String → Nat → List String → List String
  | [], _, placed => placed
  | m :: chain, pos, placed =>
    match placed.idxOf? m with
    | some i => placeAll elsewhere chain (if pos ≤ i then i + 1 else pos) placed
    | none =>
      if elsewhere m then placeAll elsewhere chain pos placed
      else placeAll elsewhere chain (pos + 1) (placed.insertIdx pos m)

structure Placed where
  front : List String
  back : List String

/-- A statement with the ancestors of its module. An `include` passes what is prepended, and what the
superclass has. -/
def Placed.execute (superclass : List String) (placed : Placed) : Mixin → List String → Placed
  | .prepended, chain => { placed with front := placeAll (fun _ => false) chain 0 placed.front }
  | .included, chain =>
    { placed with
      back := placeAll (fun m => decide (m ∈ placed.front ∨ m ∈ superclass)) chain 0 placed.back }
  | .extended, _ => placed

def Placed.executeAll (chains : String → Option (List String)) (superclass : List String) (placed : Placed)
    (statements : List (Mixin × String)) : Option Placed :=
  statements.foldlM (fun placed st =>
    if st.1 = .extended then some placed else (chains st.2).map (placed.execute superclass st.1)) placed

/-- `Module#ancestors`, without what Ruby itself declares; the fuel bounds the depth. -/
def ancestors (program : Program) : Nat → String → Option (List String)
  | 0, _ => none
  | fuel + 1, q =>
    match program q with
    | none => some [q]
    | some d => do
      let superclass ← d.superclass.elim (some []) (ancestors program fuel)
      let placed ← Placed.executeAll (ancestors program fuel) superclass ⟨[], []⟩ d.statements
      return placed.front ++ q :: (placed.back ++ superclass)

def IsAncestors (program : Program) (q : String) (names : List String) : Prop :=
  ∃ fuel, ancestors program fuel q = some names

def Uses (program : Program) (q p : String) : Prop :=
  ∃ d, program q = some d ∧ (p ∈ mixed .prepended d.statements ∨ p ∈ mixed .included d.statements ∨
    d.superclass = some p)

def Acyclic (program : Program) : Prop := ∀ q, ¬Relation.TransGen (Uses program) q q

/-- Fewer than 250 classes and modules are reached from a name. -/
def Few (program : Program) (qn : String) : Prop :=
  ∃ names : List String, names.length < 250 ∧ qn ∈ names ∧ ∀ q ∈ names, ∀ p, Uses program q p → p ∈ names

def met (program : Program) : Nat → String → List String
  | 0, _ => []
  | fuel + 1, q =>
    match program q with
    | none => [q]
    | some d => (mixed .prepended d.statements).flatMap (met program fuel) ++
        q :: ((mixed .included d.statements).flatMap (met program fuel) ++
          d.superclass.toList.flatMap (met program fuel))

def MetOnce (program : Program) (qn : String) : Prop := ∀ fuel, (met program fuel qn).Nodup

variable {program : Program} {fuel k : Nat} {q p : String} {names chain row : List String} {v : Visited}

theorem insertIdx_append (left right : List String) (m : String) :
    (left ++ right).insertIdx left.length m = left ++ m :: right := by
  induction left with
  | nil => rw [List.nil_append, List.length_nil, List.insertIdx_zero, List.nil_append]
  | cons x left ih => rw [List.cons_append, List.length_cons, List.insertIdx_succ_cons, ih, List.cons_append]

/-- Modules that are not placed yet are placed in a row. -/
theorem placeAll_fresh {elsewhere : String → Bool} {left right : List String} (nodup : chain.Nodup)
    (fresh : ∀ m ∈ chain, m ∉ left ++ right) (free : ∀ m ∈ chain, elsewhere m = false) :
    placeAll elsewhere chain left.length (left ++ right) = left ++ (chain ++ right) := by
  induction chain generalizing left with
  | nil => rfl
  | cons m chain ih =>
    obtain ⟨once, nodup⟩ := List.nodup_cons.mp nodup
    have new : (left ++ right).idxOf? m = none := List.idxOf?_eq_none_iff.mpr (fresh m List.mem_cons_self)
    have behind : left ++ m :: right = (left ++ [m]) ++ right := by
      rw [List.append_assoc, List.singleton_append]
    have next : (left ++ [m]).length = left.length + 1 := by
      rw [List.length_append, List.length_singleton]
    have placed := @ih (left ++ [m]) nodup (fun m' listed again => ?_) fun m' listed =>
      free m' (List.mem_cons_of_mem m listed)
    · rw [placeAll, new]
      simp only [free m List.mem_cons_self, Bool.false_eq_true, if_false]
      rw [insertIdx_append, behind, ← next, placed, List.append_assoc, List.singleton_append, List.cons_append]
    · rw [← behind, List.mem_append, List.mem_cons] at again
      have apart := fresh m' (List.mem_cons_of_mem m listed)
      rw [List.mem_append, not_or] at apart
      rcases again with old | rfl | old
      · exact apart.1 old
      · exact once listed
      · exact apart.2 old

theorem placeAll_front {elsewhere : String → Bool} (nodup : chain.Nodup) (fresh : ∀ m ∈ chain, m ∉ row)
    (free : ∀ m ∈ chain, elsewhere m = false) : placeAll elsewhere chain 0 row = chain ++ row :=
  @placeAll_fresh chain elsewhere [] row nodup fresh free

theorem mixed_snoc (kind kind' : Mixin) (statements : List (Mixin × String)) (m : String) :
    mixed kind (statements ++ [(kind', m)]) = (if kind' = kind then [m] else []) ++ mixed kind statements := by
  rw [mixed, mixed, List.filter_append, List.map_append, List.reverse_append]
  congr 1
  by_cases same : kind' = kind
  · simp [same]
  · simp [same]

theorem executeAll_snoc (chains : String → Option (List String)) (superclass : List String) (placed : Placed)
    (statements : List (Mixin × String)) (st : Mixin × String) :
    Placed.executeAll chains superclass placed (statements ++ [st]) =
      (Placed.executeAll chains superclass placed statements).bind fun placed =>
        if st.1 = .extended then some placed else (chains st.2).map (placed.execute superclass st.1) := by
  rw [Placed.executeAll, Placed.executeAll, List.foldlM_append]
  refine congrArg (Option.bind _) (funext fun placed => ?_)
  simp

/-- The statements of a body place the ancestors of its modules, the last module first. -/
theorem executeAll_eq {chains : String → Option (List String)} {of : String → List String}
    {superclass : List String} {statements : List (Mixin × String)}
    (known : ∀ st ∈ statements, st.1 ≠ .extended → chains st.2 = some (of st.2))
    (once : ((mixed .prepended statements).flatMap of ++
      ((mixed .included statements).flatMap of ++ superclass)).Nodup) :
    Placed.executeAll chains superclass ⟨[], []⟩ statements =
      some ⟨(mixed .prepended statements).flatMap of, (mixed .included statements).flatMap of⟩ := by
  induction statements using List.reverseRecOn with
  | nil => rfl
  | append_singleton statements st ih =>
    obtain ⟨kind, m⟩ := st
    have before := ih (fun st listed => known st (List.mem_append_left _ listed))
    rw [executeAll_snoc]
    rw [mixed_snoc, mixed_snoc] at once ⊢
    cases kind with
    | prepended =>
      simp only [if_true, reduceCtorEq, if_false, List.nil_append, List.singleton_append, List.flatMap_cons,
        List.append_assoc] at once ⊢
      obtain ⟨chain, rest, apart⟩ := List.nodup_append.mp once
      have head : chains m = some (of m) := known _ (List.mem_append_right _ List.mem_cons_self) (by simp)
      have placed : placeAll (fun _ => false) (of m) 0 ((mixed .prepended statements).flatMap of) =
          of m ++ (mixed .prepended statements).flatMap of :=
        placeAll_front chain (fun x listed again => apart x listed x (List.mem_append_left _ again) rfl)
          fun _ _ => rfl
      rw [before rest, Option.bind_some, head, Option.map_some, Placed.execute, placed]
    | included =>
      simp only [if_true, reduceCtorEq, if_false, List.nil_append, List.singleton_append, List.flatMap_cons,
        List.append_assoc] at once ⊢
      obtain ⟨front, back, apart⟩ := List.nodup_append.mp once
      obtain ⟨chain, rest, apart'⟩ := List.nodup_append.mp back
      have once' : ((mixed .prepended statements).flatMap of ++
          ((mixed .included statements).flatMap of ++ superclass)).Nodup :=
        List.nodup_append.mpr ⟨front, rest, fun x listed y listed' =>
          apart x listed y (List.mem_append_right _ listed')⟩
      have head : chains m = some (of m) := known _ (List.mem_append_right _ List.mem_cons_self) (by simp)
      have placed : placeAll (fun x => decide (x ∈ (mixed .prepended statements).flatMap of ∨ x ∈ superclass))
          (of m) 0 ((mixed .included statements).flatMap of) =
          of m ++ (mixed .included statements).flatMap of :=
        placeAll_front chain (fun x listed again => apart' x listed x (List.mem_append_left _ again) rfl)
          fun x listed => by
            rw [decide_eq_false_iff_not, not_or]
            exact ⟨fun again => apart x again x (List.mem_append_left _ listed) rfl,
              fun again => apart' x listed x (List.mem_append_right _ again) rfl⟩
      rw [before once', Option.bind_some, head, Option.map_some, Placed.execute, placed]
    | extended =>
      simp only [reduceCtorEq, if_false, List.nil_append] at once ⊢
      rw [before once, Option.bind_some, if_pos trivial]

theorem mem_mixed {kind : Mixin} {statements : List (Mixin × String)} :
    p ∈ mixed kind statements ↔ (kind, p) ∈ statements := by
  simp only [mixed, List.mem_reverse, List.mem_map, List.mem_filter, decide_eq_true_eq]
  constructor
  · rintro ⟨⟨kind', m⟩, ⟨listed, rfl⟩, rfl⟩
    exact listed
  · intro listed
    exact ⟨(kind, p), ⟨listed, rfl⟩, rfl⟩

theorem ancestors_met (shallow : Shallow (Uses program) k q) (once : (met program k q).Nodup) :
    ancestors program k q = some (met program k q) := by
  induction k generalizing q with
  | zero => exact shallow.elim
  | succ k ih =>
    rw [ancestors]
    rw [met] at once ⊢
    cases found : program q with
    | none => rfl
    | some d =>
      simp only [found] at once ⊢
      obtain ⟨front, rest, apart⟩ := List.nodup_append.mp once
      obtain ⟨back, outer, apart'⟩ := List.nodup_append.mp (List.nodup_cons.mp rest).2
      have known : ∀ st ∈ d.statements, st.1 ≠ .extended →
          ancestors program k st.2 = some (met program k st.2) := by
        rintro ⟨kind, m⟩ listed other
        cases kind with
        | prepended =>
          have listed := mem_mixed.mpr listed
          exact ih (shallow m ⟨d, found, .inl listed⟩) ((List.nodup_flatMap.mp front).1 m listed)
        | included =>
          have listed := mem_mixed.mpr listed
          exact ih (shallow m ⟨d, found, .inr (.inl listed)⟩) ((List.nodup_flatMap.mp back).1 m listed)
        | extended => exact absurd rfl other
      have above : d.superclass.elim (some []) (ancestors program k) =
          some (d.superclass.toList.flatMap (met program k)) := by
        cases superclass : d.superclass with
        | none => rfl
        | some s =>
          rw [superclass, Option.toList_some, List.flatMap_singleton] at outer
          rw [Option.toList_some, List.flatMap_singleton]
          exact ih (shallow s ⟨d, found, .inr (.inr superclass)⟩) outer
      have placed : Placed.executeAll (ancestors program k) (d.superclass.toList.flatMap (met program k))
          ⟨[], []⟩ d.statements = some ⟨(mixed .prepended d.statements).flatMap (met program k),
            (mixed .included d.statements).flatMap (met program k)⟩ :=
        executeAll_eq known (List.nodup_append.mpr ⟨front, (List.nodup_cons.mp rest).2,
          fun x listed y listed' => apart x listed y (List.mem_cons_of_mem q listed')⟩)
      rw [above, Option.bind_eq_bind, Option.bind_some, placed]
      rfl

/-! ### The order of the walk -/

structure Lists (names : List String) (v : Visited) (more : List String) (v' : Visited) : Prop where
  order : v'.order = v.order ++ more
  seen : ∀ p, p ∈ v'.seen ↔ p ∈ v.seen ∨ p ∈ more
  nodup : v'.seen.Nodup
  known : v'.seen ⊆ names
  listed : ∀ p ∈ v'.order, p ∈ v'.seen

/-- What the walk needs where it begins, when at least so many names are seen. -/
structure Ready (names : List String) (least : Nat) (v : Visited) : Prop where
  nodup : v.seen.Nodup
  known : v.seen ⊆ names
  listed : ∀ p ∈ v.order, p ∈ v.seen
  least : least ≤ v.seen.length

variable {least : Nat}

theorem Lists.ready {more : List String} {v' : Visited} (lists : Lists names v more v')
    (ready : Ready names least v) : Ready names least v' where
  nodup := lists.nodup
  known := lists.known
  listed := lists.listed
  least := by
    have kept := List.Nodup.subperm ready.nodup fun p listed => (lists.seen p).mpr (.inl listed)
    exact Nat.le_trans ready.least kept.length_le

theorem Ready.lists (ready : Ready names least v) : Lists names v [] v :=
  ⟨(List.append_nil _).symm, fun _ => (or_iff_left List.not_mem_nil).symm, ready.nodup, ready.known, ready.listed⟩

theorem Ready.list (ready : Ready names least v) (seen : q ∈ v.seen) : Ready names least (v.list q) where
  nodup := ready.nodup
  known := ready.known
  listed p listed := by
    simp only [Visited.list] at listed
    split at listed
    · exact ready.listed p listed
    · rcases mem_snoc.mp listed with old | new
      · exact ready.listed p old
      · rwa [new]
  least := ready.least

theorem Lists.trans {more more' : List String} {v' v'' : Visited} (first : Lists names v more v')
    (second : Lists names v' more' v'') : Lists names v (more ++ more') v'' where
  order := by rw [second.order, first.order, List.append_assoc]
  seen p := by rw [second.seen, first.seen, List.mem_append, or_assoc]
  nodup := second.nodup
  known := second.known
  listed := second.listed

theorem lists_foldl {step : Visited → String → Visited} {of : String → List String} {ps : List String}
    (each : ∀ p ∈ ps, ∀ v, Ready names least v → (of p).Nodup → (∀ m ∈ of p, m ∉ v.seen) →
      Lists names v (of p) (step v p))
    (once : (ps.flatMap of).Nodup) (ready : Ready names least v) (fresh : ∀ m ∈ ps.flatMap of, m ∉ v.seen) :
    Lists names v (ps.flatMap of) (ps.foldl step v) := by
  induction ps generalizing v with
  | nil => exact ready.lists
  | cons p ps ih =>
    rw [List.flatMap_cons] at once fresh ⊢
    obtain ⟨here, rest, apart⟩ := List.nodup_append.mp once
    have first := each p List.mem_cons_self v ready here fun m listed => fresh m (List.mem_append_left _ listed)
    refine first.trans (ih (fun p listed => each p (List.mem_cons_of_mem _ listed)) rest (first.ready ready) ?_)
    intro m listed again
    rcases (first.seen m).mp again with old | new
    · exact fresh m (List.mem_append_right _ listed) old
    · exact apart m new m listed rfl

/-- A name is seen before what it mixes in, and listed behind what it prepends. -/
theorem lists_around {front rest : List String} {v₁ v₂ : Visited} (ready : Ready names least v)
    (first : Lists names { v with seen := q :: v.seen } front v₁) (fresh : q ∉ v.seen) (once : q ∉ front)
    (second : Lists names (v₁.list q) rest v₂) : Lists names v (front ++ q :: rest) v₂ where
  order := by
    have new : q ∉ v₁.order := by
      rw [first.order, List.mem_append, not_or]
      exact ⟨fun listed => fresh (ready.listed q listed), once⟩
    rw [second.order, Visited.list, if_neg new, first.order]
    simp only [List.append_assoc, List.singleton_append]
  seen p := by
    rw [second.seen, Visited.list, first.seen, List.mem_cons, List.mem_append, List.mem_cons]
    tauto
  nodup := second.nodup
  known := second.known
  listed := second.listed

theorem visit_lists (few : names.length < 250) (closed : ∀ q ∈ names, ∀ p, Uses program q p → p ∈ names)
    (shallow : Shallow (Uses program) k q) (listed : q ∈ names) (once : (met program k q).Nodup)
    (ready : Ready names least v) (enough : 250 < fuel + least) (fresh : ∀ m ∈ met program k q, m ∉ v.seen) :
    Lists names v (met program k q) (visit program.mixinsOf true fuel q v) := by
  induction k generalizing fuel least q v with
  | zero => exact shallow.elim
  | succ k ih =>
    have short : v.seen.length < 250 :=
      Nat.lt_of_le_of_lt (List.Nodup.subperm ready.nodup ready.known).length_le few
    cases fuel with
    | zero =>
      have bound := ready.least
      omega
    | succ fuel =>
      have here : q ∈ met program (k + 1) q := by
        rw [met]
        split
        · exact List.mem_cons_self
        · exact List.mem_append_right _ List.mem_cons_self
      have new := fresh q here
      have seen : Ready names (least + 1) { v with seen := q :: v.seen } :=
        ⟨List.nodup_cons.mpr ⟨new, ready.nodup⟩, List.cons_subset.mpr ⟨listed, ready.known⟩,
          fun p order => List.mem_cons_of_mem q (ready.listed p order), Nat.succ_le_succ ready.least⟩
      rw [visit, if_neg (not_or.mpr ⟨new, Nat.not_le.mpr short⟩)]
      rw [met] at once fresh ⊢
      have inside : ∀ p, Uses program q p → ∀ v, Ready names (least + 1) v → (met program k p).Nodup →
          (∀ m ∈ met program k p, m ∉ v.seen) →
          Lists names v (met program k p) (visit program.mixinsOf true fuel p v) :=
        fun p used v ready once fresh => ih (shallow p used) (closed q listed p used) once ready (by omega) fresh
      cases found : program q with
      | none =>
        have none_ : program.mixinsOf q = [] := by
          rw [Program.mixinsOf, found]
          rfl
        rw [none_]
        exact lists_around ready seen.lists new List.not_mem_nil (seen.list List.mem_cons_self).lists
      | some d =>
        simp only [found] at once fresh
        have one : program.mixinsOf q = [d.mixins] := by
          rw [Program.mixinsOf, found]
          rfl
        rw [one]
        obtain ⟨front, rest, apart⟩ := List.nodup_append.mp once
        obtain ⟨new', rest⟩ := List.nodup_cons.mp rest
        obtain ⟨back, outer, apart'⟩ := List.nodup_append.mp rest
        have later : ∀ m, m ∈ (mixed .prepended d.statements).flatMap (met program k) →
            m ∉ q :: v.seen := by
          intro m before again
          rcases List.mem_cons.mp again with rfl | old
          · exact apart m before m List.mem_cons_self rfl
          · exact fresh m (List.mem_append_left _ before) old
        have first := lists_foldl (fun p listed => inside p ⟨d, found, .inl listed⟩) front seen later
        have middle := (first.ready seen).list ((first.seen q).mpr (.inl List.mem_cons_self))
        have unseen : ∀ m ∈ (mixed .included d.statements).flatMap (met program k) ++
            d.superclass.toList.flatMap (met program k), m ∉ _ := fun m inner again => by
          rcases (first.seen m).mp again with old | before
          · rcases List.mem_cons.mp old with rfl | old
            · exact new' inner
            · exact fresh m (List.mem_append_right _ (List.mem_cons_of_mem q inner)) old
          · exact apart m before m (List.mem_cons_of_mem q inner) rfl
        have second := lists_foldl (fun p listed => inside p ⟨d, found, .inr (.inl listed)⟩) back middle
          fun m listed => unseen m (List.mem_append_left _ listed)
        have third := lists_foldl (fun p listed => inside p ⟨d, found, .inr (.inr (Option.mem_toList.mp listed))⟩)
          outer (second.ready middle) fun m listed again => by
            rcases (second.seen m).mp again with old | before
            · exact unseen m (List.mem_append_right _ listed) old
            · exact apart' m before m listed rfl
        exact lists_around ready first new (fun again => apart q again q List.mem_cons_self rfl)
          (second.trans third)

/-- The walk lists Ruby's ancestors, in Ruby's order and each once, where it meets no class or module
twice. -/
theorem rubyAncestry_lists_ancestors (program : Program) (qn : String) (acyclic : Acyclic program)
    (few : Few program qn) (once : MetOnce program qn) :
    IsAncestors program qn (rubyAncestry program.mixinsOf qn true) ∧
      (rubyAncestry program.mixinsOf qn true).Nodup := by
  obtain ⟨names, short, listed, closed⟩ := few
  have shallow := shallow_of_acyclic acyclic closed listed
  have start : Ready names 0 ⟨[], []⟩ :=
    ⟨List.nodup_nil, List.nil_subset names, fun _ none_ => none_, Nat.le_refl 0⟩
  have lists := visit_lists short closed shallow listed (once names.length) start (show 250 < 251 + 0 by decide)
    fun _ _ none_ => List.not_mem_nil none_
  have order : rubyAncestry program.mixinsOf qn true = met program names.length qn := lists.order
  rw [order]
  exact ⟨⟨names.length, ancestors_met shallow (once names.length)⟩, once names.length⟩

/-! ### Listed declarations -/

def declared (declarations : List (String × Declaration)) : Program := fun q => declarations.lookup q

def Declaration.used (d : Declaration) : List String :=
  mixed .prepended d.statements ++ mixed .included d.statements ++ d.superclass.toList

theorem uses_declared {declarations : List (String × Declaration)} (uses : Uses (declared declarations) q p) :
    ∃ d, (q, d) ∈ declarations ∧ p ∈ d.used := by
  obtain ⟨d, found, used⟩ := uses
  obtain ⟨before, after, whole, -⟩ := List.lookup_eq_some_iff.mp found
  refine ⟨d, whole ▸ List.mem_append_right before List.mem_cons_self, ?_⟩
  simpa [Declaration.used, or_assoc] using used

theorem acyclic_of_rank {declarations : List (String × Declaration)} (rank : String → Nat)
    (falls : ∀ e ∈ declarations, ∀ p ∈ e.2.used, rank p < rank e.1) : Acyclic (declared declarations) := by
  have below : ∀ q p, Relation.TransGen (Uses (declared declarations)) q p → rank p < rank q := by
    intro q p path
    induction path with
    | single uses =>
      obtain ⟨d, listed, used⟩ := uses_declared uses
      exact falls _ listed _ used
    | tail _ uses ih =>
      obtain ⟨d, listed, used⟩ := uses_declared uses
      exact Nat.lt_trans (falls _ listed _ used) ih
  exact fun q cycle => Nat.lt_irrefl _ (below q q cycle)

theorem few_of_listed {declarations : List (String × Declaration)} {qn : String} (names : List String)
    (short : names.length < 250) (listed : qn ∈ names)
    (closed : ∀ e ∈ declarations, ∀ p ∈ e.2.used, p ∈ names) : Few (declared declarations) qn :=
  ⟨names, short, listed, fun _ _ _ uses => by
    obtain ⟨d, listed, used⟩ := uses_declared uses
    exact closed _ listed _ used⟩

/-- `class A; prepend N; include M; end` -/
def oneClass : Program := declared
  [("A", ⟨[(.prepended, "N"), (.included, "M")], none⟩), ("N", ⟨[], none⟩), ("M", ⟨[], none⟩)]

theorem rubyAncestry_lists_ancestors_oneClass :
    IsAncestors oneClass "A" (rubyAncestry oneClass.mixinsOf "A" true) ∧
      (rubyAncestry oneClass.mixinsOf "A" true).Nodup := by
  refine rubyAncestry_lists_ancestors oneClass "A"
    (acyclic_of_rank (fun q => if q = "A" then 1 else 0) (by decide +kernel))
    (few_of_listed ["A", "N", "M"] (by decide) (by decide) (by decide +kernel)) fun fuel => ?_
  rcases fuel with _ | _ | fuel
  · exact List.nodup_nil
  · decide +kernel
  · show (["N", "A", "M"] : List String).Nodup
    decide

/-- `class A; include M; end` and `class B < A; include M; end` -/
def sharedModule : Program := declared
  [("B", ⟨[(.included, "M")], some "A"⟩), ("A", ⟨[(.included, "M")], none⟩), ("M", ⟨[], none⟩)]

/-- Ruby does not place `M` again before `A`, which has it. -/
theorem sharedModule_placed_again : ¬∀ (program : Program) (qn : String), Acyclic program → Few program qn →
    IsAncestors program qn (rubyAncestry program.mixinsOf qn true) := by
  intro exact_
  have acyclic : Acyclic sharedModule :=
    acyclic_of_rank (fun q => if q = "B" then 2 else if q = "A" then 1 else 0) (by decide +kernel)
  have few : Few sharedModule "B" :=
    few_of_listed ["B", "A", "M"] (by decide) (by decide) (by decide +kernel)
  obtain ⟨fuel, listed⟩ := exact_ sharedModule "B" acyclic few
  have walked : rubyAncestry sharedModule.mixinsOf "B" true = ["B", "M", "A"] := by decide +kernel
  rw [walked] at listed
  rcases fuel with _ | _ | _ | fuel
  · exact absurd listed (by decide +kernel)
  · exact absurd listed (by decide +kernel)
  · exact absurd listed (by decide +kernel)
  · have placed : ancestors sharedModule (fuel + 3) "B" = some ["B", "A", "M"] := rfl
    exact absurd (placed.symm.trans listed) (by decide)

end CodeGraph.Resolution.RubyAncestry
