import CodeGraph.Foundation.SequenceMerge
import CodeGraph.Types

/-!
# The method resolution order of a Python class

The order is the C3 linearization of the class over its indexed bases. A node stands for its id.
-/
namespace CodeGraph.Resolution.PythonMro

open SequenceMerge Relation

def isClassLike (kind : NodeKind) : Bool := kind = .class ∨ kind = .struct

/-- What the index says of a node: the targets of its `extends` edges, in their order, and the kind
of the node if it has one. -/
structure Index (ι : Type) where
  outgoingEdgeTargets : ι → List ι
  nodeById : ι → Option NodeKind

section Model

variable {ι : Type} [DecidableEq ι] (index : Index ι)

def bases (c : ι) : List ι :=
  (index.outgoingEdgeTargets c).foldl (fun bases t =>
    if (index.nodeById t).any isClassLike ∧ t ∉ bases then bases ++ [t] else bases) []

def retain (seqs : List (List ι)) : List (List ι) := seqs.filter (· ≠ [])

omit [DecidableEq ι] in
theorem total_retain (seqs : List (List ι)) : total (retain seqs) = total seqs := by
  rw [total, total, retain]
  induction seqs with
  | nil => rfl
  | cons q seqs ih =>
    cases q with
    | nil => simpa using ih
    | cons x q => simpa using ih

/-- The loop that merges the orders; `out` is what it has found. -/
def mergeLoop (seqs : List (List ι)) (out : List ι) : Option (List ι) :=
  let seqs' := retain seqs
  if seqs' = [] then some out
  else match _first : firstFree seqs' with
  | none => none
  | some head => mergeLoop (seqs'.map (pop head)) (out ++ [head])
termination_by total seqs
decreasing_by
  rw [← total_retain seqs]
  exact total_pop (free_of_first _first).1

def pythonMro (c : ι) (depth : Nat) : Option (List ι) :=
  if 16 < depth then none
  else match (bases index c).mapM fun b => pythonMro b (depth + 1) with
  | none => none
  | some seqs => mergeLoop (seqs ++ [bases index c]) [c]
termination_by 17 - depth

end Model

/-! ### The order that C3 means -/

section Orders

variable {ι : Type} [DecidableEq ι] (bases : ι → List ι)

def Reach : ι → ι → Prop := ReflTransGen fun a b => b ∈ bases a

/-- `L` satisfies the equations of C3 on `c` and what it inherits from: a class, then the merge of
its bases' orders and of its list of bases. -/
def Equations (c : ι) (L : ι → List ι) : Prop :=
  ∀ a, Reach bases c a → ∃ rest, L a = a :: rest ∧ Merges ((bases a).map L ++ [bases a]) rest

/-- `order` is the C3 linearization of `c`. -/
def Linearization (c : ι) (order : List ι) : Prop := ∃ L, Equations bases c L ∧ L c = order

structure Consistent (c : ι) (order : List ι) : Prop where
  starts : order.head? = some c
  once : order.Nodup
  ancestors : ∀ a, a ∈ order ↔ Reach bases c a
  locally_ : ∀ a, Reach bases c a → (bases a).Sublist order
  directly : ∀ b ∈ bases c, ∃ own, Linearization bases b own ∧ own.Sublist order

/-- Every chain of bases from `c` has at most `n` steps. -/
def ChainsWithin (n : Nat) (c : ι) : Prop :=
  ∀ chain, (c :: chain).IsChain (fun a b => b ∈ bases a) → chain.length ≤ n

/-- Some class that `c` inherits from inherits from itself. -/
def Cyclic (c : ι) : Prop := ∃ a, Reach bases c a ∧ TransGen (fun a b => b ∈ bases a) a a

end Orders

variable {ι : Type} [DecidableEq ι] {index : Index ι} {seqs seqs' : List (List ι)}
  {out rest order : List ι} {a b c h : ι} {depth : Nat} {L : ι → List ι}

theorem firstFree_retain (seqs : List (List ι)) : firstFree (retain seqs) = firstFree seqs := by
  have heads : (retain seqs).filterMap List.head? = seqs.filterMap List.head? := by
    rw [retain, List.filterMap_filter]
    congr 1
    funext q
    cases q with
    | nil => rfl
    | cons => rfl
  rw [firstFree, heads, firstFree]
  congr 1
  funext h
  rw [retain, List.all_filter]
  congr 1
  funext q
  cases q with
  | nil => simp
  | cons => simp

theorem retain_map_pop (seqs : List (List ι)) :
    retain ((retain seqs).map (pop h)) = retain (seqs.map (pop h)) := by
  rw [retain, retain, retain]
  induction seqs with
  | nil => rfl
  | cons q seqs ih =>
    cases q with
    | nil => simpa [pop] using ih
    | cons x q =>
      rw [List.filter_cons_of_pos (by simp), List.map_cons, List.map_cons, List.filter_cons,
        List.filter_cons, ih]

theorem merges_of_retain (merges : Merges seqs rest) (same : retain seqs = retain seqs') :
    Merges seqs' rest := by
  induction merges generalizing seqs' with
  | done empty =>
    apply Merges.done
    intro q mem
    by_contra full
    have kept : q ∈ retain seqs' := List.mem_filter.mpr ⟨mem, decide_eq_true full⟩
    rw [← same] at kept
    exact full (empty q (List.mem_filter.mp kept).1)
  | take first _ ih =>
    rw [← firstFree_retain, same, firstFree_retain] at first
    apply Merges.take first
    apply ih
    rw [← retain_map_pop, same, retain_map_pop]

omit [DecidableEq ι] in
theorem retain_retain (seqs : List (List ι)) : retain (retain seqs) = retain seqs :=
  List.filter_eq_self.mpr fun _ mem => (List.mem_filter.mp mem).2

theorem mergeLoop_eq_some : mergeLoop seqs out = some order ↔
    ∃ rest, Merges seqs rest ∧ order = out ++ rest := by
  fun_induction mergeLoop seqs out with
  | case1 seqs out seqs' empty =>
    have done : Merges seqs [] :=
      merges_of_retain (.done (fun _ mem => nomatch mem) : Merges [] []) empty.symm
    constructor
    · intro same
      exact ⟨[], done, by rw [← Option.some.inj same, List.append_nil]⟩
    · rintro ⟨rest, merges, rfl⟩
      rw [merges.unique done, List.append_nil]
  | case2 seqs out seqs' full none_ =>
    constructor
    · nofun
    · rintro ⟨rest, merges, _⟩
      cases merges_of_retain merges (retain_retain seqs).symm with
      | done empty =>
        obtain ⟨q, _, cons⟩ := List.exists_cons_of_ne_nil full
        have mem : q ∈ seqs' := by
          rw [cons]
          exact List.mem_cons_self
        exact absurd (empty q mem) (of_decide_eq_true (List.mem_filter.mp mem).2)
      | take first => exact absurd (none_.symm.trans first) (Option.some_ne_none _).symm
  | case3 seqs out seqs' full head first ih =>
    rw [ih]
    constructor
    · rintro ⟨rest, merges, rfl⟩
      refine ⟨head :: rest, ?_, by rw [List.append_assoc, List.singleton_append]⟩
      exact merges_of_retain (.take first merges) (retain_retain seqs)
    · rintro ⟨rest, merges, rfl⟩
      cases merges_of_retain merges (retain_retain seqs).symm with
      | done empty =>
        obtain ⟨⟨q, mem, found⟩, _⟩ := free_of_first first
        rw [empty q mem] at found
        cases found
      | @take _ h rest first' later =>
        obtain rfl : h = head := Option.some.inj (first'.symm.trans first)
        exact ⟨rest, later, by rw [List.append_assoc, List.singleton_append]⟩

omit [DecidableEq ι] in
theorem mapM_some {f : ι → Option (List ι)} {g : ι → List ι} {bs : List ι}
    (all : ∀ b ∈ bs, f b = some (g b)) : bs.mapM f = some (bs.map g) := by
  induction bs with
  | nil => rfl
  | cons b bs ih =>
    rw [List.mapM_cons, all b List.mem_cons_self, ih fun b mem => all b (List.mem_cons_of_mem _ mem)]
    rfl

omit [DecidableEq ι] in
theorem isSome_of_mapM {f : ι → Option (List ι)} {bs : List ι} {ms : List (List ι)}
    (done : bs.mapM f = some ms) : ∀ b ∈ bs, (f b).isSome := by
  induction bs generalizing ms with
  | nil => nofun
  | cons b bs ih =>
    rw [List.mapM_cons] at done
    obtain ⟨m, first, later⟩ := Option.bind_eq_some_iff.mp done
    obtain ⟨ms', others, _⟩ := Option.bind_eq_some_iff.mp later
    intro x mem
    rcases List.mem_cons.mp mem with rfl | mem
    · rw [first]
      rfl
    · exact ih others x mem

theorem pythonMro_merges (shallow : depth ≤ 16)
    (each : ∀ b ∈ bases index c, pythonMro index b (depth + 1) = some (L b)) :
    pythonMro index c depth = some order ↔
      ∃ rest, Merges ((bases index c).map L ++ [bases index c]) rest ∧ order = c :: rest := by
  rw [pythonMro, if_neg (Nat.not_lt.mpr shallow), mapM_some each]
  exact mergeLoop_eq_some

theorem pythonMro_some (done : pythonMro index c depth = some order) :
    depth ≤ 16 ∧ ∀ b ∈ bases index c, (pythonMro index b (depth + 1)).isSome := by
  rw [pythonMro] at done
  split at done
  next => cases done
  next shallow =>
    split at done
    next => cases done
    next seqs orders => exact ⟨Nat.not_lt.mp shallow, isSome_of_mapM orders⟩

theorem pythonMro_up (done : pythonMro index c (depth + 1) = some order) :
    pythonMro index c depth = some order := by
  induction room : 16 - depth generalizing c depth order with
  | zero =>
    have bound := (pythonMro_some done).1
    omega
  | succ n ih =>
    obtain ⟨bound, each⟩ := pythonMro_some done
    have deep : ∀ b ∈ bases index c, pythonMro index b (depth + 1 + 1) =
        some ((pythonMro index b (depth + 1 + 1)).getD []) := fun b mem => by
      obtain ⟨own, found⟩ := Option.isSome_iff_exists.mp (each b mem)
      rw [found, Option.getD_some]
    have higher := fun b mem => ih (deep b mem) (by omega)
    rw [pythonMro_merges bound deep] at done
    rwa [pythonMro_merges (by omega) higher]

theorem pythonMro_top (done : pythonMro index c depth = some order) :
    pythonMro index c 0 = some order := by
  induction depth with
  | zero => exact done
  | succ depth ih => exact ih (pythonMro_up done)

theorem isSome_of_reach (done : (pythonMro index c 0).isSome) (reach : Reach (bases index) c a) :
    (pythonMro index a 0).isSome := by
  induction reach with
  | refl => exact done
  | tail _ mem ih =>
    obtain ⟨order, found⟩ := Option.isSome_iff_exists.mp ih
    obtain ⟨own, found⟩ := Option.isSome_iff_exists.mp ((pythonMro_some found).2 _ mem)
    rw [pythonMro_top found]
    rfl

theorem linearization_of_pythonMro (done : pythonMro index c 0 = some order) :
    Linearization (bases index) c order := by
  refine ⟨fun a => (pythonMro index a 0).getD [], fun a reach => ?_, ?_⟩
  rotate_left
  · dsimp only
    rw [done, Option.getD_some]
  have isSome := isSome_of_reach (by rw [done]; rfl) reach
  obtain ⟨own, found⟩ := Option.isSome_iff_exists.mp isSome
  have each : ∀ b ∈ bases index a, pythonMro index b (0 + 1) =
      some ((pythonMro index b 0).getD []) := fun b mem => by
    obtain ⟨m, below⟩ := Option.isSome_iff_exists.mp ((pythonMro_some found).2 b mem)
    rw [below, pythonMro_top below, Option.getD_some]
  obtain ⟨rest, merges, shape⟩ := (pythonMro_merges (Nat.zero_le 16) each).mp found
  refine ⟨rest, ?_, merges⟩
  dsimp only
  rw [found, Option.getD_some, shape]

/-! ### Orders that satisfy the equations -/

section Equations

variable {bases : ι → List ι}

theorem Equations.reach (equations : Equations bases c L) (reach : Reach bases c a) :
    Equations bases a L :=
  fun _ further => equations _ (reach.trans further)

theorem Equations.base_sublist (equations : Equations bases c L) (mem : b ∈ bases c) :
    ∃ rest, L c = c :: rest ∧ (L b).Sublist rest ∧ (bases c).Sublist rest := by
  obtain ⟨rest, shape, merges⟩ := equations c .refl
  refine ⟨rest, shape, merges.sublist ?_, merges.sublist ?_⟩
  · exact List.mem_append_left _ (List.mem_map_of_mem mem)
  · exact List.mem_append_right _ (List.mem_singleton_self _)

theorem Equations.shorter (equations : Equations bases c L) (mem : b ∈ bases c) :
    (L b).length < (L c).length := by
  obtain ⟨rest, shape, own, _⟩ := equations.base_sublist mem
  rw [shape]
  exact Nat.lt_succ_of_le own.length_le

theorem Equations.shorter_trans (equations : Equations bases c L)
    (below : TransGen (fun a b => b ∈ bases a) c a) : (L a).length < (L c).length := by
  induction below with
  | single mem => exact equations.shorter mem
  | tail below mem ih =>
    exact Nat.lt_trans ((equations.reach below.to_reflTransGen).shorter mem) ih

theorem not_cyclic (equations : Equations bases c L) : ¬Cyclic bases c := by
  rintro ⟨a, reach, around⟩
  exact Nat.lt_irrefl _ ((equations.reach reach).shorter_trans around)

theorem Equations.mem_rest (equations : Equations bases c L) {rest : List ι}
    (shape : L c = c :: rest) : a ∈ rest ↔ a ∈ bases c ∨ ∃ b ∈ bases c, a ∈ L b := by
  obtain ⟨rest', shape', merges⟩ := equations c .refl
  obtain rfl : rest' = rest := by
    rw [shape'] at shape
    exact List.tail_eq_of_cons_eq shape
  rw [merges.mem_iff]
  constructor
  · rintro ⟨q, mem, inside⟩
    rcases mem_snoc.mp mem with own | listed
    · obtain ⟨b, base, rfl⟩ := List.mem_map.mp own
      exact Or.inr ⟨b, base, inside⟩
    · rw [listed] at inside
      exact Or.inl inside
  · rintro (base | ⟨b, base, inside⟩)
    · exact ⟨_, List.mem_append_right _ (List.mem_singleton_self _), base⟩
    · exact ⟨_, List.mem_append_left _ (List.mem_map_of_mem base), inside⟩

theorem Equations.mem_iff (equations : Equations bases c L) : a ∈ L c ↔ Reach bases c a := by
  induction size : (L c).length using Nat.strongRecOn generalizing c with
  | _ n ih =>
    obtain ⟨rest, shape, merges⟩ := equations c .refl
    have below {b : ι} (base : b ∈ bases c) : a ∈ L b ↔ Reach bases b a :=
      ih _ (size ▸ equations.shorter base) (equations.reach (.single base)) rfl
    rw [shape, List.mem_cons, equations.mem_rest shape]
    constructor
    · rintro (rfl | base | ⟨b, base, inside⟩)
      · exact .refl
      · exact .single base
      · exact .head base ((below base).mp inside)
    · intro reach
      cases reach.cases_head with
      | inl same => exact Or.inl same.symm
      | inr later =>
        obtain ⟨b, base, further⟩ := later
        exact Or.inr (Or.inr ⟨b, base, (below base).mpr further⟩)

theorem Equations.locally_ (equations : Equations bases c L) (reach : Reach bases c a) :
    (bases a).Sublist (L c) := by
  induction reach using ReflTransGen.head_induction_on with
  | refl =>
    obtain ⟨rest, shape, merges⟩ := equations a .refl
    rw [shape]
    exact (merges.sublist (List.mem_append_right _ (List.mem_singleton_self _))).cons a
  | head base further ih =>
    obtain ⟨rest, shape, own, _⟩ := equations.base_sublist base
    rw [shape]
    exact ((ih (equations.reach (.single base))).trans own).cons _

/-- The C3 linearization is an order that the class may have. -/
theorem Linearization.consistent (linear : Linearization bases c order) :
    Consistent bases c order := by
  obtain ⟨L, equations, rfl⟩ := linear
  obtain ⟨rest, shape, merges⟩ := equations c .refl
  refine ⟨by rw [shape, List.head?_cons], ?_, fun a => equations.mem_iff,
    fun a => equations.locally_, fun b base => ?_⟩
  · rw [shape, List.nodup_cons]
    refine ⟨fun again => ?_, merges.nodup⟩
    apply not_cyclic equations
    rcases (equations.mem_rest shape).mp again with base | ⟨b, base, inside⟩
    · exact ⟨c, .refl, .single base⟩
    · have reach := (equations.reach (.single base)).mem_iff.mp inside
      exact ⟨c, .refl, .head' base reach⟩
  · obtain ⟨rest', shape', own, _⟩ := equations.base_sublist base
    refine ⟨L b, ⟨L, equations.reach (.single base), rfl⟩, ?_⟩
    rw [shape']
    exact own.cons c

end Equations

omit [DecidableEq ι] in
theorem ChainsWithin.base {bases : ι → List ι} {n : Nat} (within : ChainsWithin bases n c)
    (mem : b ∈ bases c) : 0 < n ∧ ChainsWithin bases (n - 1) b := by
  have longer {chain : List ι} (links : (b :: chain).IsChain fun a b => b ∈ bases a) :
      chain.length + 1 ≤ n :=
    within (b :: chain) (List.isChain_cons_cons.mpr ⟨mem, links⟩)
  have one : 1 ≤ n := longer (.singleton b)
  exact ⟨one, fun chain links => Nat.le_sub_one_of_lt (longer links)⟩

theorem pythonMro_of_equations (shallow : depth ≤ 16)
    (within : ChainsWithin (bases index) (16 - depth) c)
    (equations : Equations (bases index) c L) : pythonMro index c depth = some (L c) := by
  induction room : 16 - depth using Nat.strongRecOn generalizing c depth with
  | _ n ih =>
    subst room
    have each : ∀ b ∈ bases index c, pythonMro index b (depth + 1) = some (L b) := by
      intro b mem
      obtain ⟨room, below⟩ := within.base mem
      exact ih (16 - (depth + 1)) (by omega) (by omega) below (equations.reach (.single mem)) rfl
    obtain ⟨rest, shape, merges⟩ := equations c .refl
    exact (pythonMro_merges shallow each).mpr ⟨rest, merges, shape⟩

theorem pythonMro_of_consistent (within : ChainsWithin (bases index) 16 c)
    (consistent : Consistent (bases index) c order) : (pythonMro index c 0).isSome := by
  have each : ∀ b ∈ bases index c, pythonMro index b (0 + 1) =
      some ((pythonMro index b (0 + 1)).getD []) ∧
      ((pythonMro index b (0 + 1)).getD []).Sublist order := by
    intro b mem
    obtain ⟨own, ⟨L, equations, rfl⟩, inside⟩ := consistent.directly b mem
    have found : pythonMro index b (0 + 1) = some (L b) :=
      pythonMro_of_equations (by decide) (within.base mem).2 equations
    rw [found, Option.getD_some]
    exact ⟨rfl, inside⟩
  have keeps : ∀ q ∈ (bases index c).map (fun b => (pythonMro index b (0 + 1)).getD []) ++
      [bases index c], q.Sublist order := by
    intro q mem
    rcases mem_snoc.mp mem with own | listed
    · obtain ⟨b, base, rfl⟩ := List.mem_map.mp own
      exact (each b base).2
    · rw [listed]
      exact consistent.locally_ c .refl
  obtain ⟨rest, merges⟩ := merges_of_order consistent.once keeps
  rw [(pythonMro_merges (Nat.zero_le 16) fun b mem => (each b mem).1).mpr ⟨rest, merges, rfl⟩]
  rfl

/-- Over chains of at most sixteen steps the result is the C3 linearization, and there is one where
an order is possible at all. A cycle has none. -/
theorem pythonMro_is_c3 (index : Index ι) (c : ι) :
    (ChainsWithin (bases index) 16 c →
      (∀ order, pythonMro index c 0 = some order ↔ Linearization (bases index) c order) ∧
      ((∃ order, pythonMro index c 0 = some order) ↔ ∃ order, Consistent (bases index) c order) ∧
      ∀ order, pythonMro index c 0 = some order → Consistent (bases index) c order) ∧
    (Cyclic (bases index) c → pythonMro index c 0 = none) := by
  constructor
  · intro within
    refine ⟨fun order => ⟨linearization_of_pythonMro, ?_⟩, ⟨?_, ?_⟩, fun order done => ?_⟩
    · rintro ⟨L, equations, rfl⟩
      exact pythonMro_of_equations (Nat.zero_le 16) within equations
    · rintro ⟨order, done⟩
      exact ⟨order, (linearization_of_pythonMro done).consistent⟩
    · rintro ⟨order, consistent⟩
      exact Option.isSome_iff_exists.mp (pythonMro_of_consistent within consistent)
    · exact (linearization_of_pythonMro done).consistent
  · intro cyclic
    cases done : pythonMro index c 0 with
    | none => rfl
    | some order =>
      obtain ⟨L, equations, _⟩ := linearization_of_pythonMro done
      exact absurd cyclic (not_cyclic equations)

omit [DecidableEq ι] in
theorem ChainsWithin.of_bases {bases : ι → List ι} {n : Nat}
    (each : ∀ b ∈ bases c, ChainsWithin bases n b) : ChainsWithin bases (n + 1) c := by
  intro chain links
  cases chain with
  | nil => exact Nat.zero_le _
  | cons b chain =>
    obtain ⟨mem, later⟩ := List.isChain_cons_cons.mp links
    exact Nat.succ_le_succ (each b mem chain later)

def diamond : Index Nat where
  outgoingEdgeTargets
    | 0 => [1, 2]
    | 1 => [3]
    | 2 => [3]
    | 4 => [4]
    | _ => []
  nodeById _ := some .class

theorem pythonMro_is_c3_diamond :
    Consistent (bases diamond) 0 [0, 1, 2, 3] ∧ pythonMro diamond 4 0 = none := by
  have three : ChainsWithin (bases diamond) 14 3 := .of_bases fun _ mem => nomatch mem
  have within : ChainsWithin (bases diamond) 16 0 := by
    apply ChainsWithin.of_bases
    intro b mem
    apply ChainsWithin.of_bases
    intro d below
    have last : d = 3 := by
      rcases List.mem_pair.mp mem with rfl | rfl
      · exact List.mem_singleton.mp below
      · exact List.mem_singleton.mp below
    rw [last]
    exact three
  have order : pythonMro diamond 0 0 = some [0, 1, 2, 3] := by decide +kernel
  have itself : 4 ∈ bases diamond 4 := List.mem_singleton_self 4
  exact ⟨((pythonMro_is_c3 diamond 0).1 within).2.2 _ order,
    (pythonMro_is_c3 diamond 4).2 ⟨4, .refl, .single itself⟩⟩

end CodeGraph.Resolution.PythonMro
