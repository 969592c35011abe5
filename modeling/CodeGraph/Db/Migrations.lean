import CodeGraph.Foundation.OrderBy
import CodeGraph.Foundation.Transitions

/-!
# Schema migrations

`runMigrations` takes one transaction for each migration that it found pending, and other processes
may take theirs in between. What a migration does to the tables is left open; which ones take effect,
and in what order, is decided by `schema_versions`.
-/
namespace CodeGraph.Db.Migrations

open OrderBy

variable {δ ε : Type}

/-- A row of `schema_versions`. -/
structure VersionRow where
  version : Nat
  applied_at : Nat
  description : String
  deriving DecidableEq, Repr

/-- The database: the table of versions, if it exists yet, and everything else. -/
structure Database (δ : Type) where
  schema_versions : Option (List VersionRow)
  rest : δ
  deriving DecidableEq, Repr

inductive Failure (ε : Type) where
  /-- The migration itself throws. -/
  | up (error : ε)
  /-- `schema_versions` does not exist. -/
  | noTable
  /-- The version is recorded already. -/
  | unique (version : Nat)
  deriving DecidableEq, Repr

structure Migration (δ ε : Type) where
  version : Nat
  description : String
  up : δ → Except ε δ

def migrations (up : Nat → δ → Except ε δ) : List (Migration δ ε) :=
  [⟨2, "Add project metadata, provenance tracking, and unresolved ref context", up 2⟩,
   ⟨3, "Add lower(name) expression index for memory-efficient case-insensitive lookups", up 3⟩,
   ⟨4, "Drop redundant idx_edges_source / idx_edges_target (covered by source_kind / target_kind composites)", up 4⟩,
   ⟨5, "Add nodes.return_type — normalized return/result type for receiver-type inference (C++ singletons/factories, #645)", up 5⟩,
   ⟨6, "Dedup duplicate edge rows and add a UNIQUE identity index so INSERT OR IGNORE actually dedups (#1034)", up 6⟩,
   ⟨7, "Add name_segment_vocab — prose-word → symbol-name lookup for the prompt hook’s graph-derived gate", up 7⟩,
   ⟨8, "Track attempted-but-unresolvable refs as status=failed so sync can retry them when a changed file adds a matching symbol (#1240)", up 8⟩,
   ⟨9, "Add files.generated — index-time content-header generated-file detection for ranking (#1500)", up 9⟩,
   ⟨10, "Add literals — identifier-like string literal → enclosing symbol, so explore seeds on storage keys and flags", up 10⟩,
   ⟨11, "Add bindings — what each name in a file is bound to and whether it is exported (resolution-binding-model-plan.md)", up 11⟩,
   ⟨12, "Retain unresolved receiver diagnostics", up 12⟩,
   ⟨13, "Near-duplicate function bodies: MinHash signatures and pairs", up 13⟩,
   ⟨14, "Near-duplicate pair scores kept between runs", up 14⟩,
   ⟨15, "Files each synthesis pass skipped, keyed by content hash", up 15⟩,
   ⟨16, "Store synthesis skips one row per file, listing the passes that skipped it", up 16⟩,
   ⟨17, "Widen idx_nodes_kind to (kind, name) so name substring scans read only the index", up 17⟩,
   ⟨18, "Retry a failed import when sync adds the file it names: path tails and failed-import indexes", up 18⟩,
   ⟨19, "Retry a failed path reference when sync adds the file it names: file-name tails", up 19⟩,
   ⟨20, "Retry a failed route module reference when sync adds or changes its file: module tails", up 20⟩,
   ⟨21, "Retry a failed reference through an import binding by its whole name: module-tail name index", up 21⟩,
   ⟨22, "Retry a failed member reference through an import binding by its member: module-tail member index", up 22⟩,
   ⟨23, "Add synthesis_inputs — files whose content fed the last synthesis run, so a later sync can tell an input was removed", up 23⟩,
   ⟨24, "Add nodes.search_text and index it in nodes_fts for folded Markdown search text", up 24⟩]

def getCurrentVersion (db : Database δ) : Nat :=
  match db.schema_versions with
  | none => 0
  | some rows => (rows.map VersionRow.version).max?.getD 0

def recordMigration (db : Database δ) (version : Nat) (description : String) (now : Nat) :
    Except (Failure ε) (Database δ) :=
  match db.schema_versions with
  | none => .error .noTable
  | some rows =>
    if version ∈ rows.map VersionRow.version then .error (.unique version)
    else .ok { db with schema_versions := some (rows ++ [⟨version, now, description⟩]) }

/-- One transaction of `runMigrations`: `none` if it leaves the database as it is, and an error rolls
it back. -/
def migrate (fromVersion : Nat) (migration : Migration δ ε) (now : Nat) (db : Database δ) :
    Except (Failure ε) (Option (Database δ)) :=
  if max fromVersion (getCurrentVersion db) ≥ migration.version then .ok none
  else do
    let rest ← (migration.up db.rest).mapError Failure.up
    let db ← recordMigration { db with rest } migration.version migration.description now
    return some db

def pending (known : List (Migration δ ε)) (fromVersion : Nat) : List (Migration δ ε) :=
  sortBy (compareOn Migration.version) (known.filter fun m => m.version > fromVersion)

/-- The transactions of `runMigrations` one after another; `clock` says when each is recorded. -/
def transactions (fromVersion : Nat) (clock : Nat → Nat) (pending : List (Migration δ ε))
    (db : Database δ) : Except (Failure ε) (Database δ) :=
  pending.foldlM (fun db m => (·.getD db) <$> migrate fromVersion m (clock m.version) db) db

/-- `runMigrations` where no other process writes meanwhile. -/
def runMigrations (known : List (Migration δ ε)) (fromVersion : Nat) (clock : Nat → Nat)
    (db : Database δ) : Except (Failure ε) (Database δ) :=
  transactions fromVersion clock (pending known fromVersion) db

/-! ### Processes that migrate one database -/

def known (up : Nat → δ → Except ε δ) (build : Nat) : List (Migration δ ε) :=
  (migrations up).take build

inductive Process (δ ε : Type) where
  | idle
  /-- It has read the version. -/
  | opened (fromVersion : Nat)
  /-- It is in `runMigrations`, with transactions to take. -/
  | running (fromVersion : Nat) (pending : List (Migration δ ε))
  | returned
  | failed (error : Failure ε)
  | dead

structure State (δ ε : Type) where
  db : Database δ
  process : Nat → Process δ ε
  /-- The versions of the migrations that took effect, the first one first. -/
  applied : List Nat

inductive Event where
  | read (p : Nat)
  | call (p : Nat)
  /-- A process takes its next transaction. -/
  | transact (p now : Nat)
  | finish (p : Nat)
  /-- A process dies; a transaction that it is inside is rolled back. -/
  | die (p : Nat)

namespace State

def start (db : Database δ) : State δ ε := ⟨db, fun _ => .idle, []⟩

def set (s : State δ ε) (p : Nat) (process : Process δ ε) : State δ ε :=
  { s with process := Function.update s.process p process }

@[simp] theorem set_db (s : State δ ε) (p : Nat) (process : Process δ ε) :
    (s.set p process).db = s.db := rfl

@[simp] theorem set_applied (s : State δ ε) (p : Nat) (process : Process δ ε) :
    (s.set p process).applied = s.applied := rfl

@[simp] theorem set_process_self (s : State δ ε) (p : Nat) (process : Process δ ε) :
    (s.set p process).process p = process := Function.update_self ..

theorem set_process_of_ne (s : State δ ε) (process : Process δ ε) {p q : Nat} (other : q ≠ p) :
    (s.set p process).process q = s.process q := Function.update_of_ne other ..

/-- The transaction of the process `p` for `migration`, with those of `rest` still to take. -/
def transact (s : State δ ε) (p fromVersion : Nat) (migration : Migration δ ε)
    (rest : List (Migration δ ε)) (now : Nat) : State δ ε :=
  match migrate fromVersion migration now s.db with
  | .error e => s.set p (.failed e)
  | .ok none => s.set p (.running fromVersion rest)
  | .ok (some db) =>
    { s.set p (.running fromVersion rest) with db, applied := s.applied ++ [migration.version] }

/-- One step of the process `p`, whose program is of the given build. -/
def step (up : Nat → δ → Except ε δ) (build : Nat → Nat) (s : State δ ε) :
    Event → Option (State δ ε)
  | .read p =>
    match s.process p with
    | .idle => some (s.set p (.opened (getCurrentVersion s.db)))
    | _ => none
  | .call p =>
    match s.process p with
    | .opened v => some (s.set p (.running v (pending (known up (build p)) v)))
    | _ => none
  | .transact p now =>
    match s.process p with
    | .running v (migration :: rest) => some (s.transact p v migration rest now)
    | _ => none
  | .finish p =>
    match s.process p with
    | .running _ [] => some (s.set p .returned)
    | _ => none
  | .die p =>
    match s.process p with
    | .opened _ | .running _ _ => some (s.set p .dead)
    | _ => none

end State

/-!
### Migrations under any interleaving

The transactions that take effect are those of one process that runs alone: in every state the database
is what the migrations up to its recorded version make of the first one.
-/

open Transitions

variable {up : Nat → δ → Except ε δ} {build : Nat → Nat} {db₀ db db' : Database δ}
  {m : Migration δ ε} {ms : List (Migration δ ε)} {f g v w now : Nat} {clock clock' : Nat → Nat}
  {e : Failure ε} {s t : State δ ε}

/-! ### The list of migrations -/

def Ascending (ms : List (Migration δ ε)) : Prop := ms.Pairwise fun a b => a.version < b.version

theorem migrations_ascending (up : Nat → δ → Except ε δ) : Ascending (migrations up) := by
  have versions : ((migrations up).map Migration.version).Pairwise (· < ·) := by
    have listed : (migrations up).map Migration.version = List.range' 2 23 := rfl
    rw [listed]
    exact List.pairwise_lt_range'
  exact List.pairwise_map.mp versions

theorem known_ascending (k : Nat) : Ascending (known up k) :=
  (migrations_ascending up).sublist (List.take_sublist _ _)

theorem pending_eq (ascending : Ascending ms) (f : Nat) :
    pending ms f = ms.filter fun m => m.version > f := by
  have kept : Ascending (ms.filter fun m => m.version > f) := ascending.filter _
  symm
  apply sortBy_unique _ (List.Perm.refl _)
  · exact kept.imp fun {a b} lt => Ordering.isLE_of_eq_lt (Nat.compare_eq_lt.mpr lt)
  · intro a first b second same
    have equal : a.version = b.version := Nat.compare_eq_eq.mp same
    by_contra other
    have apart := (List.pairwise_iff_getElem.mp kept)
    obtain ⟨i, hi, rfl⟩ := List.getElem_of_mem first
    obtain ⟨j, hj, rfl⟩ := List.getElem_of_mem second
    rcases Nat.lt_trichotomy i j with lt | rfl | gt
    · have := apart i j hi hj lt
      omega
    · exact other rfl
    · have := apart j i hj hi gt
      omega

theorem known_lower {k : Nat} {x : Migration δ ε} (listed : m ∈ known up k)
    (there : x ∈ migrations up) (lower : x.version < m.version) : x ∈ known up k := by
  have split : x ∈ known up k ++ (migrations up).drop k := by
    rw [known, List.take_append_drop]
    exact there
  rcases List.mem_append.mp split with here | after
  · exact here
  · have sorted : Ascending (known up k ++ (migrations up).drop k) := by
      rw [known, List.take_append_drop]
      exact migrations_ascending up
    have later := (List.pairwise_append.mp sorted).2.2 m listed x after
    omega

/-- The migrations above `v` and up to `w`. -/
def between (ms : List (Migration δ ε)) (v w : Nat) : List (Migration δ ε) :=
  ms.filter fun m => v < m.version ∧ m.version ≤ w

theorem between_self : between ms v v = [] := by
  simp [between]

/-- The migrations above `v` are those up to `w` and then those above `w`. -/
theorem filter_split (ascending : Ascending ms) (le : v ≤ w) :
    (ms.filter fun m => m.version > v) = between ms v w ++ ms.filter fun m => m.version > w := by
  induction ms with
  | nil => rfl
  | cons m ms ih =>
    have later := (List.pairwise_cons.mp ascending).1
    have tail := ih ascending.of_cons
    by_cases above : w < m.version
    · have none_left : between ms v w = [] := by
        rw [between, List.filter_eq_nil_iff]
        intro x listed
        have := later x listed
        simp
        omega
      have all : (ms.filter fun m => m.version > v) = ms.filter fun m => m.version > w := by
        rw [tail, none_left, List.nil_append]
      have skip : between (m :: ms) v w = [] := by
        rw [between, List.filter_cons_of_neg (by simp; omega)]
        exact none_left
      rw [skip, List.nil_append, List.filter_cons_of_pos (by simp; omega),
        List.filter_cons_of_pos (by simpa using above), all]
    · by_cases beyond : v < m.version
      · have keep : between (m :: ms) v w = m :: between ms v w :=
          List.filter_cons_of_pos (by simp; omega)
        rw [keep, List.filter_cons_of_pos (by simpa using beyond),
          List.filter_cons_of_neg (by simpa using above), tail, List.cons_append]
      · have drop : between (m :: ms) v w = between ms v w :=
          List.filter_cons_of_neg (by simp; omega)
        rw [drop, List.filter_cons_of_neg (by simpa using beyond),
          List.filter_cons_of_neg (by simpa using above), tail]

theorem between_next (ascending : Ascending ms) (listed : m ∈ ms) (le : v ≤ w) (lt : w < m.version)
    (next : ∀ x ∈ ms, x.version < m.version → x.version ≤ w) :
    between ms v m.version = between ms v w ++ [m] := by
  obtain ⟨before, after, rfl⟩ := List.append_of_mem listed
  have parts := List.pairwise_append.mp ascending
  have higher := (List.pairwise_cons.mp parts.2.1).1
  have none_after : ∀ u ≤ m.version, between after v u = [] := by
    intro u small
    rw [between, List.filter_eq_nil_iff]
    intro x there
    have := higher x there
    simp only [decide_eq_true_eq]
    omega
  have same : between before v m.version = between before v w := by
    apply List.filter_congr
    intro x there
    have lower : x.version < m.version := parts.2.2 x there m List.mem_cons_self
    have small := next x (List.mem_append_left _ there) lower
    have same : (v < x.version ∧ x.version ≤ m.version) ↔ v < x.version ∧ x.version ≤ w := by omega
    exact decide_eq_decide.mpr same
  have here : between (m :: after) v m.version = m :: between after v m.version :=
    List.filter_cons_of_pos (by simp; omega)
  have gone : between (m :: after) v w = between after v w :=
    List.filter_cons_of_neg (by simp; omega)
  have left : between (before ++ m :: after) v m.version =
      between before v m.version ++ between (m :: after) v m.version := List.filter_append _ _
  have right : between (before ++ m :: after) v w =
      between before v w ++ between (m :: after) v w := List.filter_append _ _
  rw [left, right, same, here, gone, none_after _ (Nat.le_refl _), none_after w (by omega),
    List.append_nil]

theorem recorded_le {rows : List VersionRow} (table : db.schema_versions = some rows)
    (listed : v ∈ rows.map VersionRow.version) : v ≤ getCurrentVersion db := by
  simp only [getCurrentVersion, table]
  cases top : (rows.map VersionRow.version).max? with
  | none =>
    rw [List.max?_eq_none_iff] at top
    rw [top] at listed
    cases listed
  | some y => exact (List.max?_eq_some_iff.mp top).2 v listed

theorem getCurrentVersion_concat {rows : List VersionRow} {row : VersionRow} {rest : δ}
    (table : db.schema_versions = some rows) (above : getCurrentVersion db < row.version) :
    getCurrentVersion ⟨some (rows ++ [row]), rest⟩ = row.version := by
  have largest : ((rows ++ [row]).map VersionRow.version).max? = some row.version := by
    rw [List.max?_eq_some_iff, List.map_append]
    refine ⟨List.mem_append_right _ List.mem_cons_self, ?_⟩
    intro x listed
    rcases mem_snoc.mp listed with old | last
    · have := recorded_le table old
      omega
    · exact Nat.le_of_eq last
  simp only [getCurrentVersion, largest, Option.getD_some]

/-- What a transaction does: it leaves a version that is there already, it fails where the migration or
its record does, or it leads to the migration's version. -/
theorem migrate_cases (f now : Nat) (m : Migration δ ε) (db : Database δ) :
    (m.version ≤ max f (getCurrentVersion db) ∧ migrate f m now db = .ok none) ∨
    max f (getCurrentVersion db) < m.version ∧
      ((∃ db', migrate f m now db = .ok (some db') ∧ getCurrentVersion db' = m.version ∧
        ∀ g ≤ getCurrentVersion db, migrate g m now db = .ok (some db')) ∨
      ∃ e, migrate f m now db = .error e ∧
        ∀ g ≤ getCurrentVersion db, ∀ now', migrate g m now' db = .error e) := by
  by_cases skipped : m.version ≤ max f (getCurrentVersion db)
  · exact .inl ⟨skipped, if_pos skipped⟩
  · right
    have above : getCurrentVersion db < m.version := by omega
    have body : ∀ g now', max g (getCurrentVersion db) < m.version → migrate g m now' db =
        ((m.up db.rest).mapError Failure.up >>= fun rest =>
          recordMigration { db with rest } m.version m.description now' >>= fun db =>
          .ok (some db)) := by
      intro g now' beyond
      exact if_neg (by omega)
    refine ⟨by omega, ?_⟩
    cases ran : m.up db.rest with
    | error x =>
      right
      have thrown : ∀ g now', max g (getCurrentVersion db) < m.version →
          migrate g m now' db = .error (.up x) := by
        intro g now' beyond
        rw [body g now' beyond, ran]
        rfl
      exact ⟨.up x, thrown f now (by omega), fun g le now' => thrown g now' (by omega)⟩
    | ok rest =>
      cases table : db.schema_versions with
      | none =>
        right
        have thrown : ∀ g now', max g (getCurrentVersion db) < m.version →
            migrate g m now' db = .error .noTable := by
          intro g now' beyond
          rw [body g now' beyond, ran]
          simp only [Except.mapError, recordMigration, table, bind, Except.bind]
        exact ⟨.noTable, thrown f now (by omega), fun g le now' => thrown g now' (by omega)⟩
      | some rows =>
        left
        have fresh : m.version ∉ rows.map VersionRow.version := by
          intro listed
          have := recorded_le table listed
          omega
        have recorded : recordMigration { db with rest } m.version m.description now =
            (.ok ⟨some (rows ++ [⟨m.version, now, m.description⟩]), rest⟩ :
              Except (Failure ε) (Database δ)) := by
          simp only [recordMigration, table, if_neg fresh]
        have made : ∀ g, max g (getCurrentVersion db) < m.version → migrate g m now db =
            .ok (some ⟨some (rows ++ [⟨m.version, now, m.description⟩]), rest⟩) := by
          intro g beyond
          rw [body g now beyond, ran]
          simp only [Except.mapError, bind, Except.bind, recorded]
        have current : getCurrentVersion ⟨some (rows ++ [⟨m.version, now, m.description⟩]), rest⟩ = m.version :=
          getCurrentVersion_concat table above
        exact ⟨_, made f (by omega), current, fun g le => made g (by omega)⟩

theorem transactions_append (ms ms' : List (Migration δ ε)) :
    transactions f clock (ms ++ ms') db =
      transactions f clock ms db >>= transactions f clock ms' :=
  List.foldlM_append

theorem transactions_congr (same : ∀ m ∈ ms, clock m.version = clock' m.version) :
    transactions f clock ms db = transactions f clock' ms db := by
  induction ms generalizing db with
  | nil => rfl
  | cons m ms ih =>
    have first := same m List.mem_cons_self
    have rest : ∀ db, transactions f clock ms db = transactions f clock' ms db :=
      fun db => ih fun x listed => same x (List.mem_cons_of_mem m listed)
    simp only [transactions, List.foldlM_cons, first] at rest ⊢
    congr 1
    funext db
    exact rest db

/-! ### Runs -/

def Sound (up : Nat → δ → Except ε δ) (db₀ : Database δ) (k current : Nat) : Process δ ε → Prop
  | .idle => True
  | .opened f => f ≤ current
  | .running f rest => f ≤ current ∧ ∃ done,
    ((known up k).filter fun m => m.version > f) = done ++ rest ∧ ∀ m ∈ done, m.version ≤ current
  | .returned => ∀ m ∈ known up k, m.version ≤ current
  | .failed e =>
    ∃ clock, runMigrations (known up k) (getCurrentVersion db₀) clock db₀ = .error e
  | .dead => True

theorem Sound.mono {k : Nat} {process : Process δ ε} (sound : Sound up db₀ k v process)
    (le : v ≤ w) : Sound up db₀ k w process := by
  cases process with
  | idle => trivial
  | opened f => exact Nat.le_trans sound le
  | running f rest =>
    obtain ⟨floor, done, split, below⟩ := sound
    exact ⟨Nat.le_trans floor le, done, split, fun m listed => Nat.le_trans (below m listed) le⟩
  | returned => exact fun m listed => Nat.le_trans (sound m listed) le
  | failed e => exact sound
  | dead => trivial

/-- The database is what one process makes of the first one, up to the recorded version. -/
structure Inv (up : Nat → δ → Except ε δ) (build : Nat → Nat) (db₀ : Database δ) (s : State δ ε) :
    Prop where
  least : getCurrentVersion db₀ ≤ getCurrentVersion s.db
  effect : ∃ clock, transactions (getCurrentVersion db₀) clock
    (between (migrations up) (getCurrentVersion db₀) (getCurrentVersion s.db)) db₀ = .ok s.db
  applied : s.applied = (between (migrations up) (getCurrentVersion db₀)
    (getCurrentVersion s.db)).map Migration.version
  sound : ∀ p, Sound up db₀ (build p) (getCurrentVersion s.db) (s.process p)

theorem inv_start : Inv up build db₀ (State.start db₀) where
  least := Nat.le_refl _
  effect := ⟨fun _ => 0, by rw [State.start, between_self]; rfl⟩
  applied := by rw [State.start, between_self]; rfl
  sound _ := trivial

theorem Inv.set {p : Nat} {process : Process δ ε} (inv : Inv up build db₀ s)
    (sound : Sound up db₀ (build p) (getCurrentVersion s.db) process) :
    Inv up build db₀ (s.set p process) where
  least := inv.least
  effect := inv.effect
  applied := inv.applied
  sound q := by
    by_cases same : q = p
    · subst same
      rw [State.set_db, State.set_process_self]
      exact sound
    · rw [State.set_db, State.set_process_of_ne s process same]
      exact inv.sound q

/-- Where a process takes its next transaction, it has seen to all lower migrations. -/
theorem next_lower {k : Nat} {done rest : List (Migration δ ε)} (floor : f ≤ v)
    (split : ((known up k).filter fun m => m.version > f) = done ++ m :: rest)
    (below : ∀ m ∈ done, m.version ≤ v) :
    ∀ x ∈ migrations up, x.version < m.version → x.version ≤ v := by
  intro x there lower
  have listed : m ∈ (known up k).filter fun m => m.version > f := by simp [split]
  have here := known_lower (List.mem_of_mem_filter listed) there lower
  by_cases old : x.version ≤ f
  · omega
  · have kept : x ∈ done ++ m :: rest := by
      rw [← split]
      exact List.mem_filter.mpr ⟨here, by simpa using old⟩
    have sorted : Ascending (done ++ m :: rest) := by
      rw [← split]
      exact (known_ascending k).filter _
    rcases List.mem_append.mp kept with seen | ahead
    · exact below x seen
    · rcases List.mem_cons.mp ahead with rfl | after
      · omega
      · have := (List.pairwise_cons.mp (List.pairwise_append.mp sorted).2.1).1 x after
        omega

theorem alone_next {k : Nat} {done rest : List (Migration δ ε)} (le : v ≤ w) (floor : f ≤ w)
    (above : w < m.version)
    (split : ((known up k).filter fun m => m.version > f) = done ++ m :: rest)
    (below : ∀ m ∈ done, m.version ≤ w) :
    ∃ after, pending (known up k) v = between (migrations up) v w ++ m :: after := by
  have listed : m ∈ (known up k).filter fun m => m.version > f := by simp [split]
  have here := List.mem_of_mem_filter listed
  have lower := next_lower floor split below
  have same : between (known up k) v w = between (migrations up) v w := by
    have whole : migrations up = known up k ++ (migrations up).drop k := by
      rw [known, List.take_append_drop]
    have sorted := migrations_ascending up
    rw [whole] at sorted
    have none_left : between ((migrations up).drop k) v w = [] := by
      rw [between, List.filter_eq_nil_iff]
      intro x after
      have := (List.pairwise_append.mp sorted).2.2 m here x after
      simp only [decide_eq_true_eq]
      omega
    have parts : between (known up k ++ (migrations up).drop k) v w =
        between (known up k) v w ++ between ((migrations up).drop k) v w := List.filter_append _ _
    rw [← whole, none_left, List.append_nil] at parts
    exact parts.symm
  have tail : ((known up k).filter fun m => m.version > w) = m :: rest.filter fun m => m.version > w := by
    have twice : ((known up k).filter fun m => m.version > w) =
        ((known up k).filter fun m => m.version > f).filter fun m => m.version > w := by
      rw [List.filter_filter]
      apply List.filter_congr
      intro x _
      have implied : w < x.version → f < x.version := fun above => by omega
      simpa using implied
    have none_done : (done.filter fun m => m.version > w) = [] := by
      rw [List.filter_eq_nil_iff]
      intro x seen
      have := below x seen
      simpa using this
    rw [twice, split, List.filter_append, none_done, List.nil_append,
      List.filter_cons_of_pos (by simpa using above)]
  refine ⟨rest.filter fun m => m.version > w, ?_⟩
  rw [pending_eq (known_ascending k), filter_split (known_ascending k) le, same, tail]

theorem Inv.transact {p : Nat} {rest : List (Migration δ ε)} (inv : Inv up build db₀ s)
    (running : s.process p = .running f (m :: rest)) :
    Inv up build db₀ (s.transact p f m rest now) := by
  have sound := inv.sound p
  rw [running] at sound
  obtain ⟨floor, done, split, below⟩ := sound
  have listed : m ∈ (known up (build p)).filter fun m => m.version > f := by simp [split]
  have beyond : f < m.version := by simpa using (List.mem_filter.mp listed).2
  have there : m ∈ migrations up := List.mem_of_mem_take (List.mem_of_mem_filter listed)
  have lower := next_lower floor split below
  have moved : ((known up (build p)).filter fun m => m.version > f) = (done ++ [m]) ++ rest := by
    simp [split]
  rcases migrate_cases f now m s.db with ⟨skipped, outcome⟩ | ⟨above, outcome⟩
  · -- another process has applied it
    rw [State.transact, outcome]
    apply inv.set
    exact ⟨floor, done ++ [m], moved, forall_snoc below (by omega)⟩
  · have higher : getCurrentVersion s.db < m.version := by omega
    obtain ⟨clock, effect⟩ := inv.effect
    rcases outcome with ⟨db', done_, current, same⟩ | ⟨e, thrown, same⟩
    · -- it takes effect, as it would if no other process ran
      have grows : getCurrentVersion s.db ≤ getCurrentVersion db' := by omega
      have next := between_next (migrations_ascending up) there inv.least higher lower
      rw [State.transact, done_]
      refine ⟨Nat.le_trans inv.least grows, ⟨Function.update clock m.version now, ?_⟩, ?_, ?_⟩
      · have earlier : transactions (getCurrentVersion db₀) (Function.update clock m.version now)
            (between (migrations up) (getCurrentVersion db₀) (getCurrentVersion s.db)) db₀ =
            .ok s.db := by
          rw [← effect]
          apply transactions_congr
          intro x kept
          have bound := (List.mem_filter.mp kept).2
          simp only [decide_eq_true_eq] at bound
          exact Function.update_of_ne (by omega) _ _
        have last := same (getCurrentVersion db₀) inv.least
        rw [current, next, transactions_append, earlier]
        simp only [transactions, List.foldlM_cons, List.foldlM_nil, Function.update_self, last,
          bind, Except.bind, Functor.map, Except.map, pure, Except.pure, Option.getD_some]
      · rw [current, next, List.map_append, inv.applied]
        rfl
      · intro q
        by_cases self : q = p
        · subst self
          simp only [State.set_process_self]
          refine ⟨Nat.le_trans floor grows, done ++ [m], moved, ?_⟩
          intro x seen
          rcases mem_snoc.mp seen with old | last
          · exact Nat.le_trans (below x old) grows
          · rw [last]
            omega
        · simp only [State.set_process_of_ne s _ self]
          exact (inv.sound q).mono grows
    · -- it fails, as it would if no other process ran
      rw [State.transact, thrown]
      apply inv.set
      obtain ⟨after, alone⟩ := alone_next inv.least floor higher split below
      refine ⟨clock, ?_⟩
      have last := same (getCurrentVersion db₀) inv.least (clock m.version)
      rw [runMigrations, alone, transactions_append, effect]
      simp only [transactions, List.foldlM_cons, last, bind, Except.bind, Functor.map, Except.map]

theorem Inv.step {event : Event} (inv : Inv up build db₀ s)
    (taken : s.step up build event = some t) : Inv up build db₀ t := by
  cases event with
  | read p =>
    cases at_ : s.process p with
    | idle =>
      simp only [State.step, at_, Option.some.injEq] at taken
      subst taken
      exact inv.set (Nat.le_refl _)
    | _ => simp only [State.step, at_, reduceCtorEq] at taken
  | call p =>
    cases at_ : s.process p with
    | opened f =>
      simp only [State.step, at_, Option.some.injEq] at taken
      subst taken
      have floor := inv.sound p
      rw [at_] at floor
      apply inv.set
      refine ⟨floor, [], ?_, nofun⟩
      rw [List.nil_append, pending_eq (known_ascending _)]
    | _ => simp only [State.step, at_, reduceCtorEq] at taken
  | transact p now =>
    cases at_ : s.process p with
    | running f rest =>
      cases rest with
      | nil => simp only [State.step, at_, reduceCtorEq] at taken
      | cons m rest =>
        simp only [State.step, at_, Option.some.injEq] at taken
        subst taken
        exact inv.transact at_
    | _ => simp only [State.step, at_, reduceCtorEq] at taken
  | finish p =>
    cases at_ : s.process p with
    | running f rest =>
      cases rest with
      | cons m rest => simp only [State.step, at_, reduceCtorEq] at taken
      | nil =>
        simp only [State.step, at_, Option.some.injEq] at taken
        subst taken
        have sound := inv.sound p
        rw [at_] at sound
        obtain ⟨floor, done, split, below⟩ := sound
        rw [List.append_nil] at split
        apply inv.set
        intro m listed
        by_cases beyond : f < m.version
        · apply below m
          rw [← split]
          exact List.mem_filter.mpr ⟨listed, by simpa using beyond⟩
        · omega
    | _ => simp only [State.step, at_, reduceCtorEq] at taken
  | die p =>
    cases at_ : s.process p with
    | opened f | running f rest =>
      simp only [State.step, at_, Option.some.injEq] at taken
      subst taken
      exact inv.set trivial
    | _ => simp only [State.step, at_, reduceCtorEq] at taken

theorem Inv.of_reachable (reached : Reachable (State.start db₀) (State.step up build) s) :
    Inv up build db₀ s :=
  reached.invariant inv_start fun _ _ _ inv taken => inv.step taken

/-- What holds of migrations on the database `db₀`, whoever runs them. -/
structure InOrder (up : Nat → δ → Except ε δ) (build : Nat → Nat) (db₀ : Database δ)
    (s : State δ ε) : Prop where
  once : s.applied.Nodup
  increasing : s.applied.Pairwise (· < ·)
  listed : ∀ version ∈ s.applied, ∃ m ∈ migrations up, m.version = version ∧
    getCurrentVersion db₀ < version
  unskipped : ∀ m ∈ migrations up, getCurrentVersion db₀ < m.version →
    (∃ version ∈ s.applied, m.version ≤ version) → m.version ∈ s.applied
  /-- The database holds what the migrations that took effect make of the first one. -/
  effect : ∃ clock, ∃ ms : List (Migration δ ε), ms ⊆ migrations up ∧
    ms.map Migration.version = s.applied ∧
    transactions (getCurrentVersion db₀) clock ms db₀ = .ok s.db
  /-- A process fails only as it would if it ran alone. -/
  failed : ∀ p e, s.process p = .failed e → ∃ clock,
    runMigrations (known up (build p)) (getCurrentVersion db₀) clock db₀ = .error e
  returned : ∀ p, s.process p = .returned →
    ∀ m ∈ known up (build p), m.version ≤ getCurrentVersion s.db

/-- Every migration runs at most once and in order, whoever runs it. -/
theorem runMigrations_in_order (up : Nat → δ → Except ε δ) (build : Nat → Nat) (db₀ : Database δ)
    {s : State δ ε} (reached : Reachable (State.start db₀) (State.step up build) s) :
    InOrder up build db₀ s := by
  have inv := Inv.of_reachable reached
  have increasing : s.applied.Pairwise (· < ·) := by
    rw [inv.applied]
    exact List.pairwise_map.mpr ((migrations_ascending up).filter _)
  have kept : ∀ version ∈ s.applied, ∃ m ∈ migrations up, m.version = version ∧
      getCurrentVersion db₀ < version ∧ version ≤ getCurrentVersion s.db := by
    intro version listed
    rw [inv.applied] at listed
    obtain ⟨m, kept, rfl⟩ := List.mem_map.mp listed
    obtain ⟨there, bounds⟩ := List.mem_filter.mp kept
    exact ⟨m, there, rfl, of_decide_eq_true bounds⟩
  refine ⟨increasing.imp Nat.ne_of_lt, increasing, ?_, ?_, ?_, ?_, ?_⟩
  · intro version listed
    obtain ⟨m, there, same, above, -⟩ := kept version listed
    exact ⟨m, there, same, above⟩
  · rintro m there above ⟨version, listed, le⟩
    obtain ⟨-, -, -, -, bound⟩ := kept version listed
    rw [inv.applied]
    apply List.mem_map_of_mem
    exact List.mem_filter.mpr ⟨there, decide_eq_true ⟨above, by omega⟩⟩
  · obtain ⟨clock, effect⟩ := inv.effect
    exact ⟨clock, _, List.filter_subset_self _, inv.applied.symm, effect⟩
  · intro p e failed
    have sound := inv.sound p
    rw [failed] at sound
    exact sound
  · intro p returned
    have sound := inv.sound p
    rw [returned] at sound
    exact sound

/-- An older build and a newer one migrate a new database at once, and the newer one dies once. -/
theorem runMigrations_in_order_run : ∃ s : State (List Nat) Unit, s.applied = [2, 3, 4] ∧
    InOrder (fun n done => .ok (done ++ [n])) (fun p => p + 2) ⟨some [⟨1, 0, "Initial schema"⟩], []⟩ s :=
  ⟨_, rfl, runMigrations_in_order (fun n done => .ok (done ++ [n])) (fun p => p + 2)
    ⟨some [⟨1, 0, "Initial schema"⟩], []⟩ (run_reachable
    [.read 0, .read 1, .call 1, .transact 1 5, .call 0, .die 1, .transact 0 6, .read 2,
      .transact 0 7, .call 2, .transact 2 8, .transact 2 9, .finish 0] .start rfl)⟩

end CodeGraph.Db.Migrations
