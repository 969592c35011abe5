import CodeGraph.Foundation.Transitions

/-!
# The session index

`refreshRecords` brings the index up to date with a list of transcripts, in one transaction for each
that changed and one for those that are gone. Several connections may refresh at once. What a transcript
holds, and which of its passages are indexed, is left open.
-/
namespace CodeGraph.Sessions.Index

abbrev Path := List Char

structure SessionDoc where
  ts : String
  role : String
  text : String
  deriving DecidableEq, Repr

structure LoadedTranscript where
  session : String
  title : Option String
  docs : List SessionDoc
  deriving DecidableEq, Repr

variable {τ ε : Type}

/-- A transcript as a refresh lists it; `load` is what a step of the refresh is given. -/
structure TranscriptRecord (τ : Type) where
  path : Path
  mtime : τ
  size : Nat
  docTime : Option τ := none
  deriving DecidableEq, Repr

structure FileRow (τ : Type) where
  path : Path
  session : String
  title : Option String
  mtime : τ
  size : Nat
  deriving DecidableEq, Repr

structure DocRow where
  rowid : Nat
  text : String
  file : Path
  role : String
  ts : String
  deriving DecidableEq, Repr

structure SourceRow where
  doc_rowid : Nat
  file : Path
  deriving DecidableEq, Repr

structure Database (τ : Type) where
  files : List (FileRow τ)
  docs : List DocRow
  doc_sources : List SourceRow
  deriving DecidableEq, Repr

inductive Failure (ε : Type) where
  /-- What `load` or the formatting of a time throws. -/
  | thrown (error : ε)
  /-- The row id is mapped already. -/
  | unique (rowid : Nat)
  deriving DecidableEq, Repr

/-- The parts of the program that are left open: the passages of a document that are indexed, and the
text of a time. -/
structure Readers (τ ε : Type) where
  passages : SessionDoc → List SessionDoc
  toISOString : τ → Except ε String

namespace Database

def fileRow (db : Database τ) (path : Path) : Option (FileRow τ) :=
  db.files.find? (·.path = path)

def putFile (db : Database τ) (row : FileRow τ) : Database τ :=
  { db with files := db.files.filter (·.path ≠ row.path) ++ [row] }

def dropFile (db : Database τ) (path : Path) : Database τ :=
  { db with files := db.files.filter (·.path ≠ path) }

def dropDocs (db : Database τ) (file : Path) : Database τ :=
  { db with docs := db.docs.filter fun row =>
      row.rowid ∉ (db.doc_sources.filter (·.file = file)).map SourceRow.doc_rowid }

def dropSources (db : Database τ) (file : Path) : Database τ :=
  { db with doc_sources := db.doc_sources.filter (·.file ≠ file) }

def nextRowid (docs : List DocRow) : Nat := (docs.map DocRow.rowid).max?.elim 1 (· + 1)

def addDoc (db : Database τ) (text : String) (file : Path) (role ts : String) :
    Database τ × Nat :=
  let rowid := nextRowid db.docs
  ({ db with docs := db.docs ++ [⟨rowid, text, file, role, ts⟩] }, rowid)

def addSource (db : Database τ) (rowid : Nat) (file : Path) :
    Except (Failure ε) (Database τ) :=
  if rowid ∈ db.doc_sources.map SourceRow.doc_rowid then .error (.unique rowid)
  else .ok { db with doc_sources := db.doc_sources ++ [⟨rowid, file⟩] }

end Database

open Database

def indexableDocs (readers : Readers τ ε) (docs : List SessionDoc) : List SessionDoc :=
  docs.flatMap readers.passages

def timeOf (readers : Readers τ ε) (rec : TranscriptRecord τ) (d : SessionDoc) :
    Except (Failure ε) String :=
  if d.ts ≠ "" then .ok d.ts
  else (readers.toISOString (rec.docTime.getD rec.mtime)).mapError .thrown

def addDocs (readers : Readers τ ε) (rec : TranscriptRecord τ) (docs : List SessionDoc)
    (db : Database τ) : Except (Failure ε) (Database τ) :=
  docs.foldlM (fun db d => do
    let ts ← timeOf readers rec d
    let (db, rowid) := db.addDoc d.text rec.path d.role ts
    db.addSource rowid rec.path) db

section
variable [DecidableEq τ]

def unchanged (row : Option (FileRow τ)) (mtime : τ) (size : Nat) : Bool :=
  match row with
  | none => false
  | some row => row.mtime = mtime && row.size = size

/-- The transaction for one transcript, with the number of its passages or `null`. What it throws, it
throws after a rollback. -/
def replaceRecord (readers : Readers τ ε) (rec : TranscriptRecord τ)
    (load : Except ε (Option LoadedTranscript)) (db : Database τ) :
    Except (Failure ε) (Database τ × Option Nat) :=
  if unchanged (db.fileRow rec.path) rec.mtime rec.size then .ok (db, none)
  else
    match load with
    | .error e => .error (.thrown e)
    | .ok none => .ok (db, none)
    | .ok (some loaded) => do
      let docs := indexableDocs readers loaded.docs
      let db ← addDocs readers rec docs ((db.dropDocs rec.path).dropSources rec.path)
      return (db.putFile ⟨rec.path, loaded.session, loaded.title, rec.mtime, rec.size⟩,
        some docs.length)

end

def forget (gone : List Path) (db : Database τ) : Database τ :=
  gone.foldl (fun db file => ((db.dropDocs file).dropSources file).dropFile file) db

/-! ### Connections that refresh one index -/

structure SessionsIndexStats where
  files : Nat
  refreshed : Nat
  docs : Nat
  deriving DecidableEq, Repr

/-- A refresh that runs: what it was called with, what it read first, and what is still to do. -/
structure Refresh (τ : Type) where
  records : List (TranscriptRecord τ)
  unavailable : List Path
  known : List (FileRow τ)
  todo : List (TranscriptRecord τ)
  stats : SessionsIndexStats

inductive Connection (τ ε : Type) where
  | idle
  | refreshing (refresh : Refresh τ)
  | returned (stats : SessionsIndexStats)
  | threw (failure : Failure ε)
  | dead

def Refresh.gone (refresh : Refresh τ) : List Path :=
  (refresh.known.map FileRow.path).filter fun p =>
    p ∉ refresh.records.map TranscriptRecord.path ∧
      ¬ refresh.unavailable.any (fun pre => pre.isPrefixOf p)

structure State (τ ε : Type) where
  db : Database τ
  connection : Nat → Connection τ ε
  /-- The transcripts that were loaded for the index so far. -/
  loads : List (TranscriptRecord τ × LoadedTranscript)

inductive Event (τ ε : Type) where
  | refreshRecords (c : Nat) (records : List (TranscriptRecord τ)) (unavailable : List Path)
  /-- A refresh comes to its next record, whose `load` would give `load`. -/
  | next (c : Nat) (load : Except ε (Option LoadedTranscript))
  /-- A refresh has seen to all records. -/
  | forget (c : Nat)
  /-- A connection dies, or a statement of its fails; its transaction is rolled back. -/
  | crash (c : Nat)

namespace State

def start : State τ ε := ⟨⟨[], [], []⟩, fun _ => .idle, []⟩

def set (s : State τ ε) (c : Nat) (connection : Connection τ ε) : State τ ε :=
  { s with connection := Function.update s.connection c connection }

@[simp] theorem set_db (s : State τ ε) (c : Nat) (connection : Connection τ ε) :
    (s.set c connection).db = s.db := rfl

variable [DecidableEq τ]

/-- The pass of `refreshRecords` over one record. -/
def visit (readers : Readers τ ε) (s : State τ ε) (c : Nat) (refresh : Refresh τ)
    (rec : TranscriptRecord τ) (load : Except ε (Option LoadedTranscript)) : State τ ε :=
  if unchanged (refresh.known.find? (·.path = rec.path)) rec.mtime rec.size then
    s.set c (.refreshing refresh)
  else
    match replaceRecord readers rec load s.db with
    | .error failure => s.set c (.threw failure)
    | .ok (_, none) => s.set c (.refreshing refresh)
    | .ok (db, some docs) =>
      let stats := { refresh.stats with
        docs := refresh.stats.docs + docs, refreshed := refresh.stats.refreshed + 1 }
      { s.set c (.refreshing { refresh with stats }) with
        db, loads := s.loads ++ (load.toOption.join.toList.map fun loaded => (rec, loaded)) }

def step (readers : Readers τ ε) (s : State τ ε) : Event τ ε → Option (State τ ε)
  | .refreshRecords c records unavailable =>
    match s.connection c with
    | .refreshing _ | .dead => none
    | _ => some (s.set c (.refreshing
        ⟨records, unavailable, s.db.files, records, ⟨records.length, 0, 0⟩⟩))
  | .next c load =>
    match s.connection c with
    | .refreshing refresh =>
      match refresh.todo with
      | [] => none
      | rec :: todo => some (s.visit readers c { refresh with todo } rec load)
    | _ => none
  | .forget c =>
    match s.connection c with
    | .refreshing refresh =>
      match refresh.todo with
      | _ :: _ => none
      | [] => some { s.set c (.returned refresh.stats) with db := Index.forget refresh.gone s.db }
    | _ => none
  | .crash c =>
    match s.connection c with
    | .dead => none
    | _ => some (s.set c .dead)

end State

/-!
### The session index under concurrent refreshes

The three tables are kept in step by hand: the sources mirror the documents, row for row, and the
documents of a file are those of one load of it, in order. Each transaction keeps both, so every
interleaving does.
-/

open Transitions

variable {readers : Readers τ ε} {rec : TranscriptRecord τ} {db db' : Database τ}
  {docs : List DocRow} {ds : List SessionDoc} {rows : List DocRow} {first : Nat} {f g : Path}
  {loads more : List (TranscriptRecord τ × LoadedTranscript)} {s t : State τ ε}

def source (row : DocRow) : SourceRow := ⟨row.rowid, row.file⟩

def Increasing (docs : List DocRow) : Prop := docs.Pairwise fun a b => a.rowid < b.rowid

theorem lt_nextRowid {row : DocRow} (listed : row ∈ docs) : row.rowid < nextRowid docs := by
  have there : row.rowid ∈ docs.map DocRow.rowid := List.mem_map_of_mem listed
  unfold nextRowid
  cases top : (docs.map DocRow.rowid).max? with
  | none =>
    rw [List.max?_eq_none_iff] at top
    rw [top] at there
    cases there
  | some m =>
    have bound := (List.max?_eq_some_iff.mp top).2 _ there
    exact Nat.lt_succ_of_le bound

theorem nextRowid_concat {row : DocRow} (next : row.rowid = nextRowid docs) :
    nextRowid (docs ++ [row]) = row.rowid + 1 := by
  have largest : ((docs ++ [row]).map DocRow.rowid).max? = some row.rowid := by
    rw [List.max?_eq_some_iff, List.map_append]
    refine ⟨List.mem_append_right _ List.mem_cons_self, ?_⟩
    intro x listed
    rcases mem_snoc.mp listed with old | last
    · obtain ⟨other, there, rfl⟩ := List.mem_map.mp old
      have := lt_nextRowid there
      omega
    · exact Nat.le_of_eq last
  rw [nextRowid, largest, Option.elim_some]

/-- The rows of a transcript from the row id `first` on, in the order of its passages. -/
inductive Written (readers : Readers τ ε) (rec : TranscriptRecord τ) :
    Nat → List SessionDoc → List DocRow → Prop where
  | nil {first : Nat} : Written readers rec first [] []
  | cons {first : Nat} {d : SessionDoc} {ds : List SessionDoc} {rows : List DocRow} {ts : String}
    (timed : timeOf readers rec d = .ok ts) (rest : Written readers rec (first + 1) ds rows) :
    Written readers rec first (d :: ds) (⟨first, d.text, rec.path, d.role, ts⟩ :: rows)

theorem Written.file (written : Written readers rec first ds rows) :
    ∀ row ∈ rows, row.file = rec.path := by
  induction written with
  | nil => nofun
  | cons _ _ ih =>
    intro row listed
    rcases List.mem_cons.mp listed with rfl | later
    · rfl
    · exact ih row later

/-- The sources mirror the documents, and the documents stand in the order of their row ids. -/
structure Mirrored (db : Database τ) : Prop where
  sources : db.doc_sources = db.docs.map source
  increasing : Increasing db.docs

theorem Increasing.unique (increasing : Increasing docs) {a b : DocRow} (first : a ∈ docs)
    (second : b ∈ docs) (same : a.rowid = b.rowid) : a = b := by
  by_contra other
  rw [Increasing, List.pairwise_iff_getElem] at increasing
  obtain ⟨i, hi, rfl⟩ := List.getElem_of_mem first
  obtain ⟨j, hj, rfl⟩ := List.getElem_of_mem second
  rcases Nat.lt_trichotomy i j with lt | rfl | gt
  · have := increasing i j hi hj lt
    omega
  · exact other rfl
  · have := increasing j i hj hi gt
    omega

theorem Mirrored.dropped (mirrored : Mirrored db) (f : Path) :
    (db.dropDocs f).dropSources f = { db with
      docs := db.docs.filter (·.file ≠ f),
      doc_sources := (db.docs.filter (·.file ≠ f)).map source } := by
  have docs : db.docs.filter (fun row =>
      row.rowid ∉ (db.doc_sources.filter (·.file = f)).map SourceRow.doc_rowid) =
      db.docs.filter (·.file ≠ f) := by
    apply List.filter_congr
    intro row listed
    have same : row.rowid ∈ (db.doc_sources.filter (·.file = f)).map SourceRow.doc_rowid ↔
        row.file = f := by
      rw [mirrored.sources]
      constructor
      · intro mapped
        obtain ⟨src, kept, equal⟩ := List.mem_map.mp mapped
        obtain ⟨there, of_file⟩ := List.mem_filter.mp kept
        obtain ⟨other, also, rfl⟩ := List.mem_map.mp there
        have := mirrored.increasing.unique also listed equal
        subst this
        exact of_decide_eq_true of_file
      · intro of_file
        apply List.mem_map.mpr
        exact ⟨source row, List.mem_filter.mpr ⟨List.mem_map_of_mem listed, decide_eq_true of_file⟩, rfl⟩
    simp [same]
  have sources : db.doc_sources.filter (·.file ≠ f) = (db.docs.filter (·.file ≠ f)).map source := by
    rw [mirrored.sources, List.filter_map]
    rfl
  simp only [dropDocs, dropSources, docs, sources]

theorem Mirrored.drop (mirrored : Mirrored db) (f : Path) :
    Mirrored ((db.dropDocs f).dropSources f) := by
  rw [mirrored.dropped]
  exact ⟨rfl, mirrored.increasing.filter _⟩

theorem Mirrored.addDoc (mirrored : Mirrored db) (row : DocRow)
    (next : row.rowid = nextRowid db.docs) :
    Mirrored { db with docs := db.docs ++ [row], doc_sources := db.doc_sources ++ [source row] } where
  sources := by
    rw [List.map_append, ← mirrored.sources]
    rfl
  increasing := by
    apply List.pairwise_append.mpr
    refine ⟨mirrored.increasing, List.pairwise_singleton _ _, ?_⟩
    intro a there b last
    rw [List.mem_singleton.mp last, next]
    exact lt_nextRowid there

/-- The loop over the passages writes all of them, from the next row id on. -/
theorem addDocs_ok (mirrored : Mirrored db) (done : addDocs readers rec ds db = .ok db') :
    ∃ rows, Written readers rec (nextRowid db.docs) ds rows ∧ Mirrored db' ∧
      db'.files = db.files ∧ db'.docs = db.docs ++ rows := by
  induction ds generalizing db with
  | nil =>
    cases done
    exact ⟨[], .nil, mirrored, rfl, (List.append_nil _).symm⟩
  | cons d ds ih =>
    rw [addDocs, List.foldlM_cons] at done
    cases time : timeOf readers rec d with
    | error e =>
      simp only [time, bind, Except.bind, reduceCtorEq] at done
    | ok ts =>
      have row : ∃ row : DocRow, row = ⟨nextRowid db.docs, d.text, rec.path, d.role, ts⟩ := ⟨_, rfl⟩
      obtain ⟨row, is⟩ := row
      have fresh : nextRowid db.docs ∉ db.doc_sources.map SourceRow.doc_rowid := by
        rw [mirrored.sources, List.map_map]
        intro mapped
        obtain ⟨other, there, same⟩ := List.mem_map.mp mapped
        have before := lt_nextRowid there
        have same : other.rowid = nextRowid db.docs := same
        omega
      have mapped : addSource (ε := ε) { db with docs := db.docs ++ [row] } (nextRowid db.docs) rec.path =
          .ok { db with
            docs := db.docs ++ [row], doc_sources := db.doc_sources ++ [source row] } := by
        rw [addSource, if_neg fresh, source, is]
      rw [is] at mapped
      simp only [time, bind, Except.bind, Database.addDoc, mapped] at done
      have next : row.rowid = nextRowid db.docs := by rw [is]
      have mirrored' := mirrored.addDoc row next
      have step : addDocs readers rec ds { db with
          docs := db.docs ++ [row], doc_sources := db.doc_sources ++ [source row] } = .ok db' := by
        rw [is]
        exact done
      obtain ⟨rows, written, whole, files, all⟩ := ih mirrored' step
      refine ⟨row :: rows, ?_, whole, files, ?_⟩
      · rw [is]
        rw [nextRowid_concat next, next] at written
        exact .cons time written
      · rw [all, List.append_assoc]
        rfl

/-! ### Transactions -/

/-- The row of `files` for a load of a transcript. -/
def fileRowOf (rec : TranscriptRecord τ) (loaded : LoadedTranscript) : FileRow τ :=
  ⟨rec.path, loaded.session, loaded.title, rec.mtime, rec.size⟩

def Loaded (readers : Readers τ ε) (loads : List (TranscriptRecord τ × LoadedTranscript))
    (docs : List DocRow) (row : FileRow τ) : Prop :=
  ∃ rec loaded, (rec, loaded) ∈ loads ∧ row = fileRowOf rec loaded ∧
    ∃ first, Written readers rec first (indexableDocs readers loaded.docs)
      (docs.filter (·.file = row.path))

structure Whole (readers : Readers τ ε) (loads : List (TranscriptRecord τ × LoadedTranscript))
    (db : Database τ) : Prop where
  mirrored : Mirrored db
  listed : ∀ row ∈ db.docs, ∃ file ∈ db.files, file.path = row.file
  loaded : ∀ row ∈ db.files, Loaded readers loads db.docs row

theorem Loaded.mono {row : FileRow τ} (loaded : Loaded readers loads docs row) :
    Loaded readers (loads ++ more) docs row := by
  obtain ⟨rec, transcript, there, same, first, written⟩ := loaded
  exact ⟨rec, transcript, List.mem_append_left _ there, same, first, written⟩

theorem filter_other (other : f ≠ g) :
    (docs.filter (·.file ≠ g)).filter (·.file = f) = docs.filter (·.file = f) := by
  rw [List.filter_filter]
  apply List.filter_congr
  intro row _
  by_cases same : row.file = f
  · simp [same, other]
  · simp [same]

theorem filter_written (written : Written readers rec first ds rows) :
    rows.filter (·.file = rec.path) = rows := by
  rw [List.filter_eq_self]
  intro row listed
  simpa using written.file row listed

theorem filter_written_other (written : Written readers rec first ds rows) (other : f ≠ rec.path) :
    rows.filter (·.file = f) = [] := by
  rw [List.filter_eq_nil_iff]
  intro row listed
  simpa [written.file row listed] using other.symm

theorem Whole.dropFile (whole : Whole readers loads db) (f : Path) :
    Whole readers loads (((db.dropDocs f).dropSources f).dropFile f) := by
  have mirrored := whole.mirrored.drop f
  rw [whole.mirrored.dropped] at mirrored ⊢
  refine ⟨⟨mirrored.sources, mirrored.increasing⟩, ?_, ?_⟩
  · intro row listed
    obtain ⟨there, other⟩ := List.mem_filter.mp listed
    obtain ⟨file, kept, same⟩ := whole.listed row there
    refine ⟨file, List.mem_filter.mpr ⟨kept, ?_⟩, same⟩
    simpa [same] using other
  · intro row listed
    obtain ⟨there, other⟩ := List.mem_filter.mp listed
    have other : row.path ≠ f := by simpa using other
    obtain ⟨rec, loaded, known, same, first, written⟩ := whole.loaded row there
    refine ⟨rec, loaded, known, same, first, ?_⟩
    simp only [Database.dropFile]
    rw [filter_other other]
    exact written

theorem Whole.forget (whole : Whole readers loads db) (gone : List Path) :
    Whole readers loads (forget gone db) := by
  induction gone generalizing db with
  | nil => exact whole
  | cons f gone ih => exact ih (whole.dropFile f)

theorem replaceRecord_whole [DecidableEq τ] {load : Except ε (Option LoadedTranscript)} {n : Nat}
    (whole : Whole readers loads db)
    (done : replaceRecord readers rec load db = .ok (db', some n)) :
    ∃ loaded, load = .ok (some loaded) ∧ Whole readers (loads ++ [(rec, loaded)]) db' := by
  unfold replaceRecord at done
  split at done
  · cases done
  · cases load with
    | error e => cases done
    | ok result =>
      cases result with
      | none => cases done
      | some loaded =>
        refine ⟨loaded, rfl, ?_⟩
        simp only [bind, Except.bind, pure, Except.pure] at done
        split at done
        · cases done
        · next added ran =>
          cases done
          obtain ⟨rows, written, mirrored, files, all⟩ :=
            addDocs_ok (whole.mirrored.drop rec.path) ran
          rw [whole.mirrored.dropped] at files all
          refine ⟨⟨mirrored.sources, mirrored.increasing⟩, ?_, ?_⟩
          · intro row listed
            simp only [putFile, all] at listed ⊢
            rcases List.mem_append.mp listed with old | new
            · obtain ⟨there, other⟩ := List.mem_filter.mp old
              obtain ⟨file, kept, same⟩ := whole.listed row there
              refine ⟨file, List.mem_append_left _ (List.mem_filter.mpr ⟨?_, ?_⟩), same⟩
              · rw [files]
                exact kept
              · simpa [same] using other
            · exact ⟨_, List.mem_append_right _ List.mem_cons_self, (written.file row new).symm⟩
          · intro row listed
            simp only [putFile, all, files] at listed ⊢
            rcases mem_snoc.mp listed with old | new
            · obtain ⟨there, other⟩ := List.mem_filter.mp old
              have other : row.path ≠ rec.path := by simpa using other
              obtain ⟨own, transcript, known, same, first, kept⟩ := whole.loaded row there
              refine ⟨own, transcript, List.mem_append_left _ known, same, first, ?_⟩
              rw [List.filter_append, filter_other other, filter_written_other written other,
                List.append_nil]
              exact kept
            · have is := new
              refine ⟨rec, loaded, List.mem_append_right _ List.mem_cons_self, is,
                nextRowid ((db.dropDocs rec.path).dropSources rec.path).docs, ?_⟩
              have none_old : (db.docs.filter (·.file ≠ rec.path)).filter (·.file = row.path) = [] := by
                rw [List.filter_filter, List.filter_eq_nil_iff]
                intro other _
                simp [is]
              rw [List.filter_append, none_old, List.nil_append, is, filter_written written]
              exact written

/-! ### Runs -/

/-- What the pass over a record does to the index: nothing, or what its transaction does. -/
theorem visit_cases [DecidableEq τ] (readers : Readers τ ε) (s : State τ ε) (c : Nat)
    (refresh : Refresh τ) (rec : TranscriptRecord τ) (load : Except ε (Option LoadedTranscript)) :
    ((s.visit readers c refresh rec load).db = s.db ∧
      (s.visit readers c refresh rec load).loads = s.loads) ∨
    ∃ db n loaded, load = .ok (some loaded) ∧
      replaceRecord readers rec load s.db = .ok (db, some n) ∧
      (s.visit readers c refresh rec load).db = db ∧
      (s.visit readers c refresh rec load).loads = s.loads ++ [(rec, loaded)] := by
  unfold State.visit
  split
  · exact .inl ⟨rfl, rfl⟩
  · split
    · exact .inl ⟨rfl, rfl⟩
    · exact .inl ⟨rfl, rfl⟩
    · next db n done =>
      right
      have from_load : ∃ loaded, load = .ok (some loaded) := by
        unfold replaceRecord at done
        split at done
        · cases done
        · cases load with
          | error e => cases done
          | ok result =>
            cases result with
            | none => cases done
            | some loaded => exact ⟨loaded, rfl⟩
      obtain ⟨loaded, rfl⟩ := from_load
      exact ⟨db, n, loaded, rfl, done, rfl, rfl⟩

theorem forget_files (gone : List Path) (db : Database τ) :
    (forget gone db).files = db.files.filter (·.path ∉ gone) := by
  induction gone generalizing db with
  | nil => simp [forget]
  | cons f gone ih =>
    have rest := ih (((db.dropDocs f).dropSources f).dropFile f)
    have first : (((db.dropDocs f).dropSources f).dropFile f).files =
        db.files.filter (·.path ≠ f) := rfl
    rw [first, List.filter_filter] at rest
    rw [forget, List.foldl_cons]
    refine rest.trans (List.filter_congr ?_)
    intro row _
    simp [Bool.and_comm]

theorem replaceRecord_files [DecidableEq τ] {load : Except ε (Option LoadedTranscript)} {n : Nat}
    (whole : Whole readers loads db)
    (done : replaceRecord readers rec load db = .ok (db', some n)) {row : FileRow τ}
    (listed : row ∈ db.files) : ∃ kept ∈ db'.files, kept.path = row.path := by
  unfold replaceRecord at done
  split at done
  · cases done
  · cases load with
    | error e => cases done
    | ok result =>
      cases result with
      | none => cases done
      | some loaded =>
        simp only [bind, Except.bind, pure, Except.pure] at done
        split at done
        · cases done
        · next added ran =>
          cases done
          obtain ⟨-, -, -, files, -⟩ := addDocs_ok (whole.mirrored.drop rec.path) ran
          rw [whole.mirrored.dropped] at files
          simp only [putFile, files]
          by_cases own : row.path = rec.path
          · exact ⟨_, List.mem_append_right _ List.mem_cons_self, own.symm⟩
          · exact ⟨row, List.mem_append_left _ (List.mem_filter.mpr ⟨listed, decide_eq_true own⟩), rfl⟩

/-- A step of a connection does nothing to the index, writes one transcript, or forgets files. -/
theorem step_cases [DecidableEq τ] {e : Event τ ε} (taken : s.step readers e = some t) :
    (t.db = s.db ∧ t.loads = s.loads) ∨
    (∃ c rec load db n loaded, e = .next c load ∧ load = .ok (some loaded) ∧
      replaceRecord readers rec load s.db = .ok (db, some n) ∧ t.db = db ∧
      t.loads = s.loads ++ [(rec, loaded)]) ∨
    ∃ c refresh, e = .forget c ∧ s.connection c = .refreshing refresh ∧
      t.db = forget refresh.gone s.db ∧ t.loads = s.loads := by
  cases e with
  | refreshRecords c records unavailable =>
    left
    simp only [State.step] at taken
    split at taken
    · cases taken
    · cases taken
    · cases taken
      exact ⟨rfl, rfl⟩
  | next c load =>
    simp only [State.step] at taken
    split at taken
    · next refresh running =>
      split at taken
      · cases taken
      · next rec todo waiting =>
        cases taken
        rcases visit_cases readers s c { refresh with todo } rec load with same | written
        · exact .inl same
        · obtain ⟨db, n, loaded, is, done, after, more⟩ := written
          exact .inr (.inl ⟨c, rec, load, db, n, loaded, rfl, is, done, after, more⟩)
    · cases taken
  | forget c =>
    simp only [State.step] at taken
    split at taken
    · next refresh running =>
      split at taken
      · cases taken
      · cases taken
        exact .inr (.inr ⟨c, refresh, rfl, running, rfl, rfl⟩)
    · cases taken
  | crash c =>
    left
    simp only [State.step] at taken
    split at taken
    · cases taken
    · cases taken
      exact ⟨rfl, rfl⟩

theorem step_whole [DecidableEq τ] {e : Event τ ε} (whole : Whole readers s.loads s.db)
    (taken : s.step readers e = some t) : Whole readers t.loads t.db := by
  rcases step_cases taken with ⟨same, more⟩ |
    ⟨c, rec, load, db, n, loaded, -, is, done, after, more⟩ | ⟨c, refresh, -, -, after, more⟩
  · rw [same, more]
    exact whole
  · obtain ⟨transcript, also, kept⟩ := replaceRecord_whole whole done
    rw [is] at also
    cases also
    rw [after, more]
    exact kept
  · rw [after, more]
    exact whole.forget refresh.gone

theorem whole_of_reachable [DecidableEq τ]
    (reached : Reachable State.start (State.step readers) s) : Whole readers s.loads s.db :=
  reached.invariant ⟨⟨rfl, .nil⟩, nofun, nofun⟩ fun _ _ _ whole taken => step_whole whole taken

theorem Increasing.count (increasing : Increasing docs) {row : DocRow} (listed : row ∈ docs) :
    docs.countP (fun other => other.rowid = row.rowid ∧ other.file = row.file) = 1 := by
  induction docs with
  | nil => cases listed
  | cons head docs ih =>
    have later := (List.pairwise_cons.mp increasing).1
    rcases List.mem_cons.mp listed with rfl | there
    · have none_later : docs.countP (fun other => other.rowid = row.rowid ∧ other.file = row.file) = 0 := by
        rw [List.countP_eq_zero]
        intro other after
        have := later other after
        simp only [decide_eq_true_eq]
        omega
      rw [List.countP_cons_of_pos (by simp), none_later]
    · have := later row there
      rw [List.countP_cons_of_neg (by simp only [decide_eq_true_eq]; omega)]
      exact ih increasing.of_cons there

structure Consistent (readers : Readers τ ε)
    (loads : List (TranscriptRecord τ × LoadedTranscript)) (db : Database τ) : Prop where
  sources : ∀ row ∈ db.docs, db.doc_sources.countP
    (fun source => source.doc_rowid = row.rowid ∧ source.file = row.file) = 1
  docs : ∀ source ∈ db.doc_sources, db.docs.countP
    (fun row => row.rowid = source.doc_rowid ∧ row.file = source.file) = 1
  files : ∀ row ∈ db.docs, ∃ file ∈ db.files, file.path = row.file
  transcripts : ∀ row ∈ db.files, Loaded readers loads db.docs row

theorem Whole.consistent (whole : Whole readers loads db) : Consistent readers loads db where
  sources row listed := by
    rw [whole.mirrored.sources, List.countP_map]
    exact whole.mirrored.increasing.count listed
  docs src listed := by
    rw [whole.mirrored.sources] at listed
    obtain ⟨row, there, rfl⟩ := List.mem_map.mp listed
    exact whole.mirrored.increasing.count there
  files := whole.listed
  transcripts := whole.loaded

structure Careful [DecidableEq τ] (readers : Readers τ ε) (s : State τ ε) : Prop where
  /-- A load that fails leaves the index as it was. -/
  failed : ∀ c load t, (∀ loaded, load ≠ .ok (some loaded)) →
    s.step readers (.next c load) = some t → t.db = s.db
  crashed : ∀ c t, s.step readers (.crash c) = some t → t.db = s.db
  /-- A file is forgotten only by a refresh that did not list it, and that could read its store. -/
  forgotten : ∀ e t, s.step readers e = some t → ∀ row ∈ s.db.files,
    (∀ kept ∈ t.db.files, kept.path ≠ row.path) →
    ∃ c refresh, e = .forget c ∧ s.connection c = .refreshing refresh ∧
      row.path ∉ refresh.records.map TranscriptRecord.path ∧
      ∀ pre ∈ refresh.unavailable, ¬ pre <+: row.path

theorem Whole.careful [DecidableEq τ] (whole : Whole readers s.loads s.db) : Careful readers s where
  failed c load t fails taken := by
    rcases step_cases taken with same | ⟨_, _, other, _, _, loaded, is, loads, -⟩ |
      ⟨_, _, event, -⟩
    · exact same.1
    · cases is
      exact absurd loads (fails loaded)
    · cases event
  crashed c t taken := by
    rcases step_cases taken with same | ⟨_, _, _, _, _, _, event, -⟩ | ⟨_, _, event, -⟩
    · exact same.1
    · cases event
    · cases event
  forgotten e t taken row listed lost := by
    rcases step_cases taken with same | ⟨c, rec, load, db, n, loaded, -, -, done, after, -⟩ |
      ⟨c, refresh, event, running, after, -⟩
    · rw [same.1] at lost
      exact absurd rfl (lost row listed)
    · obtain ⟨kept, there, equal⟩ := replaceRecord_files whole done listed
      rw [after] at lost
      exact absurd equal (lost kept there)
    · have gone : row.path ∈ refresh.gone := by
        by_contra kept
        apply lost row _ rfl
        rw [after, forget_files]
        exact List.mem_filter.mpr ⟨listed, decide_eq_true kept⟩
      obtain ⟨-, condition⟩ := List.mem_filter.mp gone
      obtain ⟨unlisted, readable⟩ := of_decide_eq_true condition
      refine ⟨c, refresh, event, running, unlisted, ?_⟩
      intro pre among starts
      exact readable (List.any_eq_true.mpr ⟨pre, among, List.isPrefixOf_iff_prefix.mpr starts⟩)

/-- The index stays consistent, however refreshes interleave and wherever they end. -/
theorem refreshRecords_consistent [DecidableEq τ] (readers : Readers τ ε) {s : State τ ε}
    (reached : Reachable State.start (State.step readers) s) :
    Consistent readers s.loads s.db ∧ Careful readers s :=
  have whole := whole_of_reachable reached
  ⟨whole.consistent, whole.careful⟩

/-- Two connections see the same changed transcript, one of them fails on another one, and a third
forgets what it does not list. -/
theorem refreshRecords_consistent_run : ∃ s : State Nat Unit, s.db.docs.length = 2 ∧
    Consistent (ε := Unit) ⟨fun d => [d], fun _ => .ok "now"⟩ s.loads s.db ∧
      Careful ⟨fun d => [d], fun _ => .ok "now"⟩ s :=
  ⟨_, rfl, refreshRecords_consistent ⟨fun d => [d], fun _ => .ok "now"⟩ (run_reachable
    [.refreshRecords 0 [⟨['a'], 1, 5, none⟩, ⟨['b'], 1, 5, none⟩] [],
      .refreshRecords 1 [⟨['a'], 1, 5, none⟩] [],
      .next 0 (.ok (some ⟨"a", none, [⟨"", "user", "one"⟩, ⟨"", "assistant", "two"⟩]⟩)),
      .next 1 (.error ()), .next 0 (.ok (some ⟨"b", none, [⟨"", "user", "three"⟩]⟩)), .forget 1,
      .refreshRecords 2 [⟨['a'], 1, 5, none⟩] [], .crash 0, .next 2 (.ok none), .forget 2]
    .start rfl)⟩

end CodeGraph.Sessions.Index
