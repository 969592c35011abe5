import CodeGraph.Foundation.Decisions

/-!
Files that each record the process which owns them.

A file is taken only when it is free, and given up by its owner or when what it records names no
living process. Then a living owner is always recorded, and no file has two of them.
-/
namespace CodeGraph.RecordFiles

variable {α κ ρ : Type}

/-- The files, the processes that live, and who takes itself for the owner of a file. -/
structure View (α κ ρ : Type) where
  cell : κ → Option ρ
  alive : α → Prop
  owns : α → κ → Prop

structure Safe (names : ρ → α → Prop) (v : View α κ ρ) : Prop where
  recorded : ∀ a k, v.alive a → v.owns a k → ∃ r, v.cell k = some r ∧ names r a
  single : ∀ a b k, v.alive a → v.alive b → v.owns a k → v.owns b k → a = b

variable {names : ρ → α → Prop} {v w : View α κ ρ}

theorem Safe.quiet (safe : Safe names v) (cells : w.cell = v.cell)
    (alive : ∀ a, w.alive a → v.alive a) (owns : ∀ a k, w.owns a k → v.owns a k) : Safe names w where
  recorded := fun a k live own => cells ▸ safe.recorded a k (alive a live) (owns a k own)
  single := fun a b k ha hb h h' =>
    safe.single a b k (alive a ha) (alive b hb) (owns a k h) (owns b k h')

theorem Safe.claim [DecidableEq κ] (safe : Safe names v) {a : α} {k : κ} {r : ρ}
    (free : v.cell k = none) (named : names r a)
    (cells : ∀ i, w.cell i = if i = k then some r else v.cell i)
    (alive : ∀ b, w.alive b → v.alive b)
    (owns : ∀ b i, w.owns b i → v.owns b i ∨ b = a ∧ i = k) : Safe names w := by
  -- Nobody alive owns a file that is free.
  have none_ (b : α) (live : w.alive b) : ¬ v.owns b k := by
    intro own
    obtain ⟨_, there, -⟩ := safe.recorded b k (alive b live) own
    rw [free] at there
    cases there
  refine ⟨fun b i live own => ?_, fun b c i hb hc h h' => ?_⟩
  · rw [cells]
    split
    · next same =>
      subst same
      rcases owns b i own with old | ⟨rfl, -⟩
      · exact absurd old (none_ b live)
      · exact ⟨r, rfl, named⟩
    · next other =>
      rcases owns b i own with old | ⟨-, same⟩
      · exact safe.recorded b i (alive b live) old
      · exact absurd same other
  · rcases owns b i h with old | ⟨rfl, rfl⟩
    · rcases owns c i h' with old' | ⟨rfl, rfl⟩
      · exact safe.single b c i (alive b hb) (alive c hc) old old'
      · exact absurd old (none_ b hb)
    · rcases owns c i h' with old' | ⟨rfl, -⟩
      · exact absurd old' (none_ c hc)
      · rfl

theorem Safe.release [DecidableEq κ] (safe : Safe names v) {a : α} {k : κ} (live : v.alive a)
    (own : v.owns a k) (cells : ∀ i, w.cell i = if i = k then none else v.cell i)
    (alive : ∀ b, w.alive b → v.alive b)
    (owns : ∀ b i, w.owns b i → v.owns b i ∧ ¬ (b = a ∧ i = k)) : Safe names w := by
  refine ⟨fun b i hb h => ?_, fun b c i hb hc h h' => ?_⟩
  · rw [cells]
    split
    · next same =>
      subst same
      obtain ⟨old, other⟩ := owns b i h
      exact absurd ⟨safe.single b a i (alive b hb) live old own, rfl⟩ other
    · exact safe.recorded b i (alive b hb) (owns b i h).1
  · exact safe.single b c i (alive b hb) (alive c hc) (owns b i h).1 (owns c i h').1

theorem Safe.sweep [DecidableEq κ] (safe : Safe names v) {k : κ}
    (dead : ∀ a r, v.alive a → v.cell k = some r → ¬ names r a)
    (cells : ∀ i, w.cell i = if i = k then none else v.cell i)
    (alive : ∀ b, w.alive b → v.alive b) (owns : ∀ b i, w.owns b i → v.owns b i) : Safe names w := by
  refine ⟨fun b i hb h => ?_, fun b c i hb hc h h' => ?_⟩
  · obtain ⟨r, there, named⟩ := safe.recorded b i (alive b hb) (owns b i h)
    rw [cells]
    split
    · next same =>
      subst same
      exact absurd named (dead b r (alive b hb) there)
    · exact ⟨r, there, named⟩
  · exact safe.single b c i (alive b hb) (alive c hc) (owns b i h) (owns c i h')

end CodeGraph.RecordFiles
