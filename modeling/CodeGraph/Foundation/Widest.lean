import CodeGraph.Foundation.Decisions

/-!
# Maps that keep the widest value of a key

An entry replaces the value of its key when the value is below it. The map that entries leave does
not depend on their order where the values of each key are comparable.
-/
namespace CodeGraph.Widest

section

variable {κ β : Type} (r : β → β → Prop)

def Comparable (entries : List (κ × β)) : Prop :=
  ∀ k v w, (k, v) ∈ entries → (k, w) ∈ entries → r v w ∨ r w v

variable {r} in
theorem Comparable.init {entries : List (κ × β)} {e : κ × β}
    (chain : Comparable r (entries ++ [e])) : Comparable r entries := fun k v w first second =>
  chain k v w (List.mem_append_left _ first) (List.mem_append_left _ second)

end

variable {κ β : Type} [DecidableEq κ] (r : β → β → Prop) [DecidableRel r]

def widen (m : κ → Option β) (e : κ × β) : κ → Option β :=
  if ∀ old ∈ m e.1, r old e.2 then Function.update m e.1 (some e.2) else m

def build (entries : List (κ × β)) : κ → Option β := entries.foldl (widen r) fun _ => none

variable {r} {entries : List (κ × β)}

theorem widen_other (m : κ → Option β) {e : κ × β} {k : κ} (other : k ≠ e.1) :
    widen r m e k = m k := by
  rw [widen]
  split
  · exact Function.update_of_ne other _ _
  · rfl

theorem build_concat (entries : List (κ × β)) (e : κ × β) :
    build r (entries ++ [e]) = widen r (build r entries) e := by
  rw [build, List.foldl_append]
  rfl

theorem build_none (entries : List (κ × β)) (k : κ) :
    build r entries k = none ↔ ∀ v, (k, v) ∉ entries := by
  induction entries using List.reverseRecOn with
  | nil => simp [build]
  | append_singleton entries e ih =>
    obtain ⟨key, value⟩ := e
    rw [build_concat]
    by_cases here : k = key
    · subst here
      constructor
      · intro none
        exfalso
        by_cases wider : ∀ old ∈ build r entries k, r old value
        · rw [widen, if_pos wider, Function.update_self] at none
          cases none
        · apply wider
          rw [widen, if_neg wider] at none
          simp [none]
      · intro absent
        exact absurd (List.mem_append_right _ (List.mem_singleton_self _)) (absent value)
    · rw [widen_other _ here, ih]
      simp [here]

theorem build_some [IsTrans β r] [Std.Refl r] [Std.Antisymm r] (chain : Comparable r entries)
    (k : κ) (v : β) :
    build r entries k = some v ↔ (k, v) ∈ entries ∧ ∀ w, (k, w) ∈ entries → r w v := by
  induction entries using List.reverseRecOn generalizing v with
  | nil => simp [build]
  | append_singleton entries e ih =>
    obtain ⟨key, value⟩ := e
    have before := ih chain.init
    rw [build_concat]
    by_cases here : k = key
    · subst here
      have last : (k, value) ∈ entries ++ [(k, value)] := by simp
      by_cases wider : ∀ old ∈ build r entries k, r old value
      · -- the new value is above the widest one so far
        have above : ∀ w, (k, w) ∈ entries ++ [(k, value)] → r w value := by
          intro w mem
          rcases mem_snoc.mp mem with mem | same
          · cases kept : build r entries k with
            | none => exact absurd mem ((build_none entries k).mp kept w)
            | some old =>
              have below := ((before old).mp kept).2 w mem
              exact trans_of r below (wider old kept)
          · cases same
            exact refl_of r value
        simp only [widen, if_pos wider, Function.update_self, Option.some.injEq]
        constructor
        · rintro rfl
          exact ⟨last, above⟩
        · rintro ⟨mem, top⟩
          exact antisymm_of r (top value last) (above v mem)
      · -- the widest one so far is above the new value
        rw [widen, if_neg wider, before]
        push Not at wider
        obtain ⟨old, kept, narrower⟩ := wider
        obtain ⟨listed, top⟩ := (before old).mp kept
        have below : r value old := by
          rcases chain k old value (List.mem_append_left _ listed) last with up | down
          · exact absurd up narrower
          · exact down
        constructor
        · rintro ⟨mem, widest⟩
          constructor
          · exact List.mem_append_left _ mem
          · intro w mem'
            rcases List.mem_append.mp mem' with mem' | same
            · exact widest w mem'
            · cases List.mem_singleton.mp same
              exact trans_of r below (widest old listed)
        · rintro ⟨mem, widest⟩
          have up := widest old (List.mem_append_left _ listed)
          rcases mem_snoc.mp mem with mem | same
          · exact ⟨mem, fun w mem' => widest w (List.mem_append_left _ mem')⟩
          · cases same
            exact absurd up narrower
    · rw [widen_other _ here, before]
      simp [here]

/-- The order of the entries, and how often each stands there, changes nothing. -/
theorem build_congr [IsTrans β r] [Std.Refl r] [Std.Antisymm r] {others : List (κ × β)}
    (chain : Comparable r entries) (same : ∀ e, e ∈ entries ↔ e ∈ others) :
    build r entries = build r others := by
  have chain' : Comparable r others := fun k v w first second =>
    chain k v w ((same _).mpr first) ((same _).mpr second)
  funext k
  apply Option.ext
  intro v
  simp only [build_some chain, build_some chain', same]

end CodeGraph.Widest
