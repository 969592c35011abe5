import CodeGraph.Foundation.Snoc

/-!
# Decisions about lists

What holds of each element of a list is decided by its elements, not by those of a finite type.
-/
namespace CodeGraph

instance (priority := high) decidableForallMem {α : Type} (p : α → Prop) [DecidablePred p] (l : List α) :
    Decidable (∀ a ∈ l, p a) := List.decidableBAll p l

instance (priority := high) decidableExistsMem {α : Type} (p : α → Prop) [DecidablePred p] (l : List α) :
    Decidable (∃ a ∈ l, p a) := List.decidableBEx p l

instance (priority := high) decidableForallSome {α : Type} (p : α → Prop) [DecidablePred p] (o : Option α) :
    Decidable (∀ a ∈ o, p a) :=
  match o with
  | none => .isTrue nofun
  | some a =>
    match (inferInstance : Decidable (p a)) with
    | .isTrue holds => .isTrue fun _ is => Option.some.inj is ▸ holds
    | .isFalse fails => .isFalse fun all => fails (all a rfl)

instance lawfulBEq_units : LawfulBEq (List UInt16) := List.instLawfulBEq

instance lawfulBEq_chars : LawfulBEq (List Char) := List.instLawfulBEq

end CodeGraph
