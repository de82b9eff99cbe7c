import Mathlib.Logic.Relation

/-! Nodes that a relation reaches, read from the front: a node has what is sought, or a
neighbour of it reaches such a node. -/
namespace Reach
variable {α : Type} {step : α → α → Prop} {goal goal' : α → Prop}

def Reaches (step : α → α → Prop) (goal : α → Prop) (n : α) : Prop :=
  ∃ m, Relation.ReflTransGen step n m ∧ goal m

theorem here {n : α} (h : goal n) : Reaches step goal n := ⟨n, .refl, h⟩

theorem further {n m : α} (edge : step n m) (h : Reaches step goal m) : Reaches step goal n := by
  obtain ⟨last, path, found⟩ := h
  exact ⟨last, .head edge path, found⟩

theorem reachesIff {n : α} :
    Reaches step goal n ↔ goal n ∨ ∃ m, step n m ∧ Reaches step goal m := by
  constructor
  · rintro ⟨last, path, found⟩
    rcases Relation.ReflTransGen.cases_head path with rfl | ⟨m, edge, rest⟩
    · exact .inl found
    · exact .inr ⟨m, edge, last, rest, found⟩
  · rintro (found | ⟨m, edge, h⟩)
    · exact here found
    · exact further edge h

theorem reachesAlong {β : Type} {step' : β → β → Prop} {goal' : β → Prop} (R : α → β → Prop)
    (follows : ∀ a b a', R a b → step a a' → ∃ b', step' b b' ∧ R a' b')
    (keeps : ∀ a b, R a b → goal a → goal' b) {a : α} {b : β} (related : R a b)
    (h : Reaches step goal a) : Reaches step' goal' b := by
  obtain ⟨last, path, found⟩ := h
  induction path using Relation.ReflTransGen.head_induction_on generalizing b with
  | refl => exact here (keeps _ _ related found)
  | head edge _ ih =>
    obtain ⟨b', edge', related'⟩ := follows _ _ _ related edge
    exact further edge' (ih related')

end Reach
