import Mathlib.Data.Finset.Dedup
import Mathlib.Data.Fintype.EquivFin
import Mathlib.Logic.Relation
import Mathlib.Order.RelClasses

/-! Recursions that go through the children of a node without a memory of where they were. With
enough fuel they end just where the children of children are well founded; among finitely many
nodes that is where no node is below itself. -/
namespace Unfolding
variable {α β : Type}

def Founded (below : α → α → Prop) (x : α) : Prop := Acc (fun inner outer => below outer inner) x

section
variable {below : α → α → Prop} {x y : α}

theorem foundedIff : Founded below x ↔ ∀ y, below x y → Founded below y :=
  ⟨fun h _ edge => h.inv edge, fun h => .intro x h⟩

theorem Founded.along (h : Founded below x) (path : Relation.ReflTransGen below x y) :
    Founded below y := by
  induction path with
  | refl => exact h
  | tail _ edge ih => exact foundedIff.mp ih _ edge

theorem Founded.trans (h : Founded below x) : Founded (Relation.TransGen below) x := by
  have closed := Acc.transGen h
  refine Subrelation.accessible ?_ closed
  intro inner outer path
  exact Relation.transGen_swap.mpr path

theorem Founded.irrefl (h : Founded below x) : ¬ below x x := by
  induction h with
  | intro x _ ih => exact fun loop => ih x loop loop

theorem foundedIffAcyclic (nodes : Finset α)
    (reached : ∀ y, Relation.ReflTransGen below x y → y ∈ nodes) :
    Founded below x ↔ ∀ y, Relation.ReflTransGen below x y → ¬ Relation.TransGen below y y := by
  constructor
  · intro founded y path
    exact (founded.along path).trans.irrefl
  · intro acyclic
    let Reached := {y // Relation.ReflTransGen below x y}
    have : Finite Reached :=
      Finite.of_injective (fun y : Reached => (⟨y.1, reached y.1 y.2⟩ : nodes))
        (fun y z same => Subtype.ext (congrArg (fun n => n.1) same))
    let under : Reached → Reached → Prop := fun z y => Relation.TransGen below y.1 z.1
    have : IsTrans Reached under := ⟨fun _ _ _ first second => second.trans first⟩
    have : Std.Irrefl under := ⟨fun y loop => acyclic y.1 y.2 loop⟩
    have wellFounded : WellFounded under := Finite.wellFounded_of_trans_of_irrefl under
    have all : ∀ y : Reached, Founded below y.1 := by
      intro y
      induction y using wellFounded.induction with
      | _ y ih =>
        rw [foundedIff]
        intro z edge
        exact ih ⟨z, y.2.tail edge⟩ (.single edge)
    exact all ⟨x, .refl⟩

end

/- A recursion that has a result with some fuel where it has one at all children with one less. -/
structure Recursion (f : Nat → α → Option β) (children : α → List α) : Prop where
  zero : ∀ x, f 0 x = none
  succ : ∀ fuel x, (∃ b, f (fuel + 1) x = some b) ↔ ∀ y ∈ children x, ∃ b, f fuel y = some b

namespace Recursion
variable {f : Nat → α → Option β} {children : α → List α}

theorem more (h : Recursion f children) : ∀ {fuel larger : Nat} {x : α}, (∃ b, f fuel x = some b) →
    fuel ≤ larger → ∃ b, f larger x = some b := by
  intro fuel
  induction fuel with
  | zero =>
    intro larger x ends _
    obtain ⟨b, found⟩ := ends
    cases (h.zero x).symm.trans found
  | succ fuel ih =>
    intro larger x ends le
    obtain ⟨larger, rfl⟩ := Nat.exists_eq_add_of_lt le
    rw [h.succ]
    intro y mem
    exact ih ((h.succ fuel x).mp ends y mem) (Nat.le_add_right fuel larger)

theorem common (h : Recursion f children) {ys : List α}
    (each : ∀ y ∈ ys, ∃ fuel b, f fuel y = some b) : ∃ fuel, ∀ y ∈ ys, ∃ b, f fuel y = some b := by
  induction ys with
  | nil => exact ⟨0, nofun⟩
  | cons y rest ih =>
    obtain ⟨first, here⟩ := each y List.mem_cons_self
    obtain ⟨later, all⟩ := ih (fun z mem => each z (List.mem_cons_of_mem _ mem))
    refine ⟨max first later, ?_⟩
    intro z mem
    cases List.mem_cons.mp mem with
    | inl same => exact same ▸ h.more here (Nat.le_max_left first later)
    | inr inside => exact h.more (all z inside) (Nat.le_max_right first later)

theorem endsIff (h : Recursion f children) {x : α} :
    (∃ fuel b, f fuel x = some b) ↔ Founded (fun outer inner => inner ∈ children outer) x := by
  constructor
  · intro ends
    obtain ⟨fuel, some_⟩ := ends
    induction fuel generalizing x with
    | zero =>
      obtain ⟨b, found⟩ := some_
      cases (h.zero x).symm.trans found
    | succ fuel ih => exact foundedIff.mpr (fun y mem => ih ((h.succ fuel x).mp some_ y mem))
  · intro founded
    induction founded with
    | intro x _ ih =>
      obtain ⟨fuel, all⟩ := h.common ih
      exact ⟨fuel + 1, (h.succ fuel x).mpr all⟩

end Recursion
end Unfolding
