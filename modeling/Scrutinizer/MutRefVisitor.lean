import Scrutinizer.TypeUnfolding

/-! The visitor of `contains_mut_ref` as it runs, with its flag and the control flow of its nested
visits. It never breaks off, and it comes to every type inside the one it starts with. -/
namespace Scrutinizer
open Unfolding

inductive ControlFlow where
  | continue_
  | break_
  deriving DecidableEq, Repr

/- `visited` is a history variable: the types that `visit_ty` was called with, in order. -/
structure ContainsMutRefVisitor where
  hasMutRef : Bool
  visited : List Ty

namespace ContainsMutRefVisitor

def new : ContainsMutRefVisitor := ⟨false, []⟩

def enter (self : ContainsMutRefVisitor) (ty : Ty) : ContainsMutRefVisitor :=
  {self with visited := self.visited ++ [ty]}

def note (self : ContainsMutRefVisitor) (ty : Ty) : ContainsMutRefVisitor :=
  if ty.refMutability = some .mut then {self with hasMutRef := true} else self

/- Visits one type after the other; the `?` ends the loop at the first that breaks. -/
def visitAll (visit : Ty → ContainsMutRefVisitor → Option (ControlFlow × ContainsMutRefVisitor)) :
    List Ty → ContainsMutRefVisitor → Option (ControlFlow × ContainsMutRefVisitor)
  | [], self => some (.continue_, self)
  | ty :: rest, self => do
      match ← visit ty self with
      | (.break_, self) => some (.break_, self)
      | (.continue_, self) => visitAll visit rest self

/- `none` is a visit that the fuel did not see end. -/
def visitTy (tcx : TyCtxt) : Nat → Ty → ContainsMutRefVisitor →
    Option (ControlFlow × ContainsMutRefVisitor)
  | 0, _, _ => none
  | fuel + 1, ty, self => do
      match ← visitAll (visitTy tcx fuel) (ty.adtFields tcx) (self.enter ty) with
      | (.break_, self) => some (.break_, self)
      | (.continue_, self) => visitAll (visitTy tcx fuel) ty.components (self.note ty)

theorem noteEq (self : ContainsMutRefVisitor) (ty : Ty) :
    self.note ty = ⟨self.hasMutRef || decide (ty.refMutability = some .mut), self.visited⟩ := by
  unfold note
  split
  · rename_i mutable_
    simp [mutable_]
  · rename_i immutable
    simp [immutable]

section
variable {tcx : TyCtxt}

def Visits (tcx : TyCtxt) (ty : Ty) (found : Bool) (self after : ContainsMutRefVisitor) : Prop :=
  ∃ inside, after = ⟨self.hasMutRef || found, self.visited ++ inside⟩ ∧
    ∀ t, t ∈ inside ↔ Relation.ReflTransGen (Ty.Inside tcx) ty t

theorem visitAllSpec {visit : Ty → ContainsMutRefVisitor → Option (ControlFlow × ContainsMutRefVisitor)}
    {flag : Ty → Option Bool}
    (each : ∀ ty found, flag ty = some found → ∀ self, ∃ after,
      visit ty self = some (.continue_, after) ∧ Visits tcx ty found self after) :
    ∀ {tys : List Ty} {found : Bool}, orAll (tys.map flag) = some found → ∀ self, ∃ inside,
      visitAll visit tys self = some (.continue_, ⟨self.hasMutRef || found, self.visited ++ inside⟩) ∧
        ∀ t, t ∈ inside ↔ ∃ ty ∈ tys, Relation.ReflTransGen (Ty.Inside tcx) ty t := by
  intro tys
  induction tys with
  | nil =>
    intro found ok self
    cases Option.some.inj ok
    exact ⟨[], by simp [visitAll], by simp⟩
  | cons ty rest ih =>
    intro found ok self
    obtain ⟨first, later, known, others, rfl⟩ := orAllCons ok
    obtain ⟨_, ran, inside, rfl, here⟩ := each ty first known self
    obtain ⟨tail, ranRest, there⟩ := ih others ⟨self.hasMutRef || first, self.visited ++ inside⟩
    refine ⟨inside ++ tail, ?_, ?_⟩
    · simp only [visitAll, ran, bind, Option.bind_some, ranRest, Bool.or_assoc, List.append_assoc]
    · intro t
      simp only [List.mem_append, here, there, List.mem_cons, exists_eq_or_imp]

theorem visitTySpec (fuel : Nat) : ∀ {ty : Ty} {found : Bool}, containsMutRef tcx fuel ty = some found →
    ∀ self, ∃ after, visitTy tcx fuel ty self = some (.continue_, after) ∧ Visits tcx ty found self after := by
  induction fuel with
  | zero => intro ty found ok; cases ok
  | succ fuel ih =>
    intro ty found ok self
    simp only [containsMutRef, bind, Option.bind_eq_some_iff] at ok
    obtain ⟨fields, okFields, inner, okInner, last⟩ := ok
    cases Option.some.inj last
    have each : ∀ ty found, containsMutRef tcx fuel ty = some found → ∀ self, ∃ after,
        visitTy tcx fuel ty self = some (.continue_, after) ∧ Visits tcx ty found self after :=
      fun _ _ known => ih known
    obtain ⟨inFields, ranFields, hFields⟩ := visitAllSpec each okFields (self.enter ty)
    obtain ⟨inComponents, ranComponents, hComponents⟩ := visitAllSpec each okInner
      (note ⟨self.hasMutRef || fields, self.visited ++ [ty] ++ inFields⟩ ty)
    rw [noteEq] at ranComponents
    refine ⟨⟨self.hasMutRef || (fields || decide (ty.refMutability = some .mut) || inner),
      self.visited ++ ([ty] ++ inFields ++ inComponents)⟩, ?_, _, rfl, ?_⟩
    · simp only [Bool.or_assoc, List.append_assoc] at ranComponents
      simp only [visitTy, ranFields, bind, Option.bind_some, noteEq]
      simp only [enter, Bool.or_assoc, List.append_assoc, ranComponents]
    · intro t
      simp only [List.mem_append, List.mem_singleton, hFields, hComponents]
      rw [Relation.ReflTransGen.cases_head_iff]
      constructor
      · rintro ((rfl | ⟨field, mem, path⟩) | ⟨component, mem, path⟩)
        · exact .inl rfl
        · exact .inr ⟨field, .inl mem, path⟩
        · exact .inr ⟨component, .inr mem, path⟩
      · rintro (rfl | ⟨next, mem | mem, path⟩)
        · exact .inl (.inl rfl)
        · exact .inl (.inr ⟨next, mem, path⟩)
        · exact .inr ⟨next, mem, path⟩

theorem containsMutRefExact {ty : Ty} (unfolding : Founded (Ty.Inside tcx) ty) :
    ∃ fuel, ∀ larger, fuel ≤ larger → ∃ visitor,
      visitTy tcx larger ty .new = some (.continue_, visitor) ∧
      containsMutRef tcx larger ty = some visitor.hasMutRef ∧
      (visitor.hasMutRef = true ↔ ty.HasMutRef tcx) ∧
      ∀ t, t ∈ visitor.visited ↔ Relation.ReflTransGen (Ty.Inside tcx) ty t := by
  obtain ⟨fuel, ends⟩ := visitEndsIff.mpr unfolding
  refine ⟨fuel, ?_⟩
  intro larger le
  obtain ⟨found, known⟩ := (visitRecursion tcx).more ends le
  obtain ⟨_, ran, inside, rfl, reached⟩ := visitTySpec larger known .new
  refine ⟨_, ran, known, containsMutRefIff larger known, ?_⟩
  simpa [new] using reached

end

/- `struct Slot { cell: &mut usize }`. -/
noncomputable def slotCrate : TyCtxt := {TyCtxt.plain (.listed [] List.nodup_nil) with
  adtDef := fun _ => ⟨[[.ref Ty.usize .mut]], none, false, false, false⟩}

theorem slotUnfolds : Founded (Ty.Inside slotCrate) (.array (.adt 0 []) (.const 3)) := by
  rw [← visitEndsIff]
  exact ⟨4, true, by decide +kernel⟩

theorem slotExact : ∃ fuel, ∀ larger, fuel ≤ larger → ∃ visitor,
    visitTy slotCrate larger (.array (.adt 0 []) (.const 3)) .new = some (.continue_, visitor) ∧
    containsMutRef slotCrate larger (.array (.adt 0 []) (.const 3)) = some visitor.hasMutRef ∧
    (visitor.hasMutRef = true ↔ (Ty.array (.adt 0 []) (.const 3)).HasMutRef slotCrate) ∧
    ∀ t, t ∈ visitor.visited ↔
      Relation.ReflTransGen (Ty.Inside slotCrate) (.array (.adt 0 []) (.const 3)) t :=
  containsMutRefExact slotUnfolds

end ContainsMutRefVisitor
end Scrutinizer
