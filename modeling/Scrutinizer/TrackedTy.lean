import Mathlib.Data.Finset.Image
import Mathlib.Data.Finset.Union
import Scrutinizer.TyCtxt

/-! Types the analysis tracks for places. A declared type without trait objects, pointers or
parameters is `present` and stays so; for any other, the concrete types seen are collected.
The empty set stands for a type nothing is known of. -/
namespace Scrutinizer

def containsErased (ty : Ty) : Bool := !ty.containsClosure && ty.walk.any Ty.isErasedKind

/- `None` where the code panics: a later row is shorter than the first, or there is none. -/
def transpose {α : Type} (v : List (List α)) : Option (List (List α)) := do
  let first ← v.head?
  (List.range first.length).mapM (fun i => v.mapM (fun n => n[i]?))

inductive TrackedTy where
  | present (ty : Ty)
  | erased (deps : Finset Ty)
  deriving DecidableEq

namespace TrackedTy

def fromTy (ty : Ty) : TrackedTy := if containsErased ty then .erased ∅ else .present ty

/- The types of a tracked type as a set; `intoVec` lists them in the order of the hash set. -/
def types : TrackedTy → Finset Ty
  | .present ty => {ty}
  | .erased deps => deps

def intoVec (order : HashOrder Ty) : TrackedTy → List Ty
  | .present ty => [ty]
  | .erased deps => order.iter deps

@[simp] theorem memIntoVec (order : HashOrder Ty) (t : TrackedTy) (ty : Ty) :
    ty ∈ t.intoVec order ↔ ty ∈ t.types := by
  cases t with
  | present => simp [intoVec, types]
  | erased deps => exact order.mem deps ty

/- The joined type and whether it differs from the left one. -/
def join (self other : TrackedTy) : TrackedTy × Bool :=
  match self with
  | .present _ => (self, false)
  | .erased deps => match other with
    | .present ty => (.erased (insert ty deps), decide (ty ∉ deps))
    | .erased depsOther => (.erased (deps ∪ depsOther), decide (¬ depsOther ⊆ deps))

def map (lambda : Ty → Ty) : TrackedTy → TrackedTy
  | .present ty => fromTy (lambda ty)
  | .erased deps => .erased (deps.image lambda)

def tryMap (order : HashOrder Ty) (lambda : Ty → Except ProjectError Ty) :
    TrackedTy → Except ProjectError TrackedTy
  | .present ty => do
      let mapped ← lambda ty
      .ok (fromTy mapped)
  | .erased deps => do
      let mapped ← (order.iter deps).mapM lambda
      .ok (.erased mapped.toFinset)

def spreadTuple (order : HashOrder Ty) (self : TrackedTy) : Option (List TrackedTy) :=
  match self with
  | .present ty => ty.tupleFields.map (List.map fromTy)
  | .erased deps =>
      if deps.Nonempty then do
        let spread ← (order.iter deps).mapM Ty.tupleFields
        let columns ← transpose spread
        some (columns.map (fun v => .erased v.toFinset))
      else some [self]

def isPresent : TrackedTy → Bool
  | .present _ => true
  | .erased _ => false

@[simp] theorem joinPresent (ty : Ty) (other : TrackedTy) :
    (present ty).join other = (present ty, false) := rfl

@[simp] theorem joinErased (deps : Finset Ty) (other : TrackedTy) :
    ((erased deps).join other).1 = erased (deps ∪ other.types) := by
  cases other with
  | present ty => simp [join, types]
  | erased => rfl

theorem joinGrows (self other : TrackedTy) : self.types ⊆ (self.join other).1.types := by
  cases self with
  | present => rfl
  | erased deps => rw [joinErased]; exact Finset.subset_union_left

theorem joinSelf (self : TrackedTy) : (self.join self).1 = self := by
  cases self with
  | present => rfl
  | erased deps => rw [joinErased]; simp [types]

def joinMany (self : TrackedTy) (others : List TrackedTy) : TrackedTy :=
  others.foldl (fun acc other => (acc.join other).1) self

@[simp] theorem joinManyPresent (ty : Ty) (others : List TrackedTy) :
    (present ty).joinMany others = present ty := by
  induction others with
  | nil => rfl
  | cons other rest ih =>
    rw [joinMany, List.foldl_cons, joinPresent]
    exact ih

theorem joinManyErased (others : List TrackedTy) : ∀ deps : Finset Ty,
    (erased deps).joinMany others = erased (deps ∪ others.toFinset.biUnion types) := by
  induction others with
  | nil => intro deps; simp [joinMany]
  | cons other rest ih =>
    intro deps
    have tail := ih (deps ∪ other.types)
    rw [joinMany, List.foldl_cons, joinErased, ← joinMany, tail, List.toFinset_cons,
      Finset.biUnion_insert, Finset.union_assoc]

theorem joinManyGrows (self : TrackedTy) (others : List TrackedTy) :
    self.types ⊆ (self.joinMany others).types := by
  cases self with
  | present ty => rw [joinManyPresent]
  | erased deps => rw [joinManyErased]; exact Finset.subset_union_left

theorem fromTyErased {ty : Ty} (h : containsErased ty = true) : fromTy ty = .erased ∅ := by
  simp [fromTy, h]

theorem fromTyPresent {ty : Ty} (h : containsErased ty = false) : fromTy ty = .present ty := by
  simp [fromTy, h]

def Describes (ty : Ty) : TrackedTy → Prop
  | .present t => t = ty ∧ containsErased ty = false
  | .erased _ => containsErased ty = true

theorem fromTyDescribes (ty : Ty) : Describes ty (fromTy ty) := by
  cases h : containsErased ty with
  | true => rw [fromTyErased h]; exact h
  | false => rw [fromTyPresent h]; exact ⟨rfl, h⟩

theorem describedPresent {ty : Ty} {self : TrackedTy} (shape : Describes ty self)
    (plain : containsErased ty = false) : self = .present ty := by
  cases self with
  | present t => rw [shape.1]
  | erased deps => exact absurd (plain.symm.trans shape) (by simp)

theorem describedErased {ty : Ty} {self : TrackedTy} (shape : Describes ty self)
    (erased : containsErased ty = true) : ∃ deps, self = .erased deps := by
  cases self with
  | present t => exact absurd (erased.symm.trans shape.2) (by simp)
  | erased deps => exact ⟨deps, rfl⟩

theorem describesJoin {ty : Ty} {self : TrackedTy} (shape : Describes ty self)
    (other : TrackedTy) : Describes ty (self.join other).1 := by
  cases self with
  | present t => exact shape
  | erased deps => rw [joinErased]; exact shape

theorem describesJoinMany {ty : Ty} {self : TrackedTy} (shape : Describes ty self)
    (others : List TrackedTy) : Describes ty (self.joinMany others) := by
  cases self with
  | present t => rw [joinManyPresent]; exact shape
  | erased deps => rw [joinManyErased]; exact shape

end TrackedTy

structure ArgTys where
  argTys : List TrackedTy
  deriving DecidableEq

namespace ArgTys

def asClosure (order : HashOrder Ty) (self : ArgTys) : Option ArgTys := do
  let receiver ← self.argTys[0]?
  let packed ← self.argTys[1]?
  let spread ← packed.spreadTuple order
  some ⟨receiver :: spread⟩

def mergeOne (inferred provided : TrackedTy) : TrackedTy :=
  match provided with
  | .present _ => provided
  | .erased _ => inferred

/- The provided types win where they are known. On a mismatch of lengths, which the code
warns about, the inferred ones are taken as they are. -/
def merge (inferred provided : ArgTys) : ArgTys :=
  if inferred.argTys.length ≠ provided.argTys.length then inferred
  else ⟨List.zipWith mergeOne inferred.argTys provided.argTys⟩

def peel (substIndex : Nat) (genericTy : SigTy) (substTy : Ty) : Option Ty :=
  ((genericTy.walk.zip substTy.walk).find? (fun pair => pair.1.isParam substIndex)).map Prod.snd

def extractSubsts (order : HashOrder Ty) (self : ArgTys) (genericTys : List SigTy)
    (substIndex : Nat) : List Ty :=
  (genericTys.zip self.argTys).flatMap (fun pair =>
    (pair.2.intoVec order).filterMap (peel substIndex pair.1))

end ArgTys
end Scrutinizer
