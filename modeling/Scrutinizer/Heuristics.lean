import Mathlib.Data.Finset.Union
import Scrutinizer.Storage

/-! The checks on one body: raw pointer writes, mutable transmutes, and the crates it calls. -/
namespace Scrutinizer

def Place.hasRawPtrDeref (tcx : TyCtxt) (body : Body) (place : Place) : Option Bool :=
  place.projection.zipIdx.anyM (fun projection =>
    if projection.1 = .deref then do
      let prefixTy ← (Place.ty tcx body ⟨place.base, place.projection.take projection.2⟩).toOption
      match prefixTy.ty with
      | .rawPtr _ .mut => some true
      | _ => some false
    else some false)

def Statement.hasRawPtrDeref (tcx : TyCtxt) (body : Body) : Statement → Option Bool
  | .assign place rvalue => do
      if ← place.hasRawPtrDeref tcx body then some true
      else match rvalue with
        | .ref kind borrowPlace =>
            if kind.toMutbl = .mut then borrowPlace.hasRawPtrDeref tcx body else some false
        | _ => some false
  | .other => some false

/- Both visitors go through everything: a flag already set does not end the visit. -/
def orAll (flags : List (Option Bool)) : Option Bool := (flags.mapM id).map (fun bs => bs.any id)

def Body.hasRawPtrDeref (tcx : TyCtxt) (body : Body) : Option Bool :=
  orAll ((body.basicBlocks.flatMap BasicBlockData.statements).map (Statement.hasRawPtrDeref tcx body))

/- What `super_visit_with` visits below a type. -/
def Ty.components : Ty → List Ty
  | .adt _ args | .fnDef _ args | .closure _ args | .dynamic _ args | .alias _ args => args
  | .ref ty _ | .rawPtr ty _ | .slice ty => [ty]
  | .array ty len => [ty, len]
  | .tuple tys => tys
  | .fnPtr inputs output => inputs ++ [output]
  | .const _ => [Ty.usize]
  | .prim _ | .param _ | .foreign _ | .lifetime => []

def Ty.adtFields (tcx : TyCtxt) : Ty → List Ty
  | .adt did substs => (tcx.adtDef did).variants.flatten.map (Ty.instantiate substs)
  | _ => []

/- The visitor has no set of visited types; `none` is a visit that the fuel did not see end. -/
def containsMutRef (tcx : TyCtxt) : Nat → Ty → Option Bool
  | 0, _ => none
  | fuel + 1, ty => do
      let fields ← orAll ((ty.adtFields tcx).map (containsMutRef tcx fuel))
      let inner ← orAll (ty.components.map (containsMutRef tcx fuel))
      some (fields || decide (ty.refMutability = some .mut) || inner)

def transmuteDefPath : String := "core\\[\\w*\\]::intrinsics::\\\x7bextern#0\\\x7d::transmute"

def Operand.constFnDef : Operand → Option (DefId × List Ty)
  | .constant (.fnDef did args) => some (did, args)
  | _ => none

def Terminator.callee : Terminator → Option (DefId × List Ty)
  | .call func _ _ _ _ => func.constFnDef
  | _ => none

def Terminator.hasTransmute (tcx : TyCtxt) (fuel : Nat) (terminator : Terminator) : Option Bool :=
  match terminator.callee with
  | some (did, genericArgs) =>
      if tcx.isMatch transmuteDefPath (tcx.defPathStr did) then do
        let target ← genericArgs[1]?
        if target.isType then containsMutRef tcx fuel target else none
      else some false
  | none => some false

def Body.hasTransmute (tcx : TyCtxt) (fuel : Nat) (body : Body) : Option Bool :=
  orAll (body.basicBlocks.map (fun data => data.terminator.hasTransmute tcx fuel))

def computeDepsForBody (tcx : TyCtxt) (body : Body) : Finset String :=
  (body.basicBlocks.filterMap (fun data =>
    data.terminator.callee.map (fun callee => tcx.crateName callee.1))).toFinset

end Scrutinizer
