import Scrutinizer.HasTrackedTy

/-! Functions that are about to be analysed, and how a callee is resolved to them. -/
namespace Scrutinizer

structure VirtualStackItem where
  defId : DefId
  trackedArgs : ArgTys
  deriving DecidableEq

inductive PartialFunctionInfo where
  | function (inst : Instance) (trackedArgs : ArgTys)
  | closure (inst : Instance) (trackedArgs : ArgTys) (closureInfo : ClosureInfo)
  deriving DecidableEq

/- The two texts of a failed resolution, with the closure they name. -/
inductive ResolveError where
  | notFoundInsideStorage (defId : DefId)
  | notInsideTheStorage (defId : DefId)
  deriving DecidableEq, Repr

def ResolveError.defId : ResolveError → DefId
  | .notFoundInsideStorage defId | .notInsideTheStorage defId => defId

/- `None` where the code panics. -/
def extractArgTys (tcx : TyCtxt) (inst : Instance) : Option ArgTys :=
  match tcx.instanceTy inst with
  | .fnDef _ _ => some ⟨(tcx.instantiatedSig inst.defId inst.args).inputs.map TrackedTy.fromTy⟩
  | .closure did args => do
      let parts ← ClosureParts.asClosure args
      match parts.sig with
      | .fnPtr [input] _ => do
          let sigTys ← (TrackedTy.fromTy input).spreadTuple tcx.hashOrder
          some ⟨.fromTy (.ref (.closure did args) .not) :: sigTys⟩
      | _ => none
  | _ => none

namespace PartialFunctionInfo

def isClosure : PartialFunctionInfo → Bool
  | .function _ _ => false
  | .closure _ _ _ => true

def inst : PartialFunctionInfo → Instance
  | .function inst _ | .closure inst _ _ => inst

def trackedArgs : PartialFunctionInfo → ArgTys
  | .function _ trackedArgs | .closure _ trackedArgs _ => trackedArgs

def closureInfo : PartialFunctionInfo → Option ClosureInfo
  | .function _ _ => none
  | .closure _ _ info => some info

def stackItem (self : PartialFunctionInfo) : VirtualStackItem := ⟨self.inst.defId, self.trackedArgs⟩

def inferArgTys (tcx : TyCtxt) (argTys : ArgTys) (inst : Instance) : Option ArgTys :=
  if tcx.isClosure inst.defId then argTys.asClosure tcx.hashOrder else some argTys

def assemble (tcx : TyCtxt) (closures : ClosureInfoStorage) (argTys : ArgTys) (inst : Instance) :
    Option (Except ResolveError PartialFunctionInfo) := do
  let inferredArgs ← inferArgTys tcx argTys inst
  let providedArgs ← extractArgTys tcx inst
  let mergedArgTys := ArgTys.merge inferredArgs providedArgs
  if tcx.isClosure inst.defId then
    match closures.get inst.defId with
    | some closureInfo => some (.ok (.closure inst mergedArgTys closureInfo))
    | none => some (.error (.notFoundInsideStorage inst.defId))
  else some (.ok (.function inst mergedArgTys))

def findPlausibleInstances (tcx : TyCtxt) (defId : DefId) (argTys : ArgTys) (substs : List Ty) :
    List Instance :=
  let genericTys := (tcx.fnSig defId).inputs
  let plausibleArgs := (List.range substs.length).map (argTys.extractSubsts tcx.hashOrder genericTys)
  (multiCartesianProduct plausibleArgs).filterMap (tcx.resolve defId)

def finish (tcx : TyCtxt) (closures : ClosureInfoStorage) (self fnData : PartialFunctionInfo) :
    Option (Except ResolveError PartialFunctionInfo) :=
  if tcx.isClosure fnData.inst.defId then
    match closures.get fnData.inst.defId with
    | some upvars => do
        let resolvedInstance ← upvars.extractInstance tcx
        let closureInfo ← fnData.closureInfo
        some (.ok (.closure resolvedInstance fnData.trackedArgs closureInfo))
    | none => some (.error (.notInsideTheStorage fnData.inst.defId))
  else some (.ok (.function (self.inst.substInstance fnData.inst) fnData.trackedArgs))

/- `collect` into a `Result`: the first error ends it. -/
def finishAll (tcx : TyCtxt) (closures : ClosureInfoStorage) (self : PartialFunctionInfo) :
    List (Except ResolveError PartialFunctionInfo) →
      Option (Except ResolveError (List PartialFunctionInfo))
  | [] => some (.ok [])
  | .error e :: _ => some (.error e)
  | .ok fnData :: rest => do
      match ← finish tcx closures self fnData with
      | .error e => some (.error e)
      | .ok done =>
          match ← finishAll tcx closures self rest with
          | .error e => some (.error e)
          | .ok dones => some (.ok (done :: dones))

def candidates (tcx : TyCtxt) (closures : ClosureInfoStorage) (defId : DefId) (substs : List Ty)
    (argTys : ArgTys) : Option (List (Except ResolveError PartialFunctionInfo)) :=
  let maybeInstance := tcx.resolve defId substs
  let defId := (maybeInstance.map Instance.defId).getD defId
  if tcx.isMirAvailable defId then do
    let inst ← maybeInstance
    let assembled ← assemble tcx closures argTys inst
    some [assembled]
  else (findPlausibleInstances tcx defId argTys substs).mapM (assemble tcx closures argTys)

def resolve (tcx : TyCtxt) (closures : ClosureInfoStorage) (self : PartialFunctionInfo)
    (defId : DefId) (substs : List Ty) (argTys : ArgTys) :
    Option (Except ResolveError (List PartialFunctionInfo)) := do
  let fns ← candidates tcx closures defId substs argTys
  finishAll tcx closures self fns

def substitute (self : PartialFunctionInfo) (ty : Ty) : Ty := self.inst.substMir ty

end PartialFunctionInfo
end Scrutinizer
