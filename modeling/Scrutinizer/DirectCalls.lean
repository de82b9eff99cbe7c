import Scrutinizer.Calls
import Scrutinizer.Library.FirstPath
import Scrutinizer.Resolve
import Scrutinizer.Verdict

/-! Programs whose functions call non-generic functions directly. A call resolves to the function
it names, with the arguments its signature declares, whatever the storages hold. -/
namespace Scrutinizer

def itemOf (did : DefId) : Instance := ⟨.item, did, []⟩

def Terminator.directCall : Terminator → Option (List Operand × DefId)
  | .call (.constant (.fnDef did [])) args _ _ _ => some (args, did)
  | _ => none

def Body.callAt (body : Body) (bb : Nat) : Option (List Operand × DefId) :=
  (body.basicBlocks[bb]?).bind (fun data => data.terminator.directCall)

def argsOf (tcx : TyCtxt) (did : DefId) : ArgTys :=
  ⟨(tcx.instantiatedSig did []).inputs.map TrackedTy.fromTy⟩

def functionBody (tcx : TyCtxt) (did : DefId) : Option Body :=
  if tcx.isMirAvailable did then tcx.substitutedMir (itemOf did) else none

/- The blocks in the order in which the analysis of a body first comes to them. -/
def visitOrder (tcx : TyCtxt) (body : Body) : List Nat :=
  tcx.reversePostorder body ++ List.range body.basicBlocks.length

def callees (tcx : TyCtxt) (did : DefId) : List DefId :=
  match functionBody tcx did with
  | some body => ((visitOrder tcx body).filterMap (fun bb => (body.callAt bb).map Prod.snd)).filter
      (fun callee => tcx.isMirAvailable callee)
  | none => []

def CallsWith (tcx : TyCtxt) (caller : DefId) (args : List Operand) (callee : DefId) : Prop :=
  ∃ body bb, functionBody tcx caller = some body ∧ body.callAt bb = some (args, callee)

def Terminator.Direct (tcx : TyCtxt) (body : Body) : Terminator → Prop
  | .call func _ _ _ _ => ∃ did, func = .constant (.fnDef did [])
  | .drop place _ _ => ∀ placeTy, place.ty tcx body = .ok placeTy →
      Collector.dropCallee tcx placeTy.ty = none
  | .other _ => True

structure DirectProgram (tcx : TyCtxt) (member : DefId → Prop) : Prop where
  noClosure : ∀ did, member did → tcx.isClosure did = false
  resolved : ∀ did, member did → tcx.isMirAvailable did = true →
    tcx.resolve did [] = some (itemOf did)
  unresolved : ∀ did inst, member did → tcx.isMirAvailable did = false →
    tcx.resolve did [] = some inst → tcx.isMirAvailable inst.defId = false
  present : ∀ did, member did → ∀ ty ∈ (argsOf tcx did).argTys, ty.isPresent = true
  declared : ∀ did body, member did → functionBody tcx did = some body →
    Collector.originArgs body = some (argsOf tcx did)
  direct : ∀ did body data, member did → functionBody tcx did = some body →
    data ∈ body.basicBlocks → data.terminator.Direct tcx body
  called : ∀ did args callee, member did → CallsWith tcx did args callee →
    member callee ∧ args.length = (argsOf tcx callee).argTys.length
  edges : ∀ did body bb data, member did → functionBody tcx did = some body →
    bb ∈ tcx.reversePostorder body → body.basicBlocks[bb]? = some data →
      ∀ target ∈ data.terminator.edges, target ∈ tcx.reversePostorder body

theorem mergePresent {argTys provided : ArgTys}
    (length : argTys.argTys.length = provided.argTys.length)
    (present : ∀ ty ∈ provided.argTys, ty.isPresent = true) : argTys.merge provided = provided := by
  have each : ∀ (inferred known : List TrackedTy), inferred.length = known.length →
      (∀ ty ∈ known, ty.isPresent = true) → List.zipWith ArgTys.mergeOne inferred known = known := by
    intro inferred known
    induction inferred generalizing known with
    | nil => intro same _; exact (List.length_eq_zero_iff.mp same.symm).symm
    | cons ty rest ih =>
      intro same all
      cases known with
      | nil => contradiction
      | cons first known =>
        obtain ⟨head, tail⟩ := List.forall_mem_cons.mp all
        rw [List.zipWith_cons_cons, ih known (Nat.succ.inj same) tail]
        cases first with
        | present => rfl
        | erased => simp [TrackedTy.isPresent] at head
  unfold ArgTys.merge
  rw [if_neg (not_not.mpr length), each _ _ length present]

namespace DirectProgram
variable {tcx : TyCtxt} {member : DefId → Prop} {did callee : DefId} {argTys : ArgTys}
  (program : DirectProgram tcx member) (inside : member callee)
  (length : argTys.argTys.length = (argsOf tcx callee).argTys.length)
include program inside

theorem resolveBody (closures : ClosureInfoStorage) (args : ArgTys)
    (length : argTys.argTys.length = (argsOf tcx callee).argTys.length)
    (available : tcx.isMirAvailable callee = true) :
    PartialFunctionInfo.resolve tcx closures (.function (itemOf did) args) callee [] argTys =
      some (.ok [.function (itemOf callee) (argsOf tcx callee)]) := by
  rw [PartialFunctionInfo.resolveFunction closures _ argTys (program.resolved callee inside available)
    (program.noClosure callee inside) available, ← argsOf,
    mergePresent length (program.present callee inside)]
  have same : Instance.substInstance (itemOf did) (itemOf callee) = itemOf callee :=
    Instance.substInstanceFixed (by simp [Instance.substMirFnDef]) .item
  exact congrArg (fun inst => some (Except.ok [PartialFunctionInfo.function inst (argsOf tcx callee)])) same

theorem resolveNothing (closures : ClosureInfoStorage) (self : PartialFunctionInfo)
    (missing : tcx.isMirAvailable callee = false) :
    PartialFunctionInfo.resolve tcx closures self callee [] argTys = some (.ok []) := by
  have absent : tcx.isMirAvailable (((tcx.resolve callee []).map Instance.defId).getD callee) = false := by
    cases found : tcx.resolve callee [] with
    | none => exact missing
    | some inst => exact program.unresolved callee inst inside missing found
  simp [PartialFunctionInfo.resolve, PartialFunctionInfo.candidates, absent,
    PartialFunctionInfo.findPlausibleInstances, multiCartesianProduct, PartialFunctionInfo.finishAll]

end DirectProgram
end Scrutinizer
