import Scrutinizer.Library.HashOrder
import Scrutinizer.Mir
import Scrutinizer.Signature

/-! What the analysis takes from outside: rustc's queries, rustc_utils' view of places,
Flowistry's dependencies, the regular expression engine and the order of hash sets. A theorem
that relies on how one of them behaves says so in a hypothesis. -/
namespace Scrutinizer

structure AdtDef where
  variants : List (List Ty)
  destructor : Option DefId
  isBox : Bool
  isUnion : Bool
  isManuallyDrop : Bool
  deriving DecidableEq, Repr

structure TyCtxt where
  isLocal : DefId → Bool
  isClosure : DefId → Bool
  isConstructor : DefId → Bool
  isCtfe : DefId → Bool
  adtDef : DefId → AdtDef
  typeOf : DefId → Ty
  fnSig : DefId → FnSig SigTy
  resolve : DefId → List Ty → Option Instance
  loadBodyAndFacts : DefId → Option Body
  mirForCtfe : DefId → Body
  mirShims : Instance → Body
  substMirAndNormalize : Instance → Body → Body
  discriminantTy : Ty → Ty
  threadLocalPtrTy : DefId → Ty
  newBox : Ty → Ty
  normalize : DefId → Place → Place
  allPlaces : DefId → Body → List Place
  interiorPaths : DefId → Body → Place → List Place
  reversePostorder : Body → List Nat
  visitedTys : Body → List Ty
  dependentLocals : DefId → List Nat → List Nat
  crateName : DefId → String
  defPathStr : DefId → String
  isMatch : String → String → Bool
  hashOrder : HashOrder Ty

namespace TyCtxt
variable (tcx : TyCtxt)

def isMirAvailable (defId : DefId) : Bool := (tcx.loadBodyAndFacts defId).isSome

def numArgsInBody (defId : DefId) : Option Nat := (tcx.loadBodyAndFacts defId).map Body.argCount

/- `isCtfe` holds of constants, statics and constructors. Loading the body of any other item
panics when there is no artifact for it. -/
def substitutedMir (inst : Instance) : Option Body :=
  let instanceBody := match inst.kind with
    | .item =>
        if tcx.isCtfe inst.defId then some (tcx.mirForCtfe inst.defId)
        else tcx.loadBodyAndFacts inst.defId
    | _ => some (tcx.mirShims inst)
  instanceBody.map (tcx.substMirAndNormalize inst)

def instanceTy (inst : Instance) : Ty :=
  if tcx.isClosure inst.defId then .closure inst.defId inst.args else .fnDef inst.defId inst.args

def instantiatedSig (defId : DefId) (args : List Ty) : FnSig Ty :=
  let sig := tcx.fnSig defId
  ⟨sig.inputs.map (SigTy.instantiate args), sig.output.instantiate args⟩

def builtinDeref : Ty → Option Ty
  | .ref ty _ | .rawPtr ty _ => some ty
  | .adt did args => if (tcx.adtDef did).isBox then args.head? else none
  | _ => none

end TyCtxt

/- `missing` stands for a panic inside rustc or an `unwrap` of the code itself. -/
inductive ProjectError where
  | invalidProjection (placeTy : PlaceTy) (elem : PlaceElem)
  | fieldUnsupported (placeTy : PlaceTy) (fieldIdx : Nat)
  | missing
  deriving DecidableEq, Repr

def orMissing {α : Type} : Option α → Except ProjectError α
  | some a => .ok a
  | none => .error .missing

@[simp] theorem orMissingOk {α : Type} {o : Option α} {a : α} :
    orMissing o = .ok a ↔ o = some a := by
  cases o <;> simp [orMissing]

theorem bindOk {ε α β : Type} {first : Except ε α} {next : α → Except ε β} {out : β}
    (ok : first.bind next = .ok out) : ∃ mid, first = .ok mid ∧ next mid = .ok out := by
  cases first with
  | error e => cases ok
  | ok mid => exact ⟨mid, rfl, ok⟩

/- `PlaceTy::projection_ty` for every element but a field. -/
def projectionTy (tcx : TyCtxt) (placeTy : PlaceTy) (elem : PlaceElem) :
    Except ProjectError PlaceTy :=
  if placeTy.variantIndex.isSome then .error .missing
  else match elem with
    | .deref => (orMissing (tcx.builtinDeref placeTy.ty)).map PlaceTy.fromTy
    | .index _ | .constantIndex _ _ => (orMissing placeTy.ty.builtinIndex).map PlaceTy.fromTy
    | .subslice lo hi fromEnd => match placeTy.ty, fromEnd with
        | .slice _, _ => .ok placeTy
        | .array ty _, false => .ok (.fromTy (.array ty (.const (hi - lo))))
        | .array ty (.const size), true => .ok (.fromTy (.array ty (.const (size - lo - hi))))
        | _, _ => .error .missing
    | .downcast variant => .ok ⟨placeTy.ty, some variant⟩
    | .opaqueCast ty => .ok (.fromTy ty)
    | .field _ => .error .missing

def indexTyField (tcx : TyCtxt) (placeTy : PlaceTy) (fieldIdx : Nat) : Except ProjectError Ty :=
  match placeTy.ty with
  | .adt did args => do
      let variant ← orMissing (tcx.adtDef did).variants[placeTy.variantIndex.getD 0]?
      let field ← orMissing variant[fieldIdx]?
      .ok (field.instantiate args)
  | .closure _ args => do
      let parts ← orMissing (ClosureParts.asClosure args)
      let upvars ← orMissing parts.upvarTys
      orMissing upvars[fieldIdx]?
  | .tuple tys => orMissing tys[fieldIdx]?
  | _ => .error (.fieldUnsupported placeTy fieldIdx)

def refreshAndProject (tcx : TyCtxt) (placeTy : PlaceTy) (elem : PlaceElem) :
    Except ProjectError PlaceTy :=
  match elem with
  | .field idx => do
      let fixed ← match placeTy.ty with
        | .alias _ args => do
            let selfTy ← orMissing args.head?
            indexTyField tcx ⟨selfTy, placeTy.variantIndex⟩ idx
        | _ => indexTyField tcx placeTy idx
      .ok (.fromTy fixed)
  | .deref =>
      if tcx.builtinDeref placeTy.ty = none then .error (.invalidProjection placeTy elem)
      else projectionTy tcx placeTy elem
  | .index _ =>
      if placeTy.ty.builtinIndex = none then .error (.invalidProjection placeTy elem)
      else projectionTy tcx placeTy elem
  | _ => projectionTy tcx placeTy elem

def projectAll (tcx : TyCtxt) (placeTy : PlaceTy) (elems : List PlaceElem) :
    Except ProjectError PlaceTy :=
  elems.foldlM (refreshAndProject tcx) placeTy

def Place.ty (tcx : TyCtxt) (body : Body) (place : Place) : Except ProjectError PlaceTy := do
  let decl ← orMissing body.localDecls[place.base]?
  projectAll tcx (.fromTy decl) place.projection

def Operand.ty (tcx : TyCtxt) (body : Body) : Operand → Except ProjectError Ty
  | .constant ty => .ok ty
  | .copy p | .move p => (p.ty tcx body).map PlaceTy.ty

end Scrutinizer
