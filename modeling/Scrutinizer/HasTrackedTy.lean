import Mathlib.Data.List.Forall2
import Scrutinizer.CollectorDomain

/-! The tracked type of a place, an operand and an rvalue. A closure aggregate also records
the types of its upvars. -/
namespace Scrutinizer

def Place.trackedTy (tcx : TyCtxt) (body : Body) (inst : Instance) (s : CollectorDomain)
    (place : Place) : Option TrackedTy :=
  match s.get (tcx.normalize inst.defId place) with
  | some ty => some ty
  | none => ((place.ty tcx body).map (fun t => TrackedTy.fromTy t.ty)).toOption

def Operand.trackedTy (tcx : TyCtxt) (body : Body) (inst : Instance) (s : CollectorDomain) :
    Operand → Option TrackedTy
  | .copy place | .move place => place.trackedTy tcx body inst s
  | .constant ty => some (TrackedTy.fromTy ty)

/- The arithmetic operators assert that both sides have one tracked type. -/
def binOpTrackedTy (op : BinOp) (lhs rhs : TrackedTy) : Option TrackedTy :=
  match op with
  | .add | .sub | .mul | .div | .rem | .bitXor | .bitAnd | .bitOr
  | .addUnchecked | .mulUnchecked | .shlUnchecked | .shrUnchecked | .subUnchecked =>
      if lhs = rhs then some lhs else none
  | .shl | .shr | .offset => some lhs
  | .eq | .lt | .le | .ne | .ge | .gt => some (.present Ty.bool)

/- All tuples with one member from each list, the last position varying fastest. No list at
all gives no tuple, as in the version of itertools that the lock file names. -/
def multiCartesianProduct {α : Type} : List (List α) → List (List α)
  | [] => []
  | [choices] => choices.map (fun c => [c])
  | choices :: rest => choices.flatMap (fun c => (multiCartesianProduct rest).map (c :: ·))

theorem memProduct {α : Type} : ∀ {choices : List (List α)} {picked : List α},
    picked ∈ multiCartesianProduct choices ↔
      choices ≠ [] ∧ List.Forall₂ (fun c options => c ∈ options) picked choices
  | [], picked => by simp [multiCartesianProduct]
  | [options], picked => by
      simp only [multiCartesianProduct, List.mem_map, List.forall₂_cons_right_iff,
        List.forall₂_nil_right_iff]
      grind
  | options :: next :: rest, picked => by
      rw [multiCartesianProduct, List.mem_flatMap, List.forall₂_cons_right_iff]
      · have tail := @memProduct α (next :: rest)
        simp only [List.mem_map, tail]
        grind
      · exact nofun

def tupleTrackedTy (order : HashOrder Ty) (opTys : List TrackedTy) : TrackedTy :=
  if opTys.all TrackedTy.isPresent then
    TrackedTy.fromTy (.tuple (opTys.flatMap (TrackedTy.intoVec order)))
  else
    .erased ((multiCartesianProduct (opTys.map (TrackedTy.intoVec order))).map Ty.tuple).toFinset

def castTrackedTy (kind : CastKind) (operandTy : TrackedTy) (ty : Ty) : TrackedTy :=
  match kind with
  | .pointerFromExposedAddress | .pointerExposeAddress => TrackedTy.fromTy ty
  | .transmute => if ty.isFnPtr then operandTy else TrackedTy.fromTy ty
  | _ => operandTy

/- `None` is a panic. The closures are those after the rvalue was looked at. -/
def Rvalue.trackedTy (tcx : TyCtxt) (body : Body) (inst : Instance) (s : CollectorDomain)
    (closures : ClosureInfoStorage) (rvalue : Rvalue) : Option (TrackedTy × ClosureInfoStorage) :=
  let operandTy := Operand.trackedTy tcx body inst s
  let placeTy := Place.trackedTy tcx body inst s
  match rvalue with
  | .useOperand operand => do
      let ty ← operandTy operand
      some (ty, closures)
  | .repeatOperand operand count => do
      let ty ← operandTy operand
      some (ty.map (fun ty => .array ty count), closures)
  | .threadLocalRef did => some (.fromTy (tcx.threadLocalPtrTy did), closures)
  | .ref kind place => do
      let ty ← placeTy place
      some (ty.map (fun ty => .ref ty kind.toMutbl), closures)
  | .addressOf mutbl place => do
      let ty ← placeTy place
      some (ty.map (fun ty => .rawPtr ty mutbl), closures)
  | .len _ => some (.fromTy Ty.usize, closures)
  | .cast kind operand ty => do
      let operandTy ← operandTy operand
      some (castTrackedTy kind operandTy ty, closures)
  | .binaryOp op lhs rhs => do
      let lhsTy ← operandTy lhs
      let rhsTy ← operandTy rhs
      let ty ← binOpTrackedTy op lhsTy rhsTy
      some (ty, closures)
  | .checkedBinaryOp op lhs rhs => do
      let lhsTy ← operandTy lhs
      let rhsTy ← operandTy rhs
      let ty ← binOpTrackedTy op lhsTy rhsTy
      some (ty.map (fun ty => .tuple [ty, Ty.bool]), closures)
  | .unaryOp operand => do
      let ty ← operandTy operand
      some (ty, closures)
  | .discriminant place => do
      let ty ← placeTy place
      some (ty.map tcx.discriminantTy, closures)
  | .nullaryOp => some (.fromTy Ty.usize, closures)
  | .aggregate (.array ty) ops => some (.fromTy (.array ty (.const ops.length)), closures)
  | .aggregate .tuple ops => do
      let opTys ← ops.mapM operandTy
      some (tupleTrackedTy tcx.hashOrder opTys, closures)
  | .aggregate (.adt did _ args) _ =>
      some (.fromTy (inst.substMir ((tcx.typeOf did).instantiate args)), closures)
  | .aggregate (.closure did substs) ops => do
      let closureTy := Ty.closure did substs
      let upvarTys ← ops.mapM operandTy
      let closures ← closures.updateWith closureTy inst upvarTys
      some (.fromTy closureTy, closures)
  | .aggregate (.generator _ _) _ => none
  | .shallowInitBox _ ty => some (.fromTy (tcx.newBox ty), closures)
  | .copyForDeref place => do
      let ty ← placeTy place
      some (ty, closures)

end Scrutinizer
