import Scrutinizer.TyCtxt

/-! Crates that consist of the functions one gives them. What the analysis asks about such a
crate has a computable answer, so a collection of it can be evaluated. -/
namespace Scrutinizer

def BasicBlockData.calling (did : DefId) (args : List Operand) (target : Nat) : BasicBlockData :=
  ⟨[], .call (.constant (.fnDef did [])) args .returnPlace (some target) none⟩

def BasicBlockData.returning : BasicBlockData := ⟨[], .other []⟩

mutual
def Ty.fieldPaths : Ty → List (List PlaceElem)
  | .tuple tys => [] :: Ty.fieldPathsList tys 0
  | _ => [[]]

def Ty.fieldPathsList : List Ty → Nat → List (List PlaceElem)
  | [], _ => []
  | ty :: tys, idx => (Ty.fieldPaths ty).map (.field idx :: ·) ++ Ty.fieldPathsList tys (idx + 1)
end

def Ty.component : Ty → List PlaceElem → Option Ty
  | ty, [] => some ty
  | .tuple tys, .field idx :: rest => do
      let field ← tys[idx]?
      field.component rest
  | _, _ :: _ => none

/- The context of a crate of local functions without bodies, where values are tuples and
scalars. Other crates override what they have. -/
def TyCtxt.plain (order : HashOrder Ty) : TyCtxt where
  isLocal _ := true
  isClosure _ := false
  isConstructor _ := false
  isCtfe _ := false
  adtDef _ := ⟨[], none, false, false, false⟩
  typeOf did := .fnDef did []
  fnSig _ := ⟨[], .unit⟩
  resolve did args := some ⟨.item, did, args⟩
  loadBodyAndFacts _ := none
  mirForCtfe _ := ⟨0, [Ty.unit], [], [], 0⟩
  mirShims _ := ⟨0, [Ty.unit], [], [], 0⟩
  substMirAndNormalize _ body := body
  discriminantTy _ := Ty.usize
  threadLocalPtrTy _ := Ty.usize
  newBox ty := ty
  normalize _ place := place
  allPlaces _ body := body.localDecls.zipIdx.flatMap (fun decl =>
    decl.1.fieldPaths.map (fun path => ⟨decl.2, path⟩))
  interiorPaths _ body place :=
    match (body.localDecls[place.base]?).bind (fun ty => ty.component place.projection) with
    | some ty => ty.fieldPaths.map place.extend
    | none => [place]
  reversePostorder body := List.range body.basicBlocks.length
  visitedTys _ := []
  dependentLocals _ locals := locals
  crateName _ := ""
  defPathStr _ := ""
  isMatch _ _ := false
  hashOrder := order

end Scrutinizer
