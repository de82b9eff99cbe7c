import Scrutinizer.Storage

/-! The locals that carry important data, and how they pass from a caller to a callee. -/
namespace Scrutinizer

inductive Fault where
  | depth
  | unresolved
  | noOrigin
  | noBody
  | closureArgs
  | check
  deriving DecidableEq, Repr

structure ImportantLocals where
  locals : Finset Nat
  deriving DecidableEq

namespace ImportantLocals

def isEmpty (self : ImportantLocals) : Bool := decide (self.locals = ∅)

/- Arguments are the locals from 1 on. -/
def fromImportantArgs (tcx : TyCtxt) (importantArgs : List Nat) (defId : DefId) : ImportantLocals :=
  ⟨(tcx.dependentLocals defId importantArgs).toFinset⟩

def importantArgs (self : ImportantLocals) (args : List Operand) : List Nat :=
  args.zipIdx.filterMap (fun arg =>
    (arg.1.place.bind Place.asLocal).bind (fun base =>
      if base ∈ self.locals then some (arg.2 + 1) else none))

def targets (tcx : TyCtxt) (self : ImportantLocals) (args : List Operand) (calleeDefId : DefId) :
    Except Fault (List Nat) :=
  if tcx.isClosure calleeDefId then
    if args.length = 2 then
      match tcx.numArgsInBody calleeDefId with
      | some n => .ok ((List.range n).map (· + 1))
      | none => .error .noBody
    else if args.length = 1 then .ok [1]
    else .error .closureArgs
  else .ok (self.importantArgs args)

def transition (tcx : TyCtxt) (self : ImportantLocals) (args : List Operand) (calleeDefId : DefId) :
    Except Fault ImportantLocals :=
  if tcx.isConstructor calleeDefId then .ok ⟨∅⟩
  else do
    let targets ← self.targets tcx args calleeDefId
    if tcx.isMirAvailable calleeDefId then
      .ok ⟨(tcx.dependentLocals calleeDefId targets).toFinset⟩
    else .ok ⟨targets.toFinset⟩

end ImportantLocals
end Scrutinizer
