import Scrutinizer.Library.Engine
import Scrutinizer.PartialFunctionInfo

/-! The collection: an analysis of the origin that descends into every callee it resolves. The
storages are shared by all the analyses of one collection. -/
namespace Scrutinizer

/- One analysis in progress. `inProgress` is a history variable: the functions whose analysis
has not ended, innermost first. The code keeps their virtual stack items only. -/
structure Collector where
  virtualStack : List VirtualStackItem
  inProgress : List PartialFunctionInfo
  currentFunction : PartialFunctionInfo
  substitutedBody : Body
  shallow : Bool

/- What the log of a collection says of its calls: a resolution that failed, the round of a
plausible function and whether it was skipped, a descent with the storages before it and its
result, and the end of a loop over plausible functions. -/
inductive Event where
  | unresolved (caller : Collector) (error : ResolveError)
  | round (caller : Collector) (callee : PartialFunctionInfo) (skipped : Bool)
  | descended (callee : Collector) (fns : FunctionInfoStorage) (closures : ClosureInfoStorage)
      (results : CollectorDomain)
  | processed (caller : Collector) (plausibleFns : List PartialFunctionInfo)
      (state : CollectorDomain) (fns : FunctionInfoStorage)

structure Session where
  fns : FunctionInfoStorage
  closures : ClosureInfoStorage
  log : List Event

namespace Session

def insert (info : FunctionInfo) (s : Session) : Session := {s with fns := s.fns.insert info}
def setClosures (closures : ClosureInfoStorage) (s : Session) : Session := {s with closures := closures}
def note (event : Event) (s : Session) : Session := {s with log := s.log ++ [event]}

end Session

namespace Collector

def defId (c : Collector) : DefId := c.currentFunction.inst.defId

/- The descent shares the stack of its caller; it has not pushed its own item yet. -/
def new (tcx : TyCtxt) (current : PartialFunctionInfo) (virtualStack : List VirtualStackItem)
    (inProgress : List PartialFunctionInfo) (shallow : Bool) : Option Collector :=
  (tcx.substitutedMir current.inst).map (fun body =>
    ⟨virtualStack, inProgress, current, body, shallow⟩)

def push (c : Collector) : Collector :=
  {c with virtualStack := c.virtualStack ++ [c.currentFunction.stackItem]
          inProgress := c.currentFunction :: c.inProgress}

def assignResult (tcx : TyCtxt) (c : Collector) (destination : Option Place)
    (returnTy : TrackedTy) (state : CollectorDomain) : Option CollectorDomain :=
  match destination with
  | some place =>
      (state.updateWith tcx c.substitutedBody c.defId (tcx.normalize c.defId place) returnTy).toOption
  | none => some state

def processIntrinsic (tcx : TyCtxt) (args : List Operand) (argTys : ArgTys)
    (state : CollectorDomain) (callee : PartialFunctionInfo) :
    Exec Session (CollectorDomain × TrackedTy) := do
  Exec.modify (Session.insert (.withoutBody callee.inst.defId argTys.argTys))
  let state := state.addCall (.withoutBody callee.inst.defId args)
  pure (state, .fromTy (tcx.instantiatedSig callee.inst.defId callee.inst.args).output)

def recordOf (inst : Instance) (body : Body) (results : CollectorDomain) : FunctionInfo :=
  .withBody inst results.places results.calls body body.span results.unhandled

def processWithBody (tcx : TyCtxt) (descend : Collector → Exec Session CollectorDomain)
    (c : Collector) (args : List Operand) (state : CollectorDomain) (callee : PartialFunctionInfo) :
    Exec Session (CollectorDomain × TrackedTy) := do
  let body ← Exec.lift (tcx.substitutedMir callee.inst)
  let collector ← Exec.lift (new tcx callee c.virtualStack c.inProgress c.shallow)
  let before ← Exec.get
  let results ← descend collector
  Exec.modify (Session.note (.descended collector before.fns before.closures results))
  Exec.modify (Session.insert (recordOf callee.inst body results))
  let state := state.addCall (.withBody callee.inst args)
  let returnTy ← Exec.lift (results.returnType tcx body callee.inst.defId)
  pure (state, returnTy)

def processInstance (tcx : TyCtxt) (descend : Collector → Exec Session CollectorDomain)
    (c : Collector) (args : List Operand) (argTys : ArgTys) (state : CollectorDomain)
    (callee : PartialFunctionInfo) : Exec Session (CollectorDomain × TrackedTy) :=
  match callee.inst.kind with
  | .intrinsic | .virtual => processIntrinsic tcx args argTys state callee
  | _ => processWithBody tcx descend c args state callee

def processCallee (tcx : TyCtxt) (descend : Collector → Exec Session CollectorDomain)
    (c : Collector) (args : List Operand) (argTys : ArgTys) (destination : Option Place)
    (state : CollectorDomain) (callee : PartialFunctionInfo) : Exec Session CollectorDomain := do
  let skipped := decide (callee.stackItem ∈ c.virtualStack)
  Exec.modify (Session.note (.round c callee skipped))
  if skipped then pure state
  else do
    let processed ← processInstance tcx descend c args argTys state callee
    Exec.lift (assignResult tcx c destination processed.2 processed.1)

def processOpaque (defId : DefId) (args : List Operand) (argTys : ArgTys)
    (state : CollectorDomain) : Exec Session CollectorDomain := do
  Exec.modify (Session.insert (.withoutBody defId argTys.argTys))
  pure (state.addCall (.withoutBody defId args))

def processCall (tcx : TyCtxt) (descend : Collector → Exec Session CollectorDomain)
    (c : Collector) (functionTy : Ty) (args : List Operand) (argTys : ArgTys)
    (state : CollectorDomain) (destination : Option Place) : Exec Session CollectorDomain :=
  match c.currentFunction.substitute functionTy with
  | .fnDef defId substs =>
      if !tcx.isLocal defId && c.shallow then pure state
      else do
        let session ← Exec.get
        let plausibleFns ← Exec.lift
          (c.currentFunction.resolve tcx session.closures defId substs argTys)
        match plausibleFns with
        | .ok (callee :: callees) => do
            let state ← (callee :: callees).foldlM
              (processCallee tcx descend c args argTys destination) state
            let after ← Exec.get
            Exec.modify (Session.note (.processed c (callee :: callees) state after.fns))
            pure state
        | .ok [] => processOpaque defId args argTys state
        | .error error => do
            Exec.modify (Session.note (.unresolved c error))
            processOpaque defId args argTys state
  | functionTy => pure (state.addUnhandled functionTy)

def applyStatementEffect (tcx : TyCtxt) (c : Collector) (state : CollectorDomain)
    (statement : Statement) : Exec Session CollectorDomain :=
  match statement with
  | .assign place rvalue => do
      let session ← Exec.get
      let (rvalueTy, closures) ← Exec.lift
        (rvalue.trackedTy tcx c.substitutedBody c.currentFunction.inst state session.closures)
      Exec.modify (Session.setClosures closures)
      Exec.lift (state.updateWith tcx c.substitutedBody c.defId (tcx.normalize c.defId place)
        rvalueTy).toOption
  | .other => pure state

def dropCallee (tcx : TyCtxt) (ty : Ty) : Option Ty :=
  match ty with
  | .adt did substs =>
      (tcx.adtDef did).destructor.map (fun destructor => (tcx.typeOf destructor).instantiate substs)
  | _ => none

def applyTerminatorEffect (tcx : TyCtxt) (descend : Collector → Exec Session CollectorDomain)
    (c : Collector) (state : CollectorDomain) (terminator : Terminator) :
    Exec Session CollectorDomain :=
  match terminator with
  | .call func args destination _ _ => do
      let functionTy ← Exec.lift (func.ty tcx c.substitutedBody).toOption
      let argTys ← Exec.lift (state.constructArgs tcx c.substitutedBody c.defId args)
      processCall tcx descend c functionTy args argTys state (some destination)
  | .drop place _ _ => do
      let placeTy ← Exec.lift (place.ty tcx c.substitutedBody).toOption
      match dropCallee tcx placeTy.ty with
      | some destructorFunctionTy =>
          processCall tcx descend c destructorFunctionTy [.copy place]
            ⟨[.fromTy (.ref placeTy.ty .mut)]⟩ state none
      | none => pure state
  | .other _ => pure state

def applyBlock (tcx : TyCtxt) (descend : Collector → Exec Session CollectorDomain) (c : Collector)
    (bb : Nat) (state : CollectorDomain) : Exec Session CollectorDomain := do
  let data ← Exec.lift c.substitutedBody.basicBlocks[bb]?
  let state ← data.statements.foldlM (applyStatementEffect tcx c) state
  applyTerminatorEffect tcx descend c state data.terminator

def analysis (tcx : TyCtxt) (descend : Collector → Exec Session CollectorDomain) (c : Collector) :
    Analysis Session CollectorDomain where
  apply := applyBlock tcx descend c
  edges bb := (c.substitutedBody.basicBlocks[bb]?.map (fun data => data.terminator.edges)).getD []
  join := CollectorDomain.join

def collectClosures (tcx : TyCtxt) (c : Collector) (closures : ClosureInfoStorage) :
    Option ClosureInfoStorage :=
  (tcx.visitedTys c.substitutedBody).foldlM
    (fun closures ty => ClosureInfoStorage.updateWith closures ty c.currentFunction.inst []) closures

def declaredPlace (tcx : TyCtxt) (c : Collector) (place : Place) : Option (Place × TrackedTy) := do
  let place := tcx.normalize c.defId place
  let placeTy ← (place.ty tcx c.substitutedBody).toOption
  some (place, .fromTy placeTy.ty)

def initialPlaces (tcx : TyCtxt) (c : Collector) : Option PlaceMap := do
  let declared ← (tcx.allPlaces c.defId c.substitutedBody).mapM (declaredPlace tcx c)
  let places := HashMap.fromIter declared
  let places ← match c.currentFunction with
    | .closure _ _ info =>
        (CollectorDomain.augmentClosureWithUpvars tcx c.substitutedBody c.defId places info).toOption
    | .function _ _ => some places
  (CollectorDomain.augmentWithArgs tcx c.substitutedBody c.defId places
    c.currentFunction.trackedArgs).toOption

/- rustc asks for the bottom value more than once; the later times change nothing. -/
def bottomValue (tcx : TyCtxt) (c : Collector) : Exec Session CollectorDomain := do
  let session ← Exec.get
  let closures ← Exec.lift (collectClosures tcx c session.closures)
  Exec.modify (Session.setClosures closures)
  let places ← Exec.lift (initialPlaces tcx c)
  pure (.new places)

/- The part of `run` after the look-up: the fixpoint of the body and the join of its ends. -/
def analyzeBody (tcx : TyCtxt) (descend : Collector → Exec Session CollectorDomain) (fuel : Nat)
    (c : Collector) : Exec Session CollectorDomain := do
  let bottom ← bottomValue tcx c
  (analysis tcx descend c).run fuel bottom c.substitutedBody.basicBlocks.length
    (tcx.reversePostorder c.substitutedBody)

/- The fuel bounds the depth of the descents and the length of each fixpoint iteration. -/
def run (tcx : TyCtxt) : Nat → Collector → Exec Session CollectorDomain
  | 0, _ => Exec.fail
  | fuel + 1, c => do
      let c := c.push
      let session ← Exec.get
      match session.fns.getWithBody c.currentFunction.inst with
      | some functionInfo => Exec.lift (CollectorDomain.fromRegularFnInfo functionInfo)
      | none => analyzeBody tcx (run tcx fuel) fuel c

def originArgs (body : Body) : Option ArgTys :=
  ((List.range body.argCount).mapM (fun i => body.localDecls[i + 1]?)).map (fun tys =>
    ⟨tys.map TrackedTy.fromTy⟩)

def collect (tcx : TyCtxt) (fuel : Nat) (inst : Instance) (shallow : Bool) : Exec Session Unit := do
  let body ← Exec.lift (tcx.substitutedMir inst)
  let argTys ← Exec.lift (originArgs body)
  let collector ← Exec.lift (new tcx (.function inst argTys) [] [] shallow)
  let results ← run tcx fuel collector
  Exec.modify (Session.insert (recordOf inst body results))

def startSession (inst : Instance) : Session := ⟨.new inst, .empty, []⟩

def collected (tcx : TyCtxt) (fuel : Nat) (inst : Instance) (shallow : Bool) : Option Session :=
  match collect tcx fuel inst shallow (startSession inst) with
  | (some (), session) => some session
  | (none, _) => none

end Collector
end Scrutinizer
