import Scrutinizer.Heuristics
import Scrutinizer.Important

/-! The verdict: a walk over the recorded calls, starting at the origin. -/
namespace Scrutinizer

structure FunctionWithMetadata where
  function : FunctionInfo
  importantLocals : ImportantLocals
  rawPointerDeref : Bool
  allowlisted : Bool
  hasTransmute : Bool

structure Report where
  passing : List FunctionWithMetadata
  failing : List FunctionWithMetadata
  deps : Finset String

structure Setup where
  storage : FunctionInfoStorage
  allowlist : List String
  trustedStdlib : List String
  callOrder : FunctionInfo → HashOrder FunctionCall
  visitFuel : Nat

namespace Setup
variable (tcx : TyCtxt) (cfg : Setup)

def matchesAny (patterns : List String) (defId : DefId) : Bool :=
  patterns.any (fun lib => tcx.isMatch lib (tcx.defPathStr defId))

def selfTy (body : Body) : Option Ty := do
  let info ← body.varDebugInfo.find? (fun info => info.name = "self")
  let place ← info.place
  let placeTy ← (place.ty tcx body).toOption
  some placeTy.ty

def hasImmutSelfRef (item : FunctionInfo) : Bool :=
  match (item.inst.bind tcx.substitutedMir).bind (selfTy tcx) with
  | some ty => decide (ty.refMutability = some .not)
  | none => false

def isTrusted (item : FunctionInfo) : Bool :=
  matchesAny tcx cfg.trustedStdlib item.defId && !hasImmutSelfRef tcx item

def isAllowlisted (item : FunctionInfo) : Bool := matchesAny tcx cfg.allowlist item.defId

def exempt (item : FunctionInfo) (locals : ImportantLocals) : Bool :=
  locals.isEmpty || cfg.isAllowlisted tcx item || cfg.isTrusted tcx item

def hasUnhandledCalls : FunctionInfo → Bool
  | .withBody _ _ _ _ _ unhandled => decide (unhandled ≠ ∅)
  | .withoutBody _ _ => false

def rawPointerDeref : FunctionInfo → Except Fault Bool
  | .withBody _ _ _ body _ _ => match body.hasRawPtrDeref tcx with
      | some flag => .ok flag
      | none => .error .check
  | .withoutBody _ _ => .ok false

def transmute : FunctionInfo → Except Fault Bool
  | .withBody _ _ _ body _ _ => match body.hasTransmute tcx cfg.visitFuel with
      | some flag => .ok flag
      | none => .error .check
  | .withoutBody _ _ => .ok false

def itemDeps (item : FunctionInfo) : Except Fault (Finset String) :=
  match item.inst with
  | none => .ok ∅
  | some inst => match tcx.substitutedMir inst with
      | some body => .ok (computeDepsForBody tcx body)
      | none => .error .noBody

end Setup

namespace Report

def empty : Report := ⟨[], [], ∅⟩
def addDeps (deps : Finset String) (r : Report) : Report := {r with deps := r.deps ∪ deps}
def pass (entry : FunctionWithMetadata) (r : Report) : Report := {r with passing := r.passing ++ [entry]}
def fail (entry : FunctionWithMetadata) (r : Report) : Report := {r with failing := r.failing ++ [entry]}

end Report

def analyzeChild (tcx : TyCtxt) (cfg : Setup)
    (recurse : FunctionInfo → ImportantLocals → Report → Except Fault (Bool × Report))
    (locals : ImportantLocals) (acc : List Bool × Report) (call : FunctionCall) :
    Except Fault (List Bool × Report) := do
  let newLocals ← locals.transition tcx call.args call.defId
  match cfg.storage.getByCall call with
  | none => .error .unresolved
  | some callee =>
      let result ← recurse callee newLocals acc.2
      .ok (acc.1 ++ [result.1], result.2)

/- All children are visited, also after one that fails. -/
def analyzeChildren (tcx : TyCtxt) (cfg : Setup)
    (recurse : FunctionInfo → ImportantLocals → Report → Except Fault (Bool × Report))
    (item : FunctionInfo) (locals : ImportantLocals) (report : Report) :
    Except Fault (Bool × Report) :=
  match item.calls with
  | none => .ok (false, report)
  | some calls => do
      let results ← ((cfg.callOrder item).iter calls).foldlM (analyzeChild tcx cfg recurse locals) ([], report)
      .ok (results.1.all id, results.2)

def analyzeItem (tcx : TyCtxt) (cfg : Setup) :
    Nat → FunctionInfo → ImportantLocals → Report → Except Fault (Bool × Report)
  | 0, _, _, _ => .error .depth
  | fuel + 1, item, locals, report => do
      let deps ← Setup.itemDeps tcx item
      let report := report.addDeps deps
      let allowlisted := cfg.isAllowlisted tcx item
      if cfg.exempt tcx item locals then
        .ok (true, report.pass ⟨item, locals, false, allowlisted, false⟩)
      else do
        let rawPointerDeref ← Setup.rawPointerDeref tcx item
        let hasTransmute ← cfg.transmute tcx item
        let (noLeakingCalls, report) ←
          analyzeChildren tcx cfg (analyzeItem tcx cfg fuel) item locals report
        let entry : FunctionWithMetadata := ⟨item, locals, rawPointerDeref, allowlisted, hasTransmute⟩
        if !Setup.hasUnhandledCalls item && !rawPointerDeref && !hasTransmute && noLeakingCalls then
          .ok (true, report.pass entry)
        else .ok (false, report.fail entry)

structure PurityAnalysisResult where
  defId : DefId
  annotatedPure : Bool
  status : Bool
  reason : String
  passing : List FunctionWithMetadata
  failing : List FunctionWithMetadata
  closures : ClosureInfoStorage
  deps : Finset String

namespace PurityAnalysisResult

def error (defId : DefId) (reason : String) (annotatedPure : Bool) : PurityAnalysisResult :=
  ⟨defId, annotatedPure, false, reason, [], [], .empty, ∅⟩

def isInconsistent (r : PurityAnalysisResult) : Bool := r.annotatedPure != r.status

end PurityAnalysisResult

def runAnalysis (tcx : TyCtxt) (cfg : Setup) (fuel : Nat) (closures : ClosureInfoStorage)
    (importantLocals : ImportantLocals) (annotatedPure : Bool) : Except Fault PurityAnalysisResult :=
  match cfg.storage.getWithBody cfg.storage.origin with
  | none => .error .noOrigin
  | some origin => do
      let (pure, report) ← analyzeItem tcx cfg fuel origin importantLocals .empty
      let reason := if pure then "" else "unable to ascertain purity of inner function call"
      .ok ⟨cfg.storage.origin.defId, annotatedPure, pure, reason, report.passing, report.failing,
        closures, report.deps⟩

end Scrutinizer
