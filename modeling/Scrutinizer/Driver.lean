import Scrutinizer.Analyzer
import Scrutinizer.Precheck
import Scrutinizer.Selector

/-! The driver: it selects functions, analyses each of them, and fails the build if a verdict does
not agree with the annotation. -/
namespace Scrutinizer

/- The configuration file. The mode has a default, which is none of the modes that are known. -/
structure Config where
  mode : String := "functions"
  onlyInconsistent : Bool := false
  outputFile : String := "analysis.result.json"
  shallow : Bool := false
  targetFilter : Option String := none
  importantArgs : Option (List Nat) := none
  allowlist : Option (List String) := none
  trustedStdlib : Option (List String) := none

/- How the driver stops without a result. A collection has none where it panics or does not end. -/
inductive DriverFault where
  | undefinedMode
  | selection
  | noBody
  | collection
  | regex
  | analysis (fault : Fault)
  deriving DecidableEq, Repr

structure Compilation where
  tcx : TyCtxt
  hir : Hir
  isRegex : String → Bool
  callOrder : FunctionInfo → HashOrder FunctionCall
  collectFuel : Nat
  walkFuel : Nat
  visitFuel : Nat

namespace Compilation
variable (comp : Compilation) (args : Config)

def importantArgs (inst : Instance) : Option (List Nat) :=
  match args.importantArgs with
  | some importantArgs => some importantArgs
  | none => (comp.tcx.substitutedMir inst).map (fun body => (List.range body.argCount).map (· + 1))

/- `Regex::new(re).unwrap()` for each of the strings. -/
def regexes (patterns : Option (List String)) : Except DriverFault (List String) :=
  if (patterns.getD []).all comp.isRegex then .ok (patterns.getD []) else .error .regex

def setup (allowlist trustedStdlib : List String) (session : Session) : Setup :=
  ⟨session.fns, allowlist, trustedStdlib, comp.callOrder, comp.visitFuel⟩

def analyzeInstance (inst : Instance) (annotatedPure : Bool) : Except DriverFault PurityAnalysisResult :=
  match precheck comp.tcx inst with
  | none => .error .noBody
  | some (.error reason) => .ok (.error inst.defId reason annotatedPure)
  | some (.ok ()) =>
    match Collector.collected comp.tcx comp.collectFuel inst args.shallow with
    | none => .error .collection
    | some session =>
      match comp.importantArgs args inst with
      | none => .error .noBody
      | some importantArgs => do
          let importantLocals := ImportantLocals.fromImportantArgs comp.tcx importantArgs inst.defId
          let allowlist ← comp.regexes args.allowlist
          let trustedStdlib ← comp.regexes args.trustedStdlib
          (runAnalysis comp.tcx (comp.setup allowlist trustedStdlib session) comp.walkFuel session.closures
            importantLocals annotatedPure).mapError .analysis

def select : Except DriverFault (List (Instance × Bool)) :=
  if args.mode = "function" then .ok (selectFunctions comp.hir)
  else if args.mode = "ppr" then
    match selectPprs comp.tcx comp.hir with
    | some instances => .ok instances
    | none => .error .selection
  else .error .undefinedMode

/- `str::contains` on the path of the function. -/
def isTarget (inst : Instance) : Bool :=
  match args.targetFilter with
  | none => true
  | some filter => decide (filter.toList <:+: (comp.tcx.defPathStr inst.defId).toList)

/- A panic in one of the analyses ends them all. -/
def scrutinizer : Except DriverFault (List PurityAnalysisResult) := do
  let instances ← comp.select args
  let results ← (instances.filter (fun selected => comp.isTarget args selected.1)).mapM
    (fun selected => comp.analyzeInstance args selected.1 selected.2)
  .ok (if args.onlyInconsistent then results.filter PurityAnalysisResult.isInconsistent else results)

def afterAnalysis : Except DriverFault (List PurityAnalysisResult × Int) := do
  let results ← comp.scrutinizer args
  let inconsistent := (results.filter PurityAnalysisResult.isInconsistent).map PurityAnalysisResult.defId
  .ok (results, if inconsistent.isEmpty then 0 else -1)

end Compilation
end Scrutinizer
