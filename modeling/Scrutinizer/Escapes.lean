import Scrutinizer.Invocations

/-! What leaves the code that the analysis can see: the call of a function that has neither a body nor
generic parameters, or of one behind a pointer. If the function is found pure, no chain of calls that it
runs gets there, except below a function that a check exempts; a build that exits with code zero says so
of the functions that are annotated. -/
namespace Scrutinizer

namespace Collector
open PartialFunctionInfo
variable {tcx : TyCtxt} {descend : Collector → Exec Session CollectorDomain} {c : Collector} {args : List Operand}
  {argTys : ArgTys} {destination : Option Place} {s t : Session} {state state' : CollectorDomain} {functionTy : Ty}

theorem foreignResolved {did : DefId} {self : PartialFunctionInfo} {closures : ClosureInfoStorage}
    (bodiless : BodilessMethod tcx did []) : self.resolve tcx closures did [] argTys = some (.ok []) := by
  have unsuggested : findPlausibleInstances tcx did argTys [] = [] := rfl
  rw [resolve, bodilessCandidates bodiless, unsuggested]
  rfl

theorem foreignRecorded {did : DefId} (called : c.currentFunction.substitute functionTy = .fnDef did [])
    (deep : c.shallow = false) (bodiless : BodilessMethod tcx did [])
    (ran : processCall tcx descend c functionTy args argTys state destination s = (some state', t)) :
    .withoutBody did args ∈ state'.calls := by
  obtain ⟨resolved, found, outcome⟩ := Exec.wpResult (wpProcessCallCalls called (.inr deep) args argTys destination) ran
  cases Option.some.inj (found.symm.trans (foreignResolved bodiless))
  rcases outcome with ⟨_, _, some, _⟩ | ⟨_, calls⟩
  · cases some
  · exact calls ▸ Finset.mem_insert_self _ _

theorem pointerRecorded (pointer : ∀ did substs, c.currentFunction.substitute functionTy ≠ .fnDef did substs)
    (ran : processCall tcx descend c functionTy args argTys state destination s = (some state', t)) :
    c.currentFunction.substitute functionTy ∈ state'.unhandled := by
  have added : Exec.wp (processCall tcx descend c functionTy args argTys state destination)
      (fun out _ => c.currentFunction.substitute functionTy ∈ out.unhandled) (fun _ => True) s := by
    unfold processCall
    split
    · rename_i did substs function
      exact absurd function (pointer did substs)
    · exact Finset.mem_insert_self _ _
  have result := Exec.wpResult added ran
  exact result

end Collector

namespace Borrows
open Collector (BodilessMethod Lossless)
variable {tcx : TyCtxt}

inductive Frame.Escapes (frame : Frame tcx) : Option DefId → Prop where
  | foreign {final : Machine} {did : DefId} {args : List Operand}
      (comes : frame.ComesTo final (.fnDef did []) args) (bodiless : BodilessMethod tcx did []) :
      frame.Escapes (some did)
  | pointer {final : Machine} {functionTy : Ty} {args : List Operand} (comes : frame.ComesTo final functionTy args)
      (pointer : ∀ did substs, functionTy ≠ .fnDef did substs) : frame.Escapes none

theorem escapeRecorded {session : Session} {frame : Frame tcx} {f : FunctionInfo} {target : Option DefId}
    (traced : Traced tcx session frame f) (escapes : frame.Escapes target) :
    (∃ did args calls, target = some did ∧ f.calls = some calls ∧ .withoutBody did args ∈ calls) ∨
      Setup.hasUnhandledCalls f = true := by
  cases escapes with
  | foreign comes bodiless =>
    obtain ⟨_, argTys, _, _, processed⟩ := traced.processed comes
    obtain ⟨stack, inProgress, args, declaredTy, state, destination, k, t, out, u, results, called, ran, _, made,
      kept⟩ := processed
    exact .inl ⟨_, _, results.calls, rfl, Collector.recordedCalls made,
      kept.calls (Collector.foreignRecorded called rfl bodiless ran)⟩
  | pointer comes pointer =>
    obtain ⟨_, argTys, _, _, processed⟩ := traced.processed comes
    obtain ⟨stack, inProgress, args, declaredTy, state, destination, k, t, out, u, results, called, ran, _, made,
      kept⟩ := processed
    have unhandled := kept.unhandled (Collector.pointerRecorded (called ▸ pointer) ran)
    refine .inr ?_
    cases f with
    | withBody =>
      cases Option.some.inj made
      exact decide_eq_true (Finset.ne_empty_of_mem unhandled)
    | withoutBody => cases made

def EndsExempt (tcx : TyCtxt) (cfg : Setup) (target : Option DefId) (node : Verdict.Node) : Prop :=
  ∃ did next, target = some did ∧ Verdict.Step tcx cfg node next ∧ next.item.key = .withoutBody did ∧
    Verdict.Exempt tcx cfg next

theorem escapeExempt {session : Session} {cfg : Setup} (storage : cfg.storage = session.fns)
    (ordered : FunctionInfoStorage.Ordered session.fns.fns) {frame : Frame tcx} {node : Verdict.Node}
    {target : Option DefId} (escapes : frame.Escapes target) (traced : Traced tcx session frame node.item)
    (leakFree : LeakFree tcx cfg node) (live : ¬ Verdict.Exempt tcx cfg node) : EndsExempt tcx cfg target node := by
  rcases escapeRecorded traced escapes with ⟨did, args, calls, rfl, has, mem⟩ | unhandled
  · have listed : node.item ∈ session.fns.fns := List.mem_of_find?_eq_some traced.found
    obtain ⟨record, there⟩ := ordered.resolves listed calls has _ mem
    obtain ⟨locals', step⟩ := walkFollows live (fun stuck => leakFree.unstuck (Reach.here stuck))
      (storage ▸ (⟨calls, _, has, mem, there⟩ : RecordedCall session.fns node.item record))
    have key : record.key = .withoutBody did := (FunctionInfoStorage.getByCallSpec there).2.1
    refine ⟨did, ⟨record, locals'⟩, rfl, step, key, ?_⟩
    -- its record has no calls, so it would leak
    by_contra bare
    have none_ : record.calls = none := by
      cases record with
      | withBody => cases key
      | withoutBody => rfl
    exact (leakFree.step step).dry (Reach.here ⟨bare, .inl none_⟩)
  · exact absurd (Reach.here ⟨live, .inr (.inl unhandled)⟩) leakFree.dry

theorem lastExempt {session : Session} {cfg : Setup} (storage : cfg.storage = session.fns)
    (ordered : FunctionInfoStorage.Ordered session.fns.fns) {frames : List (Frame tcx)} {last : Frame tcx}
    (isLast : frames.getLast? = some last) {target : Option DefId} (escapes : last.Escapes target) :
    ∀ (frame : Frame tcx) (node : Verdict.Node), frames.getLast? = some frame → Traced tcx session frame node.item →
      LeakFree tcx cfg node → ¬ Verdict.Exempt tcx cfg node → EndsExempt tcx cfg target node := by
  intro frame node here traced leakFree live
  cases Option.some.inj (isLast.symm.trans here)
  exact escapeExempt storage ordered escapes traced leakFree live

theorem implementationEscapes : implementation.Escapes (some 9) := by
  have bodiless : BodilessMethod passingCrate 9 [] := by
    refine ⟨rfl, ?_, rfl⟩
    intro inst h
    cases Option.some.inj h
    rfl
  have path : Analysis.Path implementedBody.successors
      (Collector.BlockStep implementedBody (Runs implementedBody) Leaves) 0 implementation.start 1
      implementation.start :=
    Analysis.Path.here.further ⟨_, implementation.start, rfl, ⟨trivial, rfl⟩, rfl⟩ (by decide)
  have comes : implementation.ComesTo implementation.start (.fnDef 9 []) [.constant (known 2)] :=
    ⟨_, _, _, _, _, ⟨1, implementation.start, _, path, rfl, ⟨trivial, rfl⟩, rfl⟩, rfl, rfl⟩
  exact .foreign comes bodiless

end Borrows

namespace Compilation
open Borrows Collector
variable {comp : Compilation} {args : Config} {inst : Instance}

theorem verifiedRan {annotatedPure : Bool} {result : PurityAnalysisResult}
    (analysed : comp.analyzeInstance args inst annotatedPure = .ok result) (verified : comp.Verified args inst) :
    ∃ session importantArgs, collected comp.tcx comp.collectFuel inst args.shallow = some session ∧
      comp.importantArgs args inst = some importantArgs ∧ result.status = true ∧
      runAnalysis comp.tcx (comp.setup (args.allowlist.getD []) (args.trustedStdlib.getD []) session) comp.walkFuel
        session.closures (ImportantLocals.fromImportantArgs comp.tcx importantArgs inst.defId) annotatedPure =
          .ok result := by
  have positive := (instanceReflects analysed).status.mpr verified
  obtain ⟨passes, session, _, importantArgs, collected, _, important, _⟩ := verified
  simp only [analyzeInstance, passes, collected, important] at analysed
  obtain ⟨allowlist, known, analysed⟩ := bindOk analysed
  obtain ⟨trusted, known', analysed⟩ := bindOk analysed
  rw [regexesOk known, regexesOk known'] at analysed
  exact ⟨session, importantArgs, collected, important, positive, mapErrorOk analysed⟩

noncomputable def passingCompilation : Compilation where
  tcx := passingCrate
  hir := ⟨[⟨0, true, [some "pure"], []⟩], [0], fun _ => none, fun _ => ⟨0, [], [], [], 0⟩⟩
  isRegex _ := true
  callOrder := passingSetup.callOrder
  collectFuel := 16
  walkFuel := 8
  visitFuel := 3

def passingConfig : Config := {mode := "function", importantArgs := some [3]}

theorem passingBuilds : (passingCompilation.afterAnalysis passingConfig).toOption.map Prod.snd = some 0 := by
  decide +kernel

end Compilation
end Scrutinizer
