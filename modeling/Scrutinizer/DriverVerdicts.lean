import Scrutinizer.CollectionOrder
import Scrutinizer.Configuration
import Scrutinizer.Driver

/-! What the exit code of the driver reflects: a function is verified where it passes the precheck and
no leak can be reached from its record; the code is zero exactly when the functions annotated pure
are the verified ones. -/
namespace Scrutinizer

namespace Verdict
variable {tcx : TyCtxt} {cfg : Setup}

theorem childrenMore {recurse recurse' : FunctionInfo → ImportantLocals → Report → Except Fault (Bool × Report)}
    (more : ∀ callee passed report result, recurse callee passed report = .ok result →
      recurse' callee passed report = .ok result) {locals : ImportantLocals} {calls : List FunctionCall} :
    ∀ {acc out : List Bool × Report}, calls.foldlM (analyzeChild tcx cfg recurse locals) acc = .ok out →
      calls.foldlM (analyzeChild tcx cfg recurse' locals) acc = .ok out := by
  induction calls with
  | nil => exact fun ran => ran
  | cons call rest ih =>
    intro acc out ran
    rw [List.foldlM_cons] at ran ⊢
    obtain ⟨next, first, later⟩ := bindOk ran
    obtain ⟨passed, moved, further⟩ := bindOk first
    have same : analyzeChild tcx cfg recurse' locals acc call = .ok next := by
      simp only [analyzeChild, moved, bind, Except.bind]
      split at further
      · contradiction
      · rename_i callee found
        obtain ⟨result, analysed, last⟩ := bindOk further
        simp only [more _ _ _ _ analysed]
        exact last
    rw [same]
    exact ih later

theorem walkMore (fuel : Nat) : ∀ fuel' ≥ fuel, ∀ item locals report result,
    analyzeItem tcx cfg fuel item locals report = .ok result →
      analyzeItem tcx cfg fuel' item locals report = .ok result := by
  induction fuel with
  | zero => exact fun _ _ _ _ _ _ ran => by cases ran
  | succ fuel ih =>
    intro fuel' le item locals report result ran
    obtain ⟨fuel', rfl⟩ := Nat.exists_eq_add_of_le' (Nat.le_of_add_left_le le)
    have deeper := ih fuel' (by omega)
    simp only [analyzeItem] at ran ⊢
    obtain ⟨deps, known, ran⟩ := bindOk ran
    simp only [known, bind, Except.bind]
    split
    · rename_i exempt
      rwa [if_pos exempt] at ran
    · rename_i live
      rw [if_neg live] at ran
      obtain ⟨raw, hr, ran⟩ := bindOk ran
      obtain ⟨transmute, ht, ran⟩ := bindOk ran
      obtain ⟨outcome, children, last⟩ := bindOk ran
      have same : analyzeChildren tcx cfg (analyzeItem tcx cfg fuel') item locals (report.addDeps deps) =
          .ok outcome := by
        unfold analyzeChildren at children ⊢
        split
        · rename_i none_
          rwa [none_] at children
        · rename_i calls some_
          simp only [some_] at children
          obtain ⟨results, looped, last⟩ := bindOk children
          simp only [childrenMore deeper looped, bind, Except.bind]
          exact last
      simp only [hr, ht, same]
      exact last

theorem okMeets (resolves : ∀ f ∈ cfg.storage.fns, cfg.storage.Resolves f)
    (wellFounded : WellFounded cfg.storage.FirstCall) {item : FunctionInfo}
    (start : cfg.storage.Resolves item) {fuel : Nat} {locals : ImportantLocals} {report : Report}
    {result : Bool × Report} (ran : analyzeItem tcx cfg fuel item locals report = .ok result) :
    Meets tcx cfg ⟨item, locals⟩ (.ok result) := by
  obtain ⟨enough, meets⟩ := walkEnds tcx resolves wellFounded start
  have more := walkMore fuel (max fuel enough) (le_max_left _ _) _ _ _ _ ran
  have met := meets (max fuel enough) (le_max_right _ _) locals report
  rwa [more] at met

theorem okDecides (resolves : ∀ f ∈ cfg.storage.fns, cfg.storage.Resolves f)
    (wellFounded : WellFounded cfg.storage.FirstCall) {item : FunctionInfo}
    (start : cfg.storage.Resolves item) {fuel : Nat} {locals : ImportantLocals} {report : Report}
    {result : Bool × Report} (ran : analyzeItem tcx cfg fuel item locals report = .ok result) :
    result.1 = false ↔ Leaks tcx cfg ⟨item, locals⟩ :=
  (okMeets resolves wellFounded start ran).2

end Verdict

namespace Compilation
variable {comp : Compilation} {args args' : Config} {inst : Instance}

def Verified (comp : Compilation) (args : Config) (inst : Instance) : Prop :=
  precheck comp.tcx inst = some (.ok ()) ∧ ∃ session item importantArgs,
    Collector.collected comp.tcx comp.collectFuel inst args.shallow = some session ∧
    session.fns.getWithBody inst = some item ∧ comp.importantArgs args inst = some importantArgs ∧
    ¬ Verdict.Leaks comp.tcx
      (comp.setup (args.allowlist.getD []) (args.trustedStdlib.getD []) session)
      ⟨item, ImportantLocals.fromImportantArgs comp.tcx importantArgs inst.defId⟩

theorem regexesOk {patterns : Option (List String)} {list : List String}
    (ok : comp.regexes patterns = .ok list) : list = patterns.getD [] := by
  unfold regexes at ok
  split at ok
  · exact (Except.ok.inj ok).symm
  · contradiction

theorem mapErrorOk {ε δ α : Type} {result : Except ε α} {value : α} {f : ε → δ}
    (ok : result.mapError f = .ok value) : result = .ok value := by
  cases result with
  | error e => contradiction
  | ok v => cases ok; rfl

theorem precheckReason {tcx : TyCtxt} {reason : String}
    (rejected : precheck tcx inst = some (.error reason)) :
    reason = "erased args detected" ∨ reason = "mutable arguments detected" := by
  obtain ⟨_, _, rejected⟩ := Option.bind_eq_some_iff.mp rejected
  obtain ⟨_, _, rejected⟩ := Option.bind_eq_some_iff.mp rejected
  dsimp only at rejected
  split at rejected
  · exact .inl (Except.error.inj (Option.some.inj rejected)).symm
  · split at rejected
    · exact .inr (Except.error.inj (Option.some.inj rejected)).symm
    · cases Option.some.inj rejected

structure Reflects (comp : Compilation) (args : Config) (inst : Instance) (annotatedPure : Bool)
    (result : PurityAnalysisResult) : Prop where
  defId : result.defId = inst.defId
  annotated : result.annotatedPure = annotatedPure
  status : result.status = true ↔ comp.Verified args inst
  reason : result.reason = "" ↔ result.status = true

theorem walkReflects {annotatedPure : Bool} {session : Session} {importantArgs : List Nat}
    {result : PurityAnalysisResult} (passes : precheck comp.tcx inst = some (.ok ()))
    (collected : Collector.collected comp.tcx comp.collectFuel inst args.shallow = some session)
    (important : comp.importantArgs args inst = some importantArgs)
    (ran : runAnalysis comp.tcx (comp.setup (args.allowlist.getD []) (args.trustedStdlib.getD []) session)
      comp.walkFuel session.closures
      (ImportantLocals.fromImportantArgs comp.tcx importantArgs inst.defId) annotatedPure = .ok result) :
    comp.Reflects args inst annotatedPure result := by
  obtain ⟨ordered, origin, _⟩ := Collector.collectedOrdered collected
  unfold runAnalysis at ran
  split at ran
  · contradiction
  · rename_i item found
    obtain ⟨outcome, walked, last⟩ := bindOk ran
    cases Except.ok.inj last
    have first : session.fns.getWithBody inst = some item := origin ▸ found
    have mem : item ∈ session.fns.fns := List.mem_of_find?_eq_some first
    have decides := Verdict.okDecides (fun f listed => ordered.resolves listed) ordered.wellFounded
      (ordered.resolves mem) walked
    refine ⟨congrArg Instance.defId origin, rfl, ?_, ?_⟩
    · constructor
      · intro positive
        refine ⟨passes, session, item, importantArgs, collected, first, important, ?_⟩
        rw [← decides]
        simpa using positive
      · intro verified
        obtain ⟨_, session', item', importantArgs', collected', first', important', safe⟩ := verified
        cases Option.some.inj (collected.symm.trans collected')
        cases Option.some.inj (first.symm.trans first')
        cases Option.some.inj (important.symm.trans important')
        rw [← decides] at safe
        simpa using safe
    · cases outcome.1 <;> simp

theorem instanceReflects {annotatedPure : Bool} {result : PurityAnalysisResult}
    (ran : comp.analyzeInstance args inst annotatedPure = .ok result) :
    comp.Reflects args inst annotatedPure result := by
  unfold analyzeInstance at ran
  split at ran
  · contradiction
  · -- the precheck rejects the function
    rename_i reason rejected
    cases Except.ok.inj ran
    refine ⟨rfl, rfl, ?_, ?_⟩
    · refine ⟨fun positive => Bool.noConfusion positive, fun verified => ?_⟩
      cases Option.some.inj (rejected.symm.trans verified.1)
    · have given : reason ≠ "" := by rcases precheckReason rejected with rfl | rfl <;> decide
      exact ⟨fun empty => absurd empty given, fun positive => Bool.noConfusion positive⟩
  · rename_i passes
    split at ran
    · contradiction
    · rename_i session collected
      split at ran
      · contradiction
      · rename_i importantArgs important
        obtain ⟨allowlist, known, ran⟩ := bindOk ran
        obtain ⟨trusted, known', ran⟩ := bindOk ran
        rw [regexesOk known, regexesOk known'] at ran
        exact walkReflects passes collected important (mapErrorOk ran)

theorem resultsReflect {results : List PurityAnalysisResult} {code : Int}
    (ran : comp.afterAnalysis args = .ok (results, code)) : ∃ instances all,
      comp.select args = .ok instances ∧
      List.Forall₂ (fun selected result => comp.Reflects args selected.1 selected.2 result)
        (instances.filter (fun selected => comp.isTarget args selected.1)) all ∧
      results = (if args.onlyInconsistent then all.filter PurityAnalysisResult.isInconsistent else all) ∧
      code = if (all.filter PurityAnalysisResult.isInconsistent).isEmpty then 0 else -1 := by
  obtain ⟨written, scrutinized, last⟩ := bindOk ran
  obtain ⟨instances, selected, further⟩ := bindOk scrutinized
  obtain ⟨all, each, kept⟩ := bindOk further
  cases Except.ok.inj last
  have reflects := (MapM.okIff.mp each).imp (fun _ _ analysed => instanceReflects analysed)
  refine ⟨instances, all, selected, reflects, (Except.ok.inj kept).symm, ?_⟩
  rw [← Except.ok.inj kept, List.isEmpty_map]
  split
  · rw [List.filter_filter]
    simp
  · rfl

theorem inconsistentIff {annotatedPure : Bool} {result : PurityAnalysisResult}
    (reflects : comp.Reflects args inst annotatedPure result) :
    result.isInconsistent = false ↔ (annotatedPure = true ↔ comp.Verified args inst) := by
  rw [← reflects.status, ← reflects.annotated]
  unfold PurityAnalysisResult.isInconsistent
  cases result.annotatedPure <;> cases result.status <;> simp

theorem exitAgrees {results : List PurityAnalysisResult} {code : Int}
    (ran : comp.afterAnalysis args = .ok (results, code)) : ∃ instances, comp.select args = .ok instances ∧
      (code = 0 ↔ ∀ inst annotatedPure, (inst, annotatedPure) ∈ instances →
        comp.isTarget args inst = true → (annotatedPure = true ↔ comp.Verified args inst)) := by
  obtain ⟨instances, all, selected, reflects, _, code_⟩ := resultsReflect ran
  have consistent : (all.filter PurityAnalysisResult.isInconsistent).isEmpty = true ↔
      ∀ inst annotatedPure, (inst, annotatedPure) ∈ instances → comp.isTarget args inst = true →
        (annotatedPure = true ↔ comp.Verified args inst) := by
    rw [List.isEmpty_iff, List.filter_eq_nil_iff]
    constructor
    · intro none_ inst annotatedPure mem target
      obtain ⟨result, listed, said⟩ := MapM.memLeft reflects (inst, annotatedPure)
        (List.mem_filter.mpr ⟨mem, target⟩)
      exact (inconsistentIff said).mp (by simpa using none_ result listed)
    · intro agree result listed
      obtain ⟨⟨inst, annotatedPure⟩, mem, said⟩ := MapM.memRight reflects result listed
      obtain ⟨mem, target⟩ := List.mem_filter.mp mem
      simp [(inconsistentIff said).mpr (agree inst annotatedPure mem target)]
  refine ⟨instances, selected, ?_⟩
  rw [← consistent, code_]
  split <;> simp_all

/- The code does not depend on whether the consistent results are written out. -/
theorem exitZeroIff {results : List PurityAnalysisResult} {code : Int}
    (ran : comp.afterAnalysis args = .ok (results, code)) : ∃ instances,
      comp.select args = .ok instances ∧ (code = 0 ∨ code = -1) ∧
      (code = 0 ↔ ∀ inst annotatedPure, (inst, annotatedPure) ∈ instances →
        comp.isTarget args inst = true → (annotatedPure = true ↔ comp.Verified args inst)) := by
  obtain ⟨instances, selected, exact_⟩ := exitAgrees ran
  obtain ⟨_, _, _, _, _, code_⟩ := resultsReflect ran
  refine ⟨instances, selected, ?_, exact_⟩
  rw [code_]
  split <;> simp

noncomputable def annotatedCrate : TyCtxt := {TyCtxt.plain (.listed [] List.nodup_nil) with
  loadBodyAndFacts := fun did =>
    if did = 0 then some ⟨1, [Ty.unit, Ty.usize], [.calling 2 [.copy (.fromLocal 1)] 1, .returning], [], 0⟩
    else if did = 1 then some ⟨1, [Ty.unit, Ty.usize], [.returning], [], 0⟩ else none
  fnSig := fun _ => ⟨[.usize], .unit⟩}

noncomputable def annotatedCompilation : Compilation where
  tcx := annotatedCrate
  hir := ⟨[⟨0, true, [], []⟩, ⟨1, true, [some "pure"], []⟩], [0, 1], fun _ => none, fun _ => ⟨0, [], [], [], 0⟩⟩
  isRegex _ := true
  callOrder _ := .listed [.withoutBody 2 [.copy (.fromLocal 1)]] (List.nodup_singleton _)
  collectFuel := 8
  walkFuel := 8
  visitFuel := 8

theorem annotatedEnds : (annotatedCompilation.afterAnalysis {mode := "function"}).toOption.isSome = true := by
  decide +kernel

theorem annotatedExit : ∃ results code instances,
    annotatedCompilation.afterAnalysis {mode := "function"} = .ok (results, code) ∧
    annotatedCompilation.select {mode := "function"} = .ok instances ∧ (code = 0 ∨ code = -1) ∧
    (code = 0 ↔ ∀ inst annotatedPure, (inst, annotatedPure) ∈ instances →
      annotatedCompilation.isTarget {mode := "function"} inst = true →
        (annotatedPure = true ↔ annotatedCompilation.Verified {mode := "function"} inst)) := by
  obtain ⟨⟨results, code⟩, ran⟩ := Option.isSome_iff_exists.mp annotatedEnds
  have ok := Exec.toOptionSome.mp ran
  obtain ⟨instances, selected, codes, exact_⟩ := exitZeroIff ok
  exact ⟨results, code, instances, ok, selected, codes, exact_⟩

structure Relaxes (comp : Compilation) (args args' : Config) : Prop where
  mode : args'.mode = args.mode
  shallow : args'.shallow = args.shallow
  targets : ∀ inst, comp.isTarget args' inst = true → comp.isTarget args inst = true
  important : ∀ inst fewer more, comp.importantArgs args' inst = some fewer →
    comp.importantArgs args inst = some more → fewer ⊆ more
  allowlist : args.allowlist.getD [] ⊆ args'.allowlist.getD []
  trusted : args.trustedStdlib.getD [] ⊆ args'.trustedStdlib.getD []

theorem Relaxes.ofNamed {fewer more : List Nat} {allowlist allowlist' : Option (List String)}
    (sub : fewer ⊆ more) (longer : allowlist.getD [] ⊆ allowlist'.getD []) :
    comp.Relaxes {args with importantArgs := some more, allowlist := allowlist}
      {args with importantArgs := some fewer, allowlist := allowlist'} where
  mode := rfl
  shallow := rfl
  targets _ target := target
  important inst fewer' more' known known' := by
    cases Option.some.inj known
    cases Option.some.inj known'
    exact sub
  allowlist := longer
  trusted := List.Subset.refl _

theorem Relaxes.verified (grow : ImportantLocals.DependentsGrow comp.tcx) (relaxes : comp.Relaxes args args')
    (verified : comp.Verified args inst) : comp.Verified args' inst := by
  obtain ⟨passes, session, item, importantArgs, collected, found, important, safe⟩ := verified
  have loaded : ∃ fewer, comp.importantArgs args' inst = some fewer := by
    unfold Compilation.importantArgs
    split
    · exact ⟨_, rfl⟩
    · obtain ⟨body, known, _⟩ := Option.bind_eq_some_iff.mp passes
      exact ⟨_, by rw [known]; rfl⟩
  obtain ⟨fewer, important'⟩ := loaded
  refine ⟨passes, session, item, fewer, relaxes.shallow ▸ collected, found, important', ?_⟩
  intro leaks
  apply safe
  have wider : Verdict.Relaxed
      (comp.setup (args.allowlist.getD []) (args.trustedStdlib.getD []) session)
      (comp.setup (args'.allowlist.getD []) (args'.trustedStdlib.getD []) session) :=
    ⟨rfl, rfl, relaxes.allowlist, relaxes.trusted⟩
  have covers : Verdict.Covers ⟨item, ImportantLocals.fromImportantArgs comp.tcx fewer inst.defId⟩
      ⟨item, ImportantLocals.fromImportantArgs comp.tcx importantArgs inst.defId⟩ := by
    refine ⟨rfl, ?_⟩
    intro x mem
    have sub := grow inst.defId _ _ (relaxes.important inst fewer importantArgs important' important)
    exact List.mem_toFinset.mpr (sub (List.mem_toFinset.mp mem))
  exact wider.reaches grow (fun m m' covers found =>
    ⟨fun exempt => found.1 (wider.exempt covers exempt), wider.bad covers found.2⟩) covers leaks

theorem relaxedPasses (grow : ImportantLocals.DependentsGrow comp.tcx) (relaxes : comp.Relaxes args args') :
    (∀ inst, comp.Verified args inst → comp.Verified args' inst) ∧
    (args.mode = "ppr" → ∀ results results' code', comp.afterAnalysis args = .ok (results, 0) →
      comp.afterAnalysis args' = .ok (results', code') → code' = 0) := by
  refine ⟨fun inst => relaxes.verified grow, ?_⟩
  intro ppr results results' code' ran ran'
  obtain ⟨instances, selected, exact_⟩ := exitAgrees ran
  obtain ⟨instances', selected', exact'⟩ := exitAgrees ran'
  have regions : ∀ {args : Config} {instances}, args.mode = "ppr" → comp.select args = .ok instances →
      selectPprs comp.tcx comp.hir = some instances := by
    intro args instances ppr selected
    rw [select, ppr, if_neg (by decide), if_pos rfl] at selected
    split at selected
    · rename_i found
      exact Except.ok.inj selected ▸ found
    · contradiction
  have found := regions ppr selected
  cases Option.some.inj (found.symm.trans (regions (relaxes.mode.trans ppr) selected'))
  rw [exact']
  intro inst annotatedPure mem target
  have annotated := pprsAnnotated found mem
  have verified := (exact_.mp rfl inst annotatedPure mem (relaxes.targets inst target)).mp annotated
  exact ⟨fun _ => relaxes.verified grow verified, fun _ => annotated⟩

def regionTy : Ty := .closure 1 [Ty.unit, .fnPtr [.tuple [Ty.usize]] Ty.unit, .tuple []]

noncomputable def regionCrate : TyCtxt := {TyCtxt.plain (.listed [] List.nodup_nil) with
  isClosure := fun did => decide (did = 1)
  loadBodyAndFacts := fun did =>
    if did = 1 then
      some ⟨2, [Ty.unit, regionTy, Ty.usize], [.calling 2 [.copy (.fromLocal 2)] 1, .returning], [], 0⟩
    else none
  fnSig := fun _ => ⟨[.usize], .unit⟩
  defPathStr := fun did => if did = 9 then pprConstructor else if did = 2 then "log" else ""
  isMatch := fun re path => decide (re = path)}

noncomputable def regionCompilation : Compilation where
  tcx := regionCrate
  hir := ⟨[⟨0, true, [], []⟩], [0], fun _ => none,
    fun _ => ⟨0, [Ty.unit, regionTy], [.calling 9 [.copy (.fromLocal 1)] 1, .returning], [], 0⟩⟩
  isRegex _ := true
  callOrder _ := .listed [.withoutBody 2 [.copy (.fromLocal 2)]] (List.nodup_singleton _)
  collectFuel := 8
  walkFuel := 8
  visitFuel := 8

def strict : Config := {mode := "ppr", importantArgs := some [1, 2], allowlist := some ["log"]}

def relaxed : Config := {mode := "ppr", importantArgs := some [2], allowlist := some ["log", "fmt"]}

def region : Instance := ⟨.item, 1, [Ty.unit, .fnPtr [.tuple [Ty.usize]] Ty.unit, .tuple []]⟩

theorem regionPasses : (regionCompilation.afterAnalysis strict).toOption.map Prod.snd = some 0 := by
  decide +kernel

theorem regionReturns : (regionCompilation.afterAnalysis relaxed).toOption.isSome = true := by
  decide +kernel

theorem regionPure :
    (regionCompilation.analyzeInstance strict region true).toOption.map PurityAnalysisResult.status = some true := by
  decide +kernel

theorem regionRelaxed : ∃ results results',
    regionCompilation.select strict = .ok [(region, true)] ∧
    regionCompilation.afterAnalysis strict = .ok (results, 0) ∧
    regionCompilation.afterAnalysis relaxed = .ok (results', 0) ∧
    regionCompilation.Verified relaxed region := by
  have selected : (regionCompilation.select strict).toOption = some [(region, true)] := by decide +kernel
  obtain ⟨⟨results, code⟩, ran, rfl⟩ := Option.map_eq_some_iff.mp regionPasses
  obtain ⟨⟨results', code'⟩, ran'⟩ := Option.isSome_iff_exists.mp regionReturns
  obtain ⟨result, analysed, status⟩ := Option.map_eq_some_iff.mp regionPure
  have verified := (instanceReflects (Exec.toOptionSome.mp analysed)).status.mp status
  have relaxes : regionCompilation.Relaxes strict relaxed :=
    @Relaxes.ofNamed regionCompilation {mode := "ppr"} [2] [1, 2] (some ["log"]) (some ["log", "fmt"])
      (by decide) (by decide)
  obtain ⟨each, build⟩ := relaxedPasses (fun _ _ _ sub => sub) relaxes
  cases build rfl _ _ _ (Exec.toOptionSome.mp ran) (Exec.toOptionSome.mp ran')
  exact ⟨results, results', Exec.toOptionSome.mp selected, Exec.toOptionSome.mp ran,
    Exec.toOptionSome.mp ran', each region verified⟩

end Compilation
end Scrutinizer
