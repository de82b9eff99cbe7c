import Scrutinizer.BodyRule
import Scrutinizer.Closures
import Scrutinizer.RecordOrigins
import Scrutinizer.Visits

/-! Where the calls of a record come from, and the crates that the report names. A recorded call
comes from a terminator of the body of the record, by way of rustc's resolution; the crates are
those that the call terminators name before any resolution. -/
namespace Scrutinizer

/- What rustc may make of a call of a definition: the function that it resolves to, an implementation for
some types of the method where that has no body, and what a closure among these stands for. -/
inductive ResolvesTo (tcx : TyCtxt) (did : DefId) (substs : List Ty) : DefId → Prop where
  | itself : ResolvesTo tcx did substs did
  | function {inst} (found : tcx.resolve did substs = some inst)
      (available : tcx.isMirAvailable inst.defId = true) : ResolvesTo tcx did substs inst.defId
  | implementation {method tys inst} (isMethod : method = ((tcx.resolve did substs).map Instance.defId).getD did)
      (bodiless : tcx.isMirAvailable method = false) (length : tys.length = substs.length)
      (found : tcx.resolve method tys = some inst) : ResolvesTo tcx did substs inst.defId
  | closure {closure args inst} (first : ResolvesTo tcx did substs closure) (isClosure : tcx.isClosure closure = true)
      (found : tcx.resolve closure args = some inst) : ResolvesTo tcx did substs inst.defId

namespace PartialFunctionInfo

theorem plausibleResolves {tcx : TyCtxt} {did : DefId} {argTys : ArgTys} {substs : List Ty} {inst : Instance}
    (h : inst ∈ findPlausibleInstances tcx did argTys substs) :
    ∃ tys, tys.length = substs.length ∧ tcx.resolve did tys = some inst := by
  obtain ⟨tys, picked, found⟩ := List.mem_filterMap.mp h
  have length := (memProduct.mp picked).2.length_eq
  rw [List.length_map, List.length_range] at length
  exact ⟨tys, length, found⟩

theorem resolveTo {tcx : TyCtxt} {self : PartialFunctionInfo} {closures : ClosureInfoStorage}
    {history : List Registration} {did : DefId} {substs : List Ty} {argTys : ArgTys}
    {fns : List PartialFunctionInfo} (replayed : Registration.replay history = some closures)
    (resolved : self.resolve tcx closures did substs argTys = some (.ok fns)) :
    ∀ callee ∈ fns, ResolvesTo tcx did substs callee.inst.defId := by
  intro callee mem
  simp only [resolve, bind, Option.bind_eq_some_iff] at resolved
  obtain ⟨fnDatas, each, finished⟩ := resolved
  obtain ⟨fnData, listed, done⟩ := finishAllMem finished callee mem
  obtain ⟨candidate, made, origin⟩ := candidatesFrom each _ listed
  have first : ResolvesTo tcx did substs candidate.defId := by
    rcases origin with ⟨found, available⟩ | ⟨bodiless, suggested⟩
    · exact .function found available
    · obtain ⟨tys, length, found⟩ := plausibleResolves suggested
      exact .implementation rfl bodiless length found
  cases finishCases made done with
  | inl closure =>
    obtain ⟨isClosure, info, merged, found, entry, extracted, same⟩ := closure
    cases Except.ok.inj same
    obtain ⟨args, ty⟩ := Registration.registered replayed entry
    rw [ClosureInfo.extractInstance, ty] at extracted
    exact .closure first isClosure extracted
  | inr function =>
    obtain ⟨_, provided, _, same⟩ := function
    cases Except.ok.inj same
    exact first

end PartialFunctionInfo

def TerminatorLeads (tcx : TyCtxt) (inst : Instance) (body : Body) (terminator : Terminator)
    (target : DefId) : Prop :=
  ∃ functionTy did substs, Collector.TakesFunction tcx body terminator functionTy ∧
    inst.substMir functionTy = .fnDef did substs ∧ ResolvesTo tcx did substs target

def Leads (tcx : TyCtxt) (inst : Instance) (body : Body) (target : DefId) : Prop :=
  ∃ data ∈ body.basicBlocks, TerminatorLeads tcx inst body data.terminator target

def Sourced (tcx : TyCtxt) (inst : Instance) (calls : Finset FunctionCall) : Prop :=
  ∃ body, tcx.substitutedMir inst = some body ∧ ∀ call ∈ calls, Leads tcx inst body call.defId

namespace Collector
open Registration

structure RecordsSourced (tcx : TyCtxt) (s : Session) : Prop where
  closures : ∃ history, replay history = some s.closures
  records : ∀ f ∈ s.fns.fns, ∀ inst calls, f.inst = some inst → f.calls = some calls →
    Sourced tcx inst calls

section
variable {tcx : TyCtxt} {c : Collector} {s t : Session}

theorem sourcedRule (tcx : TyCtxt) (fuel : Nat) (c : Collector) : BodyRule tcx (run tcx fuel) c
    (fun s => ∃ history, replay history = some s.closures)
    (fun state => ∀ call ∈ state.calls, Leads tcx c.currentFunction.inst c.substitutedBody call.defId) where
  rvalue s state rvalue ty closures good known := by
    obtain ⟨history, replayed⟩ := good
    obtain ⟨more, after⟩ := rvalueReplays replayed known
    exact ⟨history ++ more, after⟩
  note _ _ good := good
  insert _ _ good := good
  descend _ collector s good _ := Exec.wpMono
    (wpRunCollector (replayInvariant tcx) fuel collector s trivial good)
    (fun _ _ kept => kept.1) (fun _ _ => trivial)
  assign _ _ _ _ held ok := (CollectorDomain.updateWithCalls ok).1 ▸ held
  called state held data mem functionTy defId substs takes function call recorded added inside := by
    cases Finset.mem_insert.mp inside with
    | inr old => exact held added old
    | inl new =>
      subst new
      refine ⟨data, mem, functionTy, defId, substs, takes, function, ?_⟩
      cases recorded with
      | inl itself => exact itself ▸ .itself
      | inr suggested =>
        obtain ⟨s, argTys, fns, ⟨history, replayed⟩, resolved, callee, listed, same⟩ := suggested
        exact same ▸ PartialFunctionInfo.resolveTo replayed resolved callee listed
  unhandled _ _ held := held
  join state other joined changed left right ok call mem := by
    rw [(CollectorDomain.joinCalls ok).1] at mem
    exact (Finset.mem_union.mp mem).elim (left call) (right call)

theorem runSourced {fuel : Nat} {results : CollectorDomain} (good : RecordsSourced tcx s)
    (hasBody : tcx.substitutedMir c.currentFunction.inst = some c.substitutedBody)
    (ran : run tcx fuel c s = (some results, t)) :
    Sourced tcx c.currentFunction.inst results.calls := by
  cases fuel with
  | zero => cases ran
  | succ fuel =>
    simp only [run, bind, Exec.get] at ran
    have same : c.push.currentFunction = c.currentFunction := rfl
    rw [same] at ran
    cases known : s.fns.getWithBody c.currentFunction.inst with
    | some info =>
      simp only [known, Exec.lift] at ran
      have mem : info ∈ s.fns.fns := List.mem_of_find?_eq_some known
      have key := List.find?_some known
      cases info with
      | withBody inst places calls body span unhandled =>
        have here : c.currentFunction.inst = inst := of_decide_eq_true key
        cases Option.some.inj (Prod.mk.inj ran).1
        exact good.records _ mem _ calls (congrArg some here.symm) rfl
      | withoutBody did args => cases key
    | none =>
      simp only [known] at ran
      have result := Exec.wpResult ((sourcedRule tcx fuel c.push).wpAnalyzeBody good.closures
        (fun s closures good known => by
          obtain ⟨history, replayed⟩ := good
          obtain ⟨more, after⟩ := collectClosuresReplays replayed known
          exact ⟨history ++ more, after⟩)
        (fun places call mem => absurd mem (Finset.notMem_empty call)) fuel) ran
      exact ⟨c.substitutedBody, hasBody, result.2⟩

theorem RecordsSourced.insert {info : FunctionInfo} (good : RecordsSourced tcx s)
    (own : ∀ inst calls, info.inst = some inst → info.calls = some calls → Sourced tcx inst calls) :
    RecordsSourced tcx (s.insert info) := by
  refine ⟨good.closures, fun f mem inst calls hasInst hasCalls => ?_⟩
  have cases_ : f ∈ s.fns.fns ∨ f = info := by
    rcases s.fns.insertCases info with ⟨same, _⟩ | ⟨same, _⟩
    · left
      simpa [Session.insert, same] using mem
    · simpa [Session.insert, same, or_comm] using mem
  cases cases_ with
  | inl old => exact good.records f old inst calls hasInst hasCalls
  | inr new => exact own inst calls (new ▸ hasInst) (new ▸ hasCalls)

theorem sourcedInvariant (tcx : TyCtxt) : Invariant tcx
    (fun c => tcx.substitutedMir c.currentFunction.inst = some c.substitutedBody)
    (RecordsSourced tcx) (fun _ _ => True) where
  fitEmpty _ := trivial
  fitMono _ _ _ _ _ := trivial
  fitUnion _ _ _ _ _ := trivial
  fitInsert _ _ _ _ _ := trivial
  fitCached _ _ _ _ _ _ := trivial
  enter c callee collector _ _ made := by
    obtain ⟨body, loaded, rfl⟩ := Option.map_eq_some_iff.mp made
    exact loaded
  closures c s closures _ good known := by
    obtain ⟨history, replayed⟩ := good.closures
    obtain ⟨more, after⟩ := collectClosuresReplays replayed known
    exact ⟨⟨history ++ more, after⟩, good.records⟩
  rvalue c s state rvalue ty closures _ good known := by
    obtain ⟨history, replayed⟩ := good.closures
    obtain ⟨more, after⟩ := rvalueReplays replayed known
    exact ⟨⟨history ++ more, after⟩, good.records⟩
  unresolved _ _ _ _ good := ⟨good.closures, good.records⟩
  round _ _ _ _ good := ⟨good.closures, good.records⟩
  withoutBody s did args good := good.insert (fun _ _ none_ => by cases none_)
  descended c callee collector body before s results fuel _ start good _ made ran _ := by
    obtain ⟨own, loaded, rfl⟩ := Option.map_eq_some_iff.mp made
    have sourced := runSourced start loaded ran
    have noted : RecordsSourced tcx (s.note (.descended ⟨c.virtualStack, c.inProgress, callee, own,
      c.shallow⟩ before.fns before.closures results)) := ⟨good.closures, good.records⟩
    apply noted.insert
    intro inst calls hasInst hasCalls
    cases Option.some.inj hasInst
    cases Option.some.inj hasCalls
    exact sourced
  processed _ _ _ _ _ _ good _ := ⟨good.closures, good.records⟩

theorem collectedSourced {fuel : Nat} {inst : Instance} {shallow : Bool} {session : Session}
    (ok : collected tcx fuel inst shallow = some session) : RecordsSourced tcx session := by
  have start : RecordsSourced tcx (startSession inst) := by
    refine ⟨⟨[], rfl⟩, ?_⟩
    intro f mem
    cases mem
  unfold collected at ok
  split at ok
  · rename_i session' ran
    cases Option.some.inj ok
    have result : Exec.wp (collect tcx fuel inst shallow) (fun _ t => RecordsSourced tcx t)
        (fun _ => True) (startSession inst) := by
      simp only [collect, Exec.wpBind, Exec.wpLift, Exec.wpModify, new, implies_true, and_true]
      intro body _ argTys _ collector made
      obtain ⟨own, loaded, rfl⟩ := Option.map_eq_some_iff.mp made
      have kept := wpRunCollector (sourcedInvariant tcx) fuel
        ⟨[], [], .function inst argTys, own, shallow⟩ (startSession inst) loaded start
      unfold Exec.wp at kept ⊢
      split
      · rename_i results t ran
        rw [ran] at kept
        apply kept.1.insert
        intro inst' calls hasInst hasCalls
        cases Option.some.inj hasInst
        cases Option.some.inj hasCalls
        exact runSourced start loaded ran
      · trivial
    have kept := Exec.wpResult result ran
    exact kept
  · cases ok

end
end Collector

namespace Verdict

def NamesCrate (tcx : TyCtxt) (terminator : Terminator) (crate : String) : Prop :=
  ∃ callee, terminator.callee = some callee ∧ tcx.crateName callee.1 = crate

def StaysNamed (tcx : TyCtxt) (item : FunctionInfo) : Prop :=
  ∀ inst body, item.inst = some inst → tcx.substitutedMir inst = some body →
    ∀ data ∈ body.basicBlocks, ∀ target, TerminatorLeads tcx inst body data.terminator target →
      NamesCrate tcx data.terminator (tcx.crateName target)

/- Of a crate that is neither named nor the function's own are neither the destructors that the body
runs nor what its calls are resolved to. -/
def StaysNear (tcx : TyCtxt) (item : FunctionInfo) : Prop :=
  ∀ inst body, item.inst = some inst → tcx.substitutedMir inst = some body →
    ∀ data ∈ body.basicBlocks, ∀ target, TerminatorLeads tcx inst body data.terminator target →
      NamesCrate tcx data.terminator (tcx.crateName target) ∨
        tcx.crateName target = tcx.crateName inst.defId

def NamesOwn (tcx : TyCtxt) (item : FunctionInfo) : Prop :=
  ∀ inst body, item.inst = some inst → tcx.substitutedMir inst = some body →
    ∃ data ∈ body.basicBlocks, NamesCrate tcx data.terminator (tcx.crateName inst.defId)

section
variable {tcx : TyCtxt} {cfg : Setup}

theorem keyDefId {f : FunctionInfo} {call : FunctionCall} (h : f.key = call.key) :
    f.defId = call.defId := by
  cases f <;> cases call <;> cases h <;> rfl

theorem atStep {item callee : FunctionInfo} {locals passed : ImportantLocals} {call : FunctionCall}
    {calls : Finset FunctionCall} (live : cfg.exempt tcx item locals = false)
    (hc : item.calls = some calls) (mem : call ∈ calls) (found : cfg.storage.getByCall call = some callee)
    (ok : locals.transition tcx call.args call.defId = .ok passed) :
    At tcx cfg ⟨item, locals⟩ [call] ⟨callee, passed⟩ :=
  ⟨Bool.eq_false_iff.mp live, calls, ⟨callee, passed⟩, hc, mem, ⟨found, ok⟩, rfl⟩

theorem atLast {path : List FunctionCall} : ∀ {n m : Node}, At tcx cfg n path m → path ≠ [] →
    ∃ before last, before.length < path.length ∧ At tcx cfg n before last ∧ Step tcx cfg last m := by
  induction path with
  | nil => intro n m _ nonempty; contradiction
  | cons call rest ih =>
    intro n m reached _
    obtain ⟨live, calls, child, hc, mem, passes, below⟩ := reached
    cases rest with
    | nil =>
      cases below
      exact ⟨[], n, Nat.one_pos, rfl, live, calls, hc, call, mem, passes⟩
    | cons next rest =>
      obtain ⟨before, last, shorter, further, step⟩ := ih below (List.cons_ne_nil next rest)
      exact ⟨call :: before, last, Nat.succ_lt_succ shorter,
        ⟨live, calls, child, hc, mem, passes, further⟩, step⟩

theorem atRecorded {path : List FunctionCall} {n m : Node} (start : n.item ∈ cfg.storage.fns)
    (reached : At tcx cfg n path m) : m.item ∈ cfg.storage.fns := by
  cases path with
  | nil =>
    cases reached
    exact start
  | cons call rest =>
    obtain ⟨_, _, _, _, _, calls, _, call, _, found, _⟩ := atLast reached (List.cons_ne_nil call rest)
    exact (FunctionInfoStorage.getByCallSpec found).1

theorem namesListed {item : FunctionInfo} {inst : Instance} {body : Body} {data : BasicBlockData}
    {crate : String} (hasInst : item.inst = some inst) (loaded : tcx.substitutedMir inst = some body)
    (listed : data ∈ body.basicBlocks) (names : NamesCrate tcx data.terminator crate) :
    Names tcx item crate := by
  obtain ⟨callee, constant, same⟩ := names
  refine ⟨inst, body, hasInst, loaded, ?_⟩
  rw [computeDepsForBody, List.mem_toFinset, List.mem_filterMap]
  exact ⟨data, listed, by rw [constant, Option.map_some, same]⟩

theorem instDefId {item : FunctionInfo} {inst : Instance} (hasInst : item.inst = some inst) :
    item.defId = inst.defId := by
  cases item with
  | withBody => cases Option.some.inj hasInst; rfl
  | withoutBody => cases hasInst

theorem stepLeads {n m : Node} (sourced : ∀ f ∈ cfg.storage.fns, ∀ inst calls, f.inst = some inst →
      f.calls = some calls → Sourced tcx inst calls) (recorded : n.item ∈ cfg.storage.fns)
    (step : Step tcx cfg n m) : ∃ inst body, n.item.inst = some inst ∧
      tcx.substitutedMir inst = some body ∧ Leads tcx inst body m.item.defId := by
  obtain ⟨_, calls, hc, call, mem, found, _⟩ := step
  have same := keyDefId (FunctionInfoStorage.getByCallSpec found).2.1
  cases known : n.item with
  | withoutBody did args =>
    rw [known] at hc
    cases hc
  | withBody inst places calls' body span unhandled =>
    have hasInst : n.item.inst = some inst := by rw [known]; rfl
    obtain ⟨loaded, has, leads⟩ := sourced n.item recorded inst calls hasInst hc
    exact ⟨inst, loaded, rfl, has, same ▸ leads call mem⟩

theorem depsComplete {fuel depth : Nat} {inst : Instance} {shallow : Bool} {session : Session}
    {item : FunctionInfo} {closures : ClosureInfoStorage} {locals : ImportantLocals}
    {annotatedPure : Bool} {result : PurityAnalysisResult}
    (ends : Collector.collected tcx fuel inst shallow = some session)
    (storage : cfg.storage = session.fns)
    (origin : cfg.storage.getWithBody cfg.storage.origin = some item)
    (ran : runAnalysis tcx cfg depth closures locals annotatedPure = .ok result)
    (near : ∀ path n, At tcx cfg ⟨item, locals⟩ path n → ¬ Exempt tcx cfg n → StaysNear tcx n.item)
    (home : StaysNamed tcx item ∨ NamesOwn tcx item) :
    ∀ path m, path ≠ [] → At tcx cfg ⟨item, locals⟩ path m →
      tcx.crateName m.item.defId ∈ result.deps := by
  have start : item ∈ cfg.storage.fns := List.mem_of_find?_eq_some origin
  have report := @reported tcx cfg depth ⟨item, locals⟩ _ _ (runOutcome origin ran)
  have sourced := storage ▸ (Collector.collectedSourced ends).records
  intro path
  -- By the length of the path: the crate of the caller is reported already, if it is not the origin.
  induction h : path.length using Nat.strong_induction_on generalizing path with
  | _ length ih =>
    intro m below reached
    obtain ⟨before, last, shorter, visited, step⟩ := atLast reached below
    obtain ⟨inst', body, hasInst, loaded, data, listed, leads⟩ :=
      stepLeads sourced (atRecorded start visited) step
    have named : NamesCrate tcx data.terminator (tcx.crateName m.item.defId) →
        tcx.crateName m.item.defId ∈ result.deps := fun names =>
      (report.deps _).mpr ⟨before, last, visited, namesListed hasInst loaded listed names⟩
    cases near before last visited step.1 inst' body hasInst loaded data listed _ leads with
    | inl names => exact named names
    | inr own =>
      cases before with
      | cons call rest =>
        have reported := ih _ (h ▸ shorter) _ rfl last (List.cons_ne_nil call rest) visited
        rwa [own, ← instDefId hasInst]
      | nil =>
        cases visited
        cases home with
        | inl stays => exact named (stays inst' body hasInst loaded data listed _ leads)
        | inr names =>
          obtain ⟨other, listed', names⟩ := names inst' body hasInst loaded
          rw [own]
          exact (report.deps _).mpr ⟨[], _, rfl, namesListed hasInst loaded listed' names⟩

end

def leaverBody : Body :=
  ⟨1, [Ty.unit, .adt 5 []], [⟨[], .drop (.fromLocal 1) 1 none⟩, .calling 1 [] 2, .returning], [], 0⟩

noncomputable def leaverCrate (apart : Bool) : TyCtxt :=
  {TyCtxt.plain (.listed [] List.nodup_nil) with
    adtDef := fun _ => ⟨[[]], some 7, false, false, false⟩
    loadBodyAndFacts := fun did =>
      if did = 0 then some leaverBody
      else if did = 7 then some ⟨1, [Ty.unit, .ref (.adt 5 []) .mut], [.returning], [], 0⟩ else none
    fnSig := fun did => if did = 7 then ⟨[.ref 0 (.adt 5 []) .mut], .unit⟩ else ⟨[], .unit⟩
    allPlaces := fun _ body => body.localDecls.zipIdx.flatMap (fun decl =>
      .fromLocal decl.2 :: if decl.1.isRef then [⟨decl.2, [.deref]⟩] else [])
    crateName := fun did => if did = 7 && apart then "other" else "app"}

def destructorCall : FunctionCall := .withBody ⟨.item, 7, []⟩ [.copy (.fromLocal 1)]

theorem leaverEnds : ∀ apart, (Collector.collected (leaverCrate apart) 8 (.mk .item 0 []) false).isSome =
    true := by
  decide +kernel

noncomputable def leaverStorage (apart : Bool) : FunctionInfoStorage :=
  ((Collector.collected (leaverCrate apart) 8 (.mk .item 0 []) false).get (leaverEnds apart)).fns

noncomputable def leaverSetup (apart : Bool) : Setup :=
  ⟨leaverStorage apart, [], [], fun _ => .listed [destructorCall, .withoutBody 1 []] (by decide), 3⟩

noncomputable def leaverRun (apart : Bool) : Except Fault PurityAnalysisResult :=
  runAnalysis (leaverCrate apart) (leaverSetup apart) 4 .empty ⟨{1}⟩ true

theorem leaverRecords : ∀ apart,
    ((leaverSetup apart).storage.getWithBody (leaverSetup apart).storage.origin).isSome = true ∧
    ((leaverSetup apart).storage.getByCall destructorCall).isSome = true ∧
    (leaverRun apart).toOption.isSome = true := by
  decide +kernel

noncomputable def leaverItem (apart : Bool) : FunctionInfo :=
  ((leaverSetup apart).storage.getWithBody (leaverSetup apart).storage.origin).get (leaverRecords apart).1

noncomputable def destructorItem (apart : Bool) : FunctionInfo :=
  ((leaverSetup apart).storage.getByCall destructorCall).get (leaverRecords apart).2.1

noncomputable def leaverResult (apart : Bool) : PurityAnalysisResult :=
  (leaverRun apart).toOption.get (leaverRecords apart).2.2

theorem leaverRan (apart : Bool) : leaverRun apart = .ok (leaverResult apart) :=
  Exec.toOptionSome.mp (Option.some_get (leaverRecords apart).2.2).symm

theorem destructorVisited (apart : Bool) : At (leaverCrate apart) (leaverSetup apart)
    ⟨leaverItem apart, ⟨{1}⟩⟩ [destructorCall] ⟨destructorItem apart, ⟨{1}⟩⟩ := by
  have checks : ∀ apart,
      (leaverSetup apart).exempt (leaverCrate apart) (leaverItem apart) ⟨{1}⟩ = false ∧
      (leaverItem apart).calls.map (fun calls => decide (destructorCall ∈ calls)) = some true ∧
      ((⟨{1}⟩ : ImportantLocals).transition (leaverCrate apart) destructorCall.args
        destructorCall.defId).toOption = some ⟨{1}⟩ := by
    decide +kernel
  obtain ⟨live, listed, passed⟩ := checks apart
  obtain ⟨calls, hc, mem⟩ := Option.map_eq_some_iff.mp listed
  have found : (leaverSetup apart).storage.getByCall destructorCall = some (destructorItem apart) :=
    (Option.some_get (leaverRecords apart).2.1).symm
  exact atStep live hc (of_decide_eq_true mem) found (Exec.toOptionSome.mp passed)

theorem leaverNamesOwn : NamesOwn (leaverCrate false) (leaverItem false) := by
  have itself : (leaverItem false).inst = some ⟨.item, 0, []⟩ := by decide +kernel
  have own : (leaverCrate false).substitutedMir ⟨.item, 0, []⟩ = some leaverBody := rfl
  intro inst body hasInst loaded
  cases Option.some.inj (itself.symm.trans hasInst)
  cases Option.some.inj (own.symm.trans loaded)
  exact ⟨.calling 1 [] 2, by simp [leaverBody], (1, []), rfl, rfl⟩

theorem destructorCrateMissed : ∃ session,
    Collector.collected (leaverCrate true) 8 (.mk .item 0 []) false = some session ∧
    (leaverSetup true).storage = session.fns ∧ ∃ item result path m,
      (leaverSetup true).storage.getWithBody (leaverSetup true).storage.origin = some item ∧
      runAnalysis (leaverCrate true) (leaverSetup true) 4 .empty ⟨{1}⟩ true = .ok result ∧
      path ≠ [] ∧ At (leaverCrate true) (leaverSetup true) ⟨item, ⟨{1}⟩⟩ path m ∧
      (leaverCrate true).crateName m.item.defId ∉ result.deps := by
  have outside : (leaverCrate true).crateName (destructorItem true).defId ∉ (leaverResult true).deps := by
    decide +kernel
  exact ⟨_, (Option.some_get (leaverEnds true)).symm, rfl, leaverItem true, leaverResult true,
    [destructorCall], ⟨destructorItem true, ⟨{1}⟩⟩, (Option.some_get (leaverRecords true).1).symm,
    leaverRan true, List.cons_ne_nil _ _, destructorVisited true, outside⟩

theorem destructorCrateNamed : "app" ∈ (leaverResult false).deps := by
  have origin : (leaverSetup false).storage.getWithBody (leaverSetup false).storage.origin = some (leaverItem false) :=
    (Option.some_get (leaverRecords false).1).symm
  have near : ∀ path n, At (leaverCrate false) (leaverSetup false) ⟨leaverItem false, ⟨{1}⟩⟩ path n →
      ¬ Exempt (leaverCrate false) (leaverSetup false) n → StaysNear (leaverCrate false) n.item :=
    fun _ _ _ _ _ _ _ _ _ _ _ _ => .inr (by simp [leaverCrate])
  exact depsComplete (Option.some_get (leaverEnds false)).symm rfl origin (leaverRan false) near
    (.inr leaverNamesOwn) [destructorCall] _ (List.cons_ne_nil _ _) (destructorVisited false)

end Verdict
end Scrutinizer
