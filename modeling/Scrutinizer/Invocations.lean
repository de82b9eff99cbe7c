import Scrutinizer.CachedContexts
import Scrutinizer.CollectionOrder
import Scrutinizer.Dispatch
import Scrutinizer.DriverVerdicts

/-! Functions that call each other while they run. Each frame goes its own way to a call, and what is
called may be picked by the types of the arguments. Where the log of the collection shows no step
that loses a call, a chain of frames, also of functions that call themselves, is one of records. -/
namespace Scrutinizer

namespace Collector
section
variable {tcx : TyCtxt} {c : Collector} {fuel : Nat} {args : List Operand} {argTys : ArgTys}
  {destination : Option Place} {s t : Session} {state state' : CollectorDomain} {callee : PartialFunctionInfo}

def Reported (log : List Event) (c : Collector) (callee : PartialFunctionInfo) : Prop :=
  (callee.stackItem ∈ c.virtualStack ∧ .round c callee true ∈ log) ∨
    (callee.stackItem ∉ c.virtualStack ∧ ∃ inner fns closures results,
      .descended inner fns closures results ∈ log ∧ inner.currentFunction = callee)

theorem Reported.later {log more : List Event} (reported : Reported log c callee) (later : log ⊆ more) :
    Reported more c callee :=
  reported.imp (And.imp_right (fun noted => later noted))
    (And.imp_right (fun ⟨inner, fns, closures, results, mem, same⟩ =>
      ⟨inner, fns, closures, results, later mem, same⟩))

theorem roundReported (withBody : calleeKey callee = .withBody callee.inst)
    (ran : processCallee tcx (run tcx fuel) c args argTys destination state callee s = (some state', t)) :
    Reported t.log c callee := by
  obtain ⟨_, u, noted, ran⟩ := Exec.bindSome.mp ran
  cases Exec.modifySome.mp noted
  by_cases on : callee.stackItem ∈ c.virtualStack
  · rw [if_pos (decide_eq_true on)] at ran
    obtain ⟨_, rfl⟩ := Exec.pureSome.mp ran
    exact .inl ⟨on, List.mem_append_right _ (by simp [on])⟩
  · rw [if_neg (by simpa using on)] at ran
    obtain ⟨processed, u, entered, assigned⟩ := Exec.bindSome.mp ran
    obtain ⟨_, rfl⟩ := Exec.liftSome.mp assigned
    have descends : processWithBody tcx (run tcx fuel) c args state callee
        (s.note (.round c callee (decide (callee.stackItem ∈ c.virtualStack)))) = (some processed, u) := by
      unfold processInstance at entered
      cases kind : callee.inst.kind with
      | intrinsic | virtual => simp [calleeKey, kind] at withBody
      | item | shim => rwa [kind] at entered
    obtain ⟨body, own, results, v, _, _, _, _, _, _, rfl⟩ := withBodyRan descends
    exact .inr ⟨on, _, _, _, _, storedLogged _ _ v results body, rfl⟩

theorem calleesReported {plausibleFns : List PartialFunctionInfo} (mem : callee ∈ plausibleFns)
    (withBody : calleeKey callee = .withBody callee.inst)
    (ran : plausibleFns.foldlM (processCallee tcx (run tcx fuel) c args argTys destination) state s =
      (some state', t)) : Reported t.log c callee := by
  obtain ⟨before, after, rfl⟩ := List.append_of_mem mem
  obtain ⟨mid, u, _, ran⟩ := Exec.foldlMSplit ran
  rw [List.foldlM_cons] at ran
  obtain ⟨next, v, round, rest⟩ := Exec.bindSome.mp ran
  have later := (Exec.wpResult (wpCallees (extendsInvariant tcx v) trivial v.extendsRefl trivial
    (wpRunExtends v fuel) after) rest).1.1
  exact (roundReported withBody round).later later.grows.log.subset

theorem processedReported {functionTy : Ty} {did : DefId} {substs : List Ty}
    (called : c.currentFunction.substitute functionTy = .fnDef did substs) (deep : c.shallow = false)
    (ran : processCall tcx (run tcx fuel) c functionTy args argTys state destination s = (some state', t)) :
    ∃ resolved, c.currentFunction.resolve tcx s.closures did substs argTys = some resolved ∧
      ((∃ error, resolved = .error error ∧ .unresolved c error ∈ t.log) ∨
        ∃ fns, resolved = .ok fns ∧ ∀ callee ∈ fns,
          (calleeKey callee = .withBody callee.inst → Reported t.log c callee) ∧
            (callee.stackItem ∉ c.virtualStack → calleeCall callee args ∈ state'.calls)) := by
  obtain ⟨resolved, found, outcome⟩ := Exec.wpResult (wpProcessCallCalls called (.inr deep) args argTys destination) ran
  refine ⟨resolved, found, ?_⟩
  simp only [processCall, called, deep, Bool.and_false, Bool.false_eq_true, if_false] at ran
  obtain ⟨_, _, read, ran⟩ := Exec.bindSome.mp ran
  obtain ⟨rfl, rfl⟩ := Exec.getSome.mp read
  obtain ⟨resolved', _, lifted, ran⟩ := Exec.bindSome.mp ran
  obtain ⟨found', rfl⟩ := Exec.liftSome.mp lifted
  cases Option.some.inj (found.symm.trans found')
  cases resolved with
  | error error =>
    obtain ⟨_, u, noted, ran⟩ := Exec.bindSome.mp ran
    cases Exec.modifySome.mp noted
    obtain ⟨_, v, inserted, last⟩ := Exec.bindSome.mp ran
    cases Exec.modifySome.mp inserted
    obtain ⟨_, rfl⟩ := Exec.pureSome.mp last
    exact .inl ⟨error, rfl, List.mem_append_right _ (List.mem_singleton_self _)⟩
  | ok fns =>
    refine .inr ⟨fns, rfl, fun callee mem => ?_⟩
    cases fns with
    | nil => exact absurd mem List.not_mem_nil
    | cons first rest =>
      obtain ⟨looped, u, loop, last⟩ := Exec.bindSome.mp ran
      obtain ⟨_, _, read, last⟩ := Exec.bindSome.mp last
      obtain ⟨rfl, rfl⟩ := Exec.getSome.mp read
      obtain ⟨_, v, noted, last⟩ := Exec.bindSome.mp last
      cases Exec.modifySome.mp noted
      obtain ⟨rfl, rfl⟩ := Exec.pureSome.mp last
      refine ⟨fun withBody => (calleesReported mem withBody loop).later (List.subset_append_left _ _), ?_⟩
      intro off
      cases outcome with
      | inr other => exact absurd rfl (other.1 first rest)
      | inl after =>
        obtain ⟨_, _, same, after⟩ := after
        cases Except.ok.inj same
        exact (after.calls _).mpr (.inr ⟨callee, mem, off, rfl⟩)

theorem backwardLog (log : List Event) (bb : Nat) (state : CollectorDomain) :
    Exec.Backward (fun s => s.log <+: log) ((analysis tcx (run tcx fuel) c).apply bb state) := by
  intro s out t applied within
  have extends_ := (Exec.wpResult (wpBlock (extendsInvariant tcx s) trivial s.extendsRefl trivial
    (wpRunExtends s fuel) bb) applied).1
  exact extends_.grows.log.trans within

end

def descendedInto : Event → Option PartialFunctionInfo
  | .descended c _ _ _ => some c.currentFunction
  | _ => none

def analysedFunctions (origin : PartialFunctionInfo) (log : List Event) : List PartialFunctionInfo :=
  origin :: log.filterMap descendedInto

def keepsCall (analysed : List PartialFunctionInfo) : Event → Bool
  | .round _ callee skipped => !skipped || decide (callee ∈ analysed)
  | .unresolved _ _ => false
  | _ => true

/- A collection in which no call is lost. The storage keeps one record of an instance, so none is
analysed for two lists of arguments. -/
structure Lossless (origin : PartialFunctionInfo) (log : List Event) : Prop where
  oneForm : ∀ f ∈ analysedFunctions origin log, ∀ g ∈ analysedFunctions origin log, f.inst = g.inst → f = g
  kept : ∀ e ∈ log, keepsCall (analysedFunctions origin log) e = true

instance (origin : PartialFunctionInfo) (log : List Event) : Decidable (Lossless origin log) :=
  decidable_of_iff ((∀ f ∈ analysedFunctions origin log, ∀ g ∈ analysedFunctions origin log,
    f.inst = g.inst → f = g) ∧ ∀ e ∈ log, keepsCall (analysedFunctions origin log) e = true)
    ⟨fun h => ⟨h.1, h.2⟩, fun h => ⟨h.oneForm, h.kept⟩⟩

theorem Lossless.skipped {origin callee : PartialFunctionInfo} {log : List Event} {c : Collector}
    (lossless : Lossless origin log) (mem : .round c callee true ∈ log) : callee ∈ analysedFunctions origin log := by
  simpa [keepsCall] using lossless.kept _ mem

theorem Lossless.resolved {origin : PartialFunctionInfo} {log : List Event} {c : Collector} {error : ResolveError}
    (lossless : Lossless origin log) : .unresolved c error ∉ log := by
  intro mem
  simpa [keepsCall] using lossless.kept _ mem

theorem memAnalysed {origin : PartialFunctionInfo} {log : List Event} {c : Collector} {fns : FunctionInfoStorage}
    {closures : ClosureInfoStorage} {results : CollectorDomain}
    (mem : .descended c fns closures results ∈ log) : c.currentFunction ∈ analysedFunctions origin log :=
  List.mem_cons_of_mem _ (List.mem_filterMap.mpr ⟨_, mem, rfl⟩)

structure Collection (tcx : TyCtxt) (fuel : Nat) (inst : Instance) (shallow : Bool) (session : Session)
    (body : Body) (argTys : ArgTys) (results : CollectorDomain) (last : Session) : Prop where
  hasBody : tcx.substitutedMir inst = some body
  args : originArgs body = some argTys
  ran : run tcx fuel ⟨[], [], .function inst argTys, body, shallow⟩ (startSession inst) = (some results, last)
  ended : session = last.insert (recordOf inst body results)

section
variable {tcx : TyCtxt} {fuel : Nat} {inst : Instance} {shallow : Bool} {session last : Session} {body : Body}
  {argTys : ArgTys} {results : CollectorDomain}

theorem collectionOf (ends : collected tcx fuel inst shallow = some session) :
    ∃ body argTys results last, Collection tcx fuel inst shallow session body argTys results last := by
  unfold collected at ends
  split at ends
  · rename_i ended ran
    cases Option.some.inj ends
    obtain ⟨body, _, loaded, ran⟩ := Exec.bindSome.mp ran
    obtain ⟨hasBody, rfl⟩ := Exec.liftSome.mp loaded
    obtain ⟨argTys, _, declared, ran⟩ := Exec.bindSome.mp ran
    obtain ⟨args, rfl⟩ := Exec.liftSome.mp declared
    obtain ⟨collector, _, made, ran⟩ := Exec.bindSome.mp ran
    obtain ⟨is, rfl⟩ := Exec.liftSome.mp made
    obtain ⟨own, loaded, rfl⟩ := Option.map_eq_some_iff.mp is
    cases Option.some.inj (hasBody.symm.trans loaded)
    obtain ⟨results, last, analysed, inserted⟩ := Exec.bindSome.mp ran
    exact ⟨body, argTys, results, last, hasBody, args, analysed, (Exec.modifySome.mp inserted).symm⟩
  · cases ends

theorem recordedCalls {f : FunctionInfo} (recorded : CollectorDomain.fromRegularFnInfo f = some results) :
    f.calls = some results.calls := by
  cases f with
  | withBody => cases Option.some.inj recorded; rfl
  | withoutBody => cases recorded

variable (collection : Collection tcx fuel inst shallow session body argTys results last)
include collection

theorem Collection.known : Known tcx shallow last :=
  (Exec.wpResult (wpRunCollector (knownInvariant tcx shallow) fuel _ _ rfl (knownStart tcx shallow inst))
    collection.ran).1

theorem Collection.log : session.log = last.log := by
  rw [collection.ended]
  rfl

structure FirstAnalysis (tcx : TyCtxt) (shallow : Bool) (log : List Event) (f : FunctionInfo)
    (c : Collector) (results : CollectorDomain) : Prop where
  ran : ∃ before after k, analyzeBody tcx (run tcx k) k c before = (some results, after) ∧ after.log <+: log
  hasBody : tcx.substitutedMir c.currentFunction.inst = some c.substitutedBody
  deep : c.shallow = shallow
  recorded : CollectorDomain.fromRegularFnInfo f = some results

theorem Collection.firstAnalysis {inst' : Instance} {f : FunctionInfo}
    (found : session.fns.getWithBody inst' = some f) :
    ∃ c results, c.currentFunction.inst = inst' ∧
      c.currentFunction ∈ analysedFunctions (.function inst argTys) session.log ∧
      FirstAnalysis tcx shallow session.log f c results := by
  cases earlier : last.fns.getWithBody inst' with
  | some g =>
    have same : session.fns.getWithBody inst' = some g := by
      rw [collection.ended]
      exact Session.Extends.found (Session.growsInsert _ _).fns earlier
    cases Option.some.inj (found.symm.trans same)
    obtain ⟨c, before, after, results, descended, rfl, absent, is⟩ := collection.known.made inst' f earlier
    obtain ⟨k, ran⟩ := descended.ran
    obtain ⟨k, analysed⟩ := runMissing ran absent
    have logged : .descended c before.fns before.closures results ∈ session.log :=
      collection.log ▸ descended.logged
    have listed : c.currentFunction ∈ analysedFunctions (.function inst argTys) session.log := memAnalysed logged
    exact ⟨c.push, results, rfl, listed, ⟨before, after, k, analysed,
      collection.log ▸ descended.later.grows.log⟩, descended.body, descended.shallow, is⟩
  | none =>
    rw [collection.ended] at found
    rw [FunctionInfoStorage.getWithBodyKey] at earlier
    obtain ⟨rfl, key⟩ := FunctionInfoStorage.insertNew earlier
      ((FunctionInfoStorage.getWithBodyKey _ _).symm.trans found)
    cases FunctionInfo.Key.withBody.inj key
    obtain ⟨k, analysed⟩ := runMissing collection.ran rfl
    exact ⟨_, results, rfl, List.mem_cons_self, ⟨_, last, k, analysed, collection.log ▸ List.prefix_refl _⟩,
      collection.hasBody, rfl, rfl⟩

theorem Collection.analysedFound {f : PartialFunctionInfo}
    (mem : f ∈ analysedFunctions (.function inst argTys) session.log) :
    ∃ record, session.fns.getWithBody f.inst = some record := by
  refine Session.recordFound ?_
  rw [collection.ended]
  cases List.mem_cons.mp mem with
  | inl itself => exact itself ▸ last.hasRecordInsert (recordOf inst body results)
  | inr below =>
    obtain ⟨event, logged, is⟩ := List.mem_filterMap.mp below
    cases event with
    | round | processed | unresolved => cases is
    | descended c fns closures found =>
      cases Option.some.inj is
      rw [collection.log] at logged
      obtain ⟨before, after, _, _, descended, _, _⟩ := collection.known.descents c fns closures found logged
      obtain ⟨own, ended⟩ := descended.ended
      exact (Session.growsInsert _ last).hasRecord (ended.grows.hasRecord (storedRecord c before after found own))

end
end Collector

def Body.successors (body : Body) (bb : Nat) : List Nat :=
  (body.basicBlocks[bb]?.map (fun data => data.terminator.edges)).getD []

namespace Borrows
open Collector (analysedFunctions BodilessMethod Collection FirstAnalysis Lossless calleeCall calleeKey)

structure Frame (tcx : TyCtxt) where
  inst : Instance
  body : Body
  start : Machine
  hasBody : tcx.substitutedMir inst = some body
  kind : inst.kind ≠ .intrinsic ∧ inst.kind ≠ .virtual
  plain : tcx.isClosure inst.defId = false
  fragment : Fragment tcx inst.defId body
  typed : ∀ data ∈ body.basicBlocks, ∀ statement ∈ data.statements, Typed body statement
  entered : 0 ∈ tcx.reversePostorder body
  inOrder : ∀ bb ∈ tcx.reversePostorder body, ∀ target ∈ body.successors bb, target ∈ tcx.reversePostorder body

inductive Machine.Targets (tcx : TyCtxt) (m : Machine) (body : Body) (did : DefId) (substs : List Ty)
    (args : List Operand) (inst : Instance) : Prop where
  | known (resolves : tcx.resolve did substs = some inst) (available : tcx.isMirAvailable inst.defId = true)
  | picked (bodiless : BodilessMethod tcx did substs) (dispatches : m.Dispatches tcx body did substs args inst)

def Machine.Gives (m : Machine) (body : Body) (op : Operand) (param shown : Ty) : Prop :=
  ∃ place, op.place = some place ∧ declared body place = some param ∧ m.UpToDate body place ∧
    m.read body place = some shown

section
variable {tcx : TyCtxt}

def Frame.Reaches (frame : Frame tcx) (final : Machine) (terminator : Terminator) : Prop :=
  ∃ bb m data,
    Analysis.Path frame.body.successors (Collector.BlockStep frame.body (Runs frame.body) Leaves) 0 frame.start bb m ∧
    frame.body.basicBlocks[bb]? = some data ∧ Runs frame.body data.statements m final ∧ data.terminator = terminator

def Frame.ComesTo (caller : Frame tcx) (final : Machine) (functionTy : Ty) (args : List Operand) : Prop :=
  ∃ func declaredTy destination target unwind, caller.Reaches final (.call func args destination target unwind) ∧
    func.ty tcx caller.body = .ok declaredTy ∧ caller.inst.substMir declaredTy = functionTy

def Frame.Drops (caller : Frame tcx) (final : Machine) (functionTy : Ty) (place : Place) : Prop :=
  ∃ placeTy declaredTy target unwind, caller.Reaches final (.drop place target unwind) ∧
    place.ty tcx caller.body = .ok placeTy ∧ Collector.dropCallee tcx placeTy.ty = some declaredTy ∧
    caller.inst.substMir declaredTy = functionTy

/- The callee is entered with the arguments. The signature lists the types of its first locals. A
parameter of a known type gets a value of that type. -/
structure Frame.Enters (caller : Frame tcx) (gives : Operand → Ty → Ty → Prop) (args : List Operand) (inst : Instance)
    (callee : Frame tcx) : Prop where
  same : callee.inst = caller.inst.substInstance inst
  plain : tcx.isClosure inst.defId = false
  signature : ∃ tys : List Ty, tys.length = args.length ∧ extractArgTys tcx inst = some ⟨tys.map TrackedTy.fromTy⟩ ∧
    ∀ (i : Nat) ty, tys[i]? = some ty → callee.body.localDecls[i + 1]? = some ty
  passed : ∀ place shown, (place, shown) ∈ callee.start.history → ∃ (i : Nat) (op : Operand) (ty : Ty),
    args[i]? = some op ∧ place = .fromLocal (i + 1) ∧ declared callee.body place = some ty ∧
      ((containsErased ty = false ∧ shown = ty) ∨ (containsErased ty = true ∧ gives op ty shown))

theorem Frame.calledWithBody (callee : Frame tcx) (trackedArgs : ArgTys) (args : List Operand) :
    calleeKey (.function callee.inst trackedArgs) = .withBody callee.inst ∧
      calleeCall (.function callee.inst trackedArgs) args = .withBody callee.inst args := by
  have known : (PartialFunctionInfo.function callee.inst trackedArgs).inst = callee.inst := rfl
  rw [calleeKey, calleeCall, known]
  cases kind : callee.inst.kind with
  | intrinsic => exact absurd kind callee.kind.1
  | virtual => exact absurd kind callee.kind.2
  | item | shim => exact ⟨rfl, rfl⟩

/- One function calls the other, or drops a value whose destructor it is. What the destructor is given
has a known type, or none that is relied on. -/
inductive Frame.Invokes (caller callee : Frame tcx) : Prop where
  | called {final : Machine} {did : DefId} {substs : List Ty} {args : List Operand} {inst : Instance}
      (comes : caller.ComesTo final (.fnDef did substs) args)
      (targets : final.Targets tcx caller.body did substs args inst)
      (enters : caller.Enters (final.Gives caller.body) args inst callee)
  | dropped {final : Machine} {did : DefId} {substs : List Ty} {place : Place} {inst : Instance}
      (drops : caller.Drops final (.fnDef did substs) place) (resolves : tcx.resolve did substs = some inst)
      (available : tcx.isMirAvailable inst.defId = true)
      (enters : caller.Enters (fun _ _ _ => False) [.copy place] inst callee)

theorem knownResolved {self : PartialFunctionInfo} {closures : ClosureInfoStorage} {did : DefId} {substs : List Ty}
    {argTys : ArgTys} {inst : Instance} {fns : List PartialFunctionInfo} (resolves : tcx.resolve did substs = some inst)
    (available : tcx.isMirAvailable inst.defId = true) (plain : tcx.isClosure inst.defId = false)
    (resolved : self.resolve tcx closures did substs argTys = some (.ok fns)) :
    ∃ provided, extractArgTys tcx inst = some provided ∧
      .function (self.inst.substInstance inst) (argTys.merge provided) ∈ fns := by
  simp only [PartialFunctionInfo.resolve, PartialFunctionInfo.candidates, resolves, Option.map_some,
    Option.getD_some, available, if_true, bind, Option.bind_some, Option.bind_eq_some_iff] at resolved
  obtain ⟨_, ⟨one, assembled, only⟩, finished⟩ := resolved
  cases Option.some.inj only
  obtain ⟨f, mem, fnData, rfl, done⟩ :=
    MapM.memLeft (PartialFunctionInfo.finishAllOk finished) one (List.mem_singleton_self _)
  rcases PartialFunctionInfo.finishCases assembled done with ⟨closure, _⟩ | ⟨_, provided, hp, is⟩
  · rw [plain] at closure
    cases closure
  · cases Except.ok.inj is
    exact ⟨provided, hp, mem⟩

theorem targetResolved {caller : Frame tcx} {m : Machine} {s : CollectorDomain} (sound : Sound caller.body m s.places)
    {did : DefId} {substs : List Ty} {args : List Operand} {argTys : ArgTys} {inst : Instance}
    (passed : s.constructArgs tcx caller.body caller.inst.defId args = some argTys)
    (targets : m.Targets tcx caller.body did substs args inst) (plain : tcx.isClosure inst.defId = false)
    {self : PartialFunctionInfo} {closures : ClosureInfoStorage} {fns : List PartialFunctionInfo}
    (resolved : self.resolve tcx closures did substs argTys = some (.ok fns)) :
    ∃ provided, extractArgTys tcx inst = some provided ∧
      .function (self.inst.substInstance inst) (argTys.merge provided) ∈ fns := by
  cases targets with
  | known resolves available => exact knownResolved resolves available plain resolved
  | picked bodiless dispatches =>
    let c : Collector := ⟨[], [], .function caller.inst ⟨[]⟩, caller.body, false⟩
    have suggested : Suggested tcx did substs.length argTys inst :=
      @dispatchSuggested tcx c m s caller.fragment sound did substs args argTys inst passed dispatches
    exact Collector.suggestedResolved bodiless resolved suggested plain

theorem Frame.Enters.covered {caller callee : Frame tcx} {gives : Operand → Ty → Ty → Prop} {args : List Operand}
    {inst : Instance} (enters : caller.Enters gives args inst callee) {argTys provided : ArgTys}
    (length : argTys.argTys.length = args.length)
    (covers : ∀ (i : Nat) op tracked ty shown, args[i]? = some op → argTys.argTys[i]? = some tracked →
      containsErased ty = true → gives op ty shown → TrackedTy.Describes ty tracked ∧ shown ∈ tracked.types)
    (extracted : extractArgTys tcx inst = some provided) :
    Passed callee.body (argTys.merge provided) callee.start := by
  obtain ⟨tys, arity, listed, locals⟩ := enters.signature
  cases Option.some.inj (extracted.symm.trans listed)
  intro place shown mem
  obtain ⟨i, op, ty, arg, rfl, at_, passes⟩ := enters.passed place shown mem
  have bound : i < args.length := (List.getElem?_eq_some_iff.mp arg).1
  have bound' : i < argTys.argTys.length := length ▸ bound
  have bound'' : i < tys.length := arity ▸ bound
  have held := List.getElem?_eq_getElem bound'
  have param : tys[i]? = some ty := by
    have here := locals i (tys[i]) (List.getElem?_eq_getElem bound'')
    have decl : callee.body.localDecls[i + 1]? = some ty := by
      simpa [declared, Place.fromLocal, Ty.pointeeNil] using at_
    rw [List.getElem?_eq_getElem bound'', Option.some.inj (here.symm.trans decl)]
  have merged : (ArgTys.merge argTys ⟨tys.map TrackedTy.fromTy⟩).argTys[i]? =
      some (ArgTys.mergeOne (argTys.argTys[i]) (.fromTy ty)) := by
    simp [ArgTys.merge, length, arity, List.getElem?_zipWith, param, held]
  refine ⟨ArgTys.mergeOne (argTys.argTys[i]) (.fromTy ty), i, ty, ?_, rfl, at_, ?_⟩
  · exact List.mem_zipIdx_iff_getElem?.mpr merged
  · rcases passes with ⟨plain, rfl⟩ | ⟨erased, given⟩
    · rw [TrackedTy.fromTyPresent plain]
      exact ⟨⟨rfl, plain⟩, Finset.mem_singleton_self _⟩
    · rw [TrackedTy.fromTyErased erased]
      exact covers i op _ ty shown arg held erased given

theorem constructedLength {s : CollectorDomain} {body : Body} {did : DefId} {args : List Operand} {argTys : ArgTys}
    (passed : s.constructArgs tcx body did args = some argTys) : argTys.argTys.length = args.length := by
  obtain ⟨tys, each, rfl⟩ := Option.map_eq_some_iff.mp passed
  exact (MapM.someIff.mp each).length_eq.symm

theorem givenCovered {caller : Frame tcx} {m : Machine} {s : CollectorDomain} (sound : Sound caller.body m s.places)
    {args : List Operand} {argTys : ArgTys}
    (passed : s.constructArgs tcx caller.body caller.inst.defId args = some argTys) {i : Nat} {op : Operand}
    {tracked : TrackedTy} {ty shown : Ty} (arg : args[i]? = some op) (at_ : argTys.argTys[i]? = some tracked)
    (erased : containsErased ty = true) (given : m.Gives caller.body op ty shown) :
    TrackedTy.Describes ty tracked ∧ shown ∈ tracked.types := by
  obtain ⟨place, from_, decl, fresh, read⟩ := given
  obtain ⟨tys, each, rfl⟩ := Option.map_eq_some_iff.mp passed
  obtain ⟨given, there, known⟩ := MapM.atLeft (MapM.someIff.mp each) arg
  cases Option.some.inj (there.symm.trans at_)
  obtain ⟨deps, held, mem⟩ := gaveTracked sound decl erased (fresh ty shown decl erased read)
  simp only [CollectorDomain.constructArg, from_, Option.bind_some, caller.fragment.normalized place ty decl,
    CollectorDomain.get, held] at known
  rw [← Option.some.inj known]
  exact ⟨erased, mem⟩

structure Traced (tcx : TyCtxt) (session : Session) (frame : Frame tcx) (f : FunctionInfo) : Prop where
  found : session.fns.getWithBody frame.inst = some f
  analysed : ∃ c results args, FirstAnalysis tcx false session.log f c results ∧
    c.currentFunction = .function frame.inst args ∧ Passed frame.body args frame.start

def ProcessedCall (tcx : TyCtxt) (session : Session) (frame : Frame tcx) (f : FunctionInfo) (functionTy : Ty)
    (ops : List Operand) (argTys : ArgTys) : Prop :=
  ∃ stack inProgress args declaredTy state destination k t out u results,
    (PartialFunctionInfo.function frame.inst args).substitute declaredTy = functionTy ∧
    Collector.processCall tcx (Collector.run tcx k) ⟨stack, inProgress, .function frame.inst args, frame.body, false⟩
      declaredTy ops argTys state destination t = (some out, u) ∧
    u.log <+: session.log ∧ CollectorDomain.fromRegularFnInfo f = some results ∧ out.KeptBy results

section
variable {session : Session} {frame : Frame tcx} {f : FunctionInfo} (traced : Traced tcx session frame f)
  {final : Machine} {functionTy : Ty}
include traced

theorem Traced.reached {terminator : Terminator} (reaches : frame.Reaches final terminator) :
    ∃ stack inProgress args state k t out u results, Sound frame.body final state.places ∧
      Collector.applyTerminatorEffect tcx (Collector.run tcx k)
        ⟨stack, inProgress, .function frame.inst args, frame.body, false⟩ state terminator t = (some out, u) ∧
      u.log <+: session.log ∧ CollectorDomain.fromRegularFnInfo f = some results ∧ out.KeptBy results := by
  obtain ⟨⟨stack, inProgress, current, own, shallow⟩, results, args, first, isFunction, passed⟩ := traced.analysed
  obtain ⟨bb, m, data, path, here, ran, rfl⟩ := reaches
  obtain rfl : current = .function frame.inst args := isFunction
  obtain rfl : shallow = false := first.deep
  obtain rfl : own = frame.body := Option.some.inj (first.hasBody.symm.trans frame.hasBody)
  obtain ⟨before, after, k, analysed, within⟩ := first.ran
  obtain ⟨state, out, t, u, sound, effect, later, kept⟩ := terminatorReached frame.fragment frame.typed rfl frame.plain
    passed (Collector.backwardLog session.log) frame.inOrder frame.entered analysed within path here ran
  exact ⟨stack, inProgress, args, state, k, t, out, u, results, sound, effect, later, first.recorded, kept⟩

theorem Traced.processed {ops : List Operand} (comes : frame.ComesTo final functionTy ops) :
    ∃ (state : CollectorDomain) (argTys : ArgTys), Sound frame.body final state.places ∧
      state.constructArgs tcx frame.body frame.inst.defId ops = some argTys ∧
      ProcessedCall tcx session frame f functionTy ops argTys := by
  obtain ⟨func, declaredTy, destination, target, unwind, reaches, functionIs, called⟩ := comes
  obtain ⟨stack, inProgress, args, state, k, t, out, u, results, sound, effect, rest⟩ := traced.reached reaches
  obtain ⟨argTys, constructed, ran⟩ := Collector.callEffect functionIs effect
  exact ⟨state, argTys, sound, constructed, stack, inProgress, args, declaredTy, state, some destination, k, t, out, u,
    results, called, ran, rest⟩

theorem Traced.dropped {place : Place} (drops : frame.Drops final functionTy place) :
    ∃ ty, ProcessedCall tcx session frame f functionTy [.copy place] ⟨[.fromTy (.ref ty .mut)]⟩ := by
  obtain ⟨placeTy, declaredTy, target, unwind, reaches, placeIs, destroys, called⟩ := drops
  obtain ⟨stack, inProgress, args, state, k, t, out, u, results, _, effect, rest⟩ := traced.reached reaches
  have ran := Collector.dropEffect placeIs destroys effect
  exact ⟨placeTy.ty, stack, inProgress, args, declaredTy, state, none, k, t, out, u, results, called, ran, rest⟩

end

def RecordedCall (fns : FunctionInfoStorage) (f f' : FunctionInfo) : Prop :=
  ∃ calls call, f.calls = some calls ∧ call ∈ calls ∧ fns.getByCall call = some f'

/- The call was skipped with tracked arguments that cover what the callee is entered with, for a function
with its definition and these arguments is in progress. -/
def SkippedCall (log : List Event) (caller callee : Frame tcx) : Prop :=
  ∃ c args, .round c (.function callee.inst args) true ∈ log ∧ c.currentFunction.inst = caller.inst ∧
    (PartialFunctionInfo.function callee.inst args).stackItem ∈ c.virtualStack ∧
    Passed callee.body args callee.start

section
variable {fuel : Nat} {inst : Instance} {session last : Session} {body : Body} {argTys : ArgTys}
  {results : CollectorDomain} (collection : Collection tcx fuel inst false session body argTys results last)
  (lossless : Lossless (.function inst argTys) session.log)
include collection lossless

theorem tracedAs {frame : Frame tcx} {f : FunctionInfo} {args : ArgTys}
    (form : .function frame.inst args ∈ analysedFunctions (.function inst argTys) session.log)
    (found : session.fns.getWithBody frame.inst = some f) (passed : Passed frame.body args frame.start) :
    Traced tcx session frame f := by
  obtain ⟨c, results, same, other, first⟩ := collection.firstAnalysis found
  exact ⟨found, c, results, args, first, lossless.oneForm _ other _ form same, passed⟩

theorem calleeTraced {caller callee : Frame tcx} {f : FunctionInfo} {did : DefId} {substs : List Ty}
    {ops : List Operand} {args : ArgTys} {target : Instance}
    (processed : ProcessedCall tcx session caller f (.fnDef did substs) ops args)
    (same : callee.inst = caller.inst.substInstance target)
    (resolves : ∀ {self : PartialFunctionInfo} {closures fns},
      self.resolve tcx closures did substs args = some (.ok fns) →
        ∃ provided, extractArgTys tcx target = some provided ∧
          .function (self.inst.substInstance target) (args.merge provided) ∈ fns)
    (covered : ∀ {provided}, extractArgTys tcx target = some provided →
      Passed callee.body (args.merge provided) callee.start) :
    ∃ f', Traced tcx session callee f' ∧
      (RecordedCall session.fns f f' ∨ SkippedCall session.log caller callee) := by
  obtain ⟨stack, inProgress, own, declaredTy, state, destination, k, t, out, u, results, called, ran, later, made,
    kept⟩ := processed
  obtain ⟨resolved, found, outcome⟩ := Collector.processedReported called rfl ran
  rcases outcome with ⟨error, _, logged⟩ | ⟨fns, rfl, each⟩
  · exact absurd (later.subset logged) lossless.resolved
  obtain ⟨provided, extracted, mem⟩ := resolves found
  have callee_ : PartialFunctionInfo.function (caller.inst.substInstance target) (args.merge provided) =
      .function callee.inst (args.merge provided) := by rw [same]
  obtain ⟨reported, recorded⟩ := each _ (callee_ ▸ mem)
  obtain ⟨withBody, call⟩ := callee.calledWithBody (args.merge provided) ops
  rcases reported withBody with ⟨on, skipped⟩ | ⟨off, inner, fns', closures', results', descended, form⟩
  · have logged := later.subset skipped
    have form := lossless.skipped logged
    obtain ⟨f', there⟩ := collection.analysedFound form
    exact ⟨f', tracedAs collection lossless form there (covered extracted), .inr ⟨_, _, logged, rfl, on, covered extracted⟩⟩
  · have form : .function callee.inst (args.merge provided) ∈ analysedFunctions (.function inst argTys) session.log :=
      form ▸ Collector.memAnalysed (later.subset descended)
    obtain ⟨f', there⟩ := collection.analysedFound form
    refine ⟨f', tracedAs collection lossless form there (covered extracted), .inl
      ⟨results.calls, _, Collector.recordedCalls made, kept.calls (recorded off), ?_⟩⟩
    rw [call]
    exact there

theorem invokedTraced {caller callee : Frame tcx} {f : FunctionInfo} (traced : Traced tcx session caller f)
    (invokes : caller.Invokes callee) :
    ∃ f', Traced tcx session callee f' ∧
      (RecordedCall session.fns f f' ∨ SkippedCall session.log caller callee) := by
  cases invokes with
  | called comes targets enters =>
    obtain ⟨state, args, sound, constructed, processed⟩ := traced.processed comes
    refine calleeTraced collection lossless processed enters.same
      (targetResolved sound constructed targets enters.plain) (enters.covered (constructedLength constructed) ?_)
    intro i op tracked ty shown arg at_ erased given
    exact givenCovered sound constructed arg at_ erased given
  | dropped drops resolves available enters =>
    obtain ⟨ty, processed⟩ := traced.dropped drops
    exact calleeTraced collection lossless processed enters.same (knownResolved resolves available enters.plain)
      (enters.covered rfl (fun _ _ _ _ _ _ _ _ given => given.elim))

theorem chainTraced {first last : Frame tcx} {f : FunctionInfo} (traced : Traced tcx session first f)
    (chain : Relation.ReflTransGen Frame.Invokes first last) : ∃ f', Traced tcx session last f' := by
  induction chain with
  | refl => exact ⟨f, traced⟩
  | tail _ invokes ih =>
    obtain ⟨mid, traced⟩ := ih
    obtain ⟨f', traced', _⟩ := invokedTraced collection lossless traced invokes
    exact ⟨f', traced'⟩

theorem originTraced {first : Frame tcx} (itself : first.inst = inst) (passed : Passed first.body argTys first.start) :
    ∃ f, Traced tcx session first f := by
  have form : .function first.inst argTys ∈ analysedFunctions (.function inst argTys) session.log :=
    itself ▸ List.mem_cons_self
  obtain ⟨f, found⟩ := collection.analysedFound form
  exact ⟨f, tracedAs collection lossless form found passed⟩

end

end

def passerBody : Body :=
  ⟨0, [Ty.unit, known 1, shared (known 1), shared object, known 2, shared (known 2)],
    [⟨makes (known 1) 1 2 3, .other [1, 2]⟩, ⟨makes (known 2) 4 5 3, .other [2]⟩,
      .calling 5 [.copy (.fromLocal 3)] 3, .returning], [], 0⟩

def viaBody : Body :=
  ⟨1, [Ty.unit, shared object],
    [⟨[], .call (.constant (.fnDef 7 [object])) [.copy (.fromLocal 1)] .returnPlace (some 1) none⟩,
      .calling 5 [.copy (.fromLocal 1)] 2, .returning], [], 0⟩

def implementedBody : Body :=
  ⟨1, [Ty.unit, shared (known 2), known 3],
    [⟨[], .drop (.fromLocal 2) 1 none⟩, .calling 9 [.constant (known 2)] 2, .returning], [], 0⟩

def destroyed : Ty := .ref (known 3) .mut

def destructorBody : Body := ⟨1, [Ty.unit, destroyed], [.returning], [], 0⟩

noncomputable def passingCrate : TyCtxt := {implementedCrate with
  adtDef := fun did => {implementedCrate.adtDef did with destructor := if did = 3 then some 20 else none}
  fnSig := fun did => if did = 5 then ⟨[.ref 0 (.dynamic 9 [] 0) .not], .unit⟩ else
    if did = 20 then ⟨[.ref 0 (.adt 3 []) .mut], .unit⟩ else
    implementedCrate.fnSig did
  loadBodyAndFacts := fun did =>
    if did = 0 then some passerBody else if did = 5 then some viaBody else
      if did = 12 then some implementedBody else if did = 20 then some destructorBody else
        implementedCrate.loadBodyAndFacts did}

theorem passingFragment (did : DefId) (body : Body) : Fragment passingCrate did body := by
  obtain ⟨normalized, listed, interior⟩ := borrowingFragment traitCrate.hashOrder did body
  exact ⟨normalized, listed, interior⟩

theorem idleTyped {body : Body} (idle : ∀ data ∈ body.basicBlocks, data.statements = []) :
    ∀ data ∈ body.basicBlocks, ∀ statement ∈ data.statements, Typed body statement :=
  fun data mem _ inside => absurd (idle data mem ▸ inside) List.not_mem_nil

theorem passerTyped : ∀ data ∈ passerBody.basicBlocks, ∀ statement ∈ data.statements, Typed passerBody statement := by
  intro data mem
  simp only [passerBody, List.mem_cons, List.not_mem_nil, or_false] at mem
  rcases mem with rfl | rfl | rfl | rfl
  · exact makesTyped rfl rfl rfl rfl
  · exact makesTyped rfl rfl rfl rfl
  · exact fun statement inside => absurd inside List.not_mem_nil
  · exact fun statement inside => absurd inside List.not_mem_nil

def afterFirst : Machine := (Machine.empty.run passerBody (makes (known 1) 1 2 3)).getD Machine.empty

def afterSecond : Machine := (afterFirst.run passerBody (makes (known 2) 4 5 3)).getD Machine.empty

noncomputable def passer : Frame passingCrate where
  inst := ⟨.item, 0, []⟩
  body := passerBody
  start := Machine.empty
  hasBody := rfl
  kind := ⟨by decide, by decide⟩
  plain := rfl
  fragment := passingFragment 0 passerBody
  typed := passerTyped
  entered := by decide +kernel
  inOrder := by decide +kernel

noncomputable def via : Frame passingCrate where
  inst := ⟨.item, 5, []⟩
  body := viaBody
  start := ⟨fun base => if base = 1 then some (.fat 0 (known 2)) else none, [(.fromLocal 1, shared (known 2))]⟩
  hasBody := rfl
  kind := ⟨by decide, by decide⟩
  plain := rfl
  fragment := passingFragment 5 viaBody
  typed := idleTyped (by decide)
  entered := by decide +kernel
  inOrder := by decide +kernel

noncomputable def implementation : Frame passingCrate where
  inst := ⟨.item, 12, []⟩
  body := implementedBody
  start := ⟨fun _ => none, [(.fromLocal 1, shared (known 2))]⟩
  hasBody := rfl
  kind := ⟨by decide, by decide⟩
  plain := rfl
  fragment := passingFragment 12 implementedBody
  typed := idleTyped (by decide)
  entered := by decide +kernel
  inOrder := by decide +kernel

noncomputable def destructor : Frame passingCrate where
  inst := ⟨.item, 20, []⟩
  body := destructorBody
  start := ⟨fun _ => none, [(.fromLocal 1, destroyed)]⟩
  hasBody := rfl
  kind := ⟨by decide, by decide⟩
  plain := rfl
  fragment := passingFragment 20 destructorBody
  typed := idleTyped (by decide)
  entered := by decide +kernel
  inOrder := by decide +kernel

theorem passerInvokes : passer.Invokes via := by
  have first : Runs passerBody (makes (known 1) 1 2 3) Machine.empty afterFirst := ⟨makesFaithful rfl rfl, rfl⟩
  have second : Runs passerBody (makes (known 2) 4 5 3) afterFirst afterSecond := ⟨makesFaithful rfl rfl, rfl⟩
  let Reaches := Analysis.Path passerBody.successors
    (Collector.BlockStep passerBody (Runs passerBody) Leaves) 0 Machine.empty
  have making : Reaches 1 afterFirst := Analysis.Path.here.further ⟨_, _, rfl, first, rfl⟩ (by decide)
  have path : Reaches 2 afterSecond := making.further ⟨_, _, rfl, second, rfl⟩ (by decide)
  have held : afterSecond.read passerBody (.fromLocal 3) = some (shared (known 2)) := rfl
  have fresh : afterSecond.UpToDate passerBody (.fromLocal 3) :=
    gaveFresh held ⟨.fromLocal 3, shared (known 2), [], by decide, rfl, rfl⟩
  have comes : passer.ComesTo afterSecond (.fnDef 5 []) [.copy (.fromLocal 3)] :=
    ⟨_, _, _, _, _, ⟨2, afterSecond, _, path, rfl, ⟨trivial, rfl⟩, rfl⟩, rfl, rfl⟩
  have targets : afterSecond.Targets passingCrate passerBody 5 [] [.copy (.fromLocal 3)] ⟨.item, 5, []⟩ :=
    .known rfl rfl
  refine .called comes targets ⟨rfl, rfl, ⟨[shared object], rfl, rfl, ?_⟩, ?_⟩
  · intro i ty at_
    cases i with
    | zero => exact at_
    | succ i => cases at_
  · intro place shown mem
    cases List.mem_singleton.mp mem
    exact ⟨0, .copy (.fromLocal 3), shared object, rfl, rfl, rfl, .inr ⟨rfl, .fromLocal 3, rfl, rfl, fresh, rfl⟩⟩

theorem viaFresh : via.start.UpToDate viaBody (.fromLocal 1) := by
  have held : via.start.read viaBody (.fromLocal 1) = some (shared (known 2)) := rfl
  exact gaveFresh held ⟨.fromLocal 1, shared (known 2), [], List.mem_singleton_self _, rfl, rfl⟩

theorem viaInvokesItself : via.Invokes via := by
  have path : Analysis.Path viaBody.successors (Collector.BlockStep viaBody (Runs viaBody) Leaves) 0 via.start 1
      via.start := Analysis.Path.here.further ⟨_, via.start, rfl, ⟨trivial, rfl⟩, rfl⟩ (by decide)
  have comes : via.ComesTo via.start (.fnDef 5 []) [.copy (.fromLocal 1)] :=
    ⟨_, _, _, _, _, ⟨1, via.start, _, path, rfl, ⟨trivial, rfl⟩, rfl⟩, rfl, rfl⟩
  have targets : via.start.Targets passingCrate viaBody 5 [] [.copy (.fromLocal 1)] ⟨.item, 5, []⟩ := .known rfl rfl
  refine .called comes targets ⟨rfl, rfl, ⟨[shared object], rfl, rfl, ?_⟩, ?_⟩
  · intro i ty at_
    cases i with
    | zero => exact at_
    | succ i => cases at_
  · intro place shown mem
    cases List.mem_singleton.mp mem
    exact ⟨0, .copy (.fromLocal 1), shared object, rfl, rfl, rfl, .inr ⟨rfl, .fromLocal 1, rfl, rfl, viaFresh, rfl⟩⟩

theorem viaInvokes : via.Invokes implementation := by
  have bodiless : BodilessMethod passingCrate 7 [object] := by
    refine ⟨rfl, ?_, rfl⟩
    intro inst h
    cases Option.some.inj h
    rfl
  have dispatches : via.start.Dispatches passingCrate viaBody 7 [object] [.copy (.fromLocal 1)] ⟨.item, 12, []⟩ := by
    refine ⟨Nat.one_pos, [known 2], rfl, rfl, ?_⟩
    intro i ty at_
    cases i with
    | zero =>
      cases Option.some.inj at_
      exact ⟨by decide, 0, .ref 0 (.param 0) .not, shared (known 2), .copy (.fromLocal 1), 0, [.deref], rfl, rfl, rfl,
        .hidden rfl rfl rfl viaFresh rfl, rfl⟩
    | succ i => cases at_
  have comes : via.ComesTo via.start (.fnDef 7 [object]) [.copy (.fromLocal 1)] :=
    ⟨_, _, _, _, _, ⟨0, via.start, _, .here, rfl, ⟨trivial, rfl⟩, rfl⟩, rfl, rfl⟩
  refine .called comes (.picked bodiless dispatches) ⟨rfl, rfl, ⟨[shared (known 2)], rfl, rfl, ?_⟩, ?_⟩
  · intro i ty at_
    cases i with
    | zero => exact at_
    | succ i => cases at_
  · intro place shown mem
    cases List.mem_singleton.mp mem
    exact ⟨0, .copy (.fromLocal 1), shared (known 2), rfl, rfl, rfl, .inl ⟨rfl, rfl⟩⟩

theorem implementationInvokes : implementation.Invokes destructor := by
  have drops : implementation.Drops implementation.start (.fnDef 20 []) (.fromLocal 2) :=
    ⟨_, _, _, _, ⟨0, implementation.start, _, .here, rfl, ⟨trivial, rfl⟩, rfl⟩, rfl, rfl, rfl⟩
  have resolves : passingCrate.resolve 20 [] = some ⟨.item, 20, []⟩ := rfl
  refine .dropped drops resolves rfl ⟨rfl, rfl, ⟨[destroyed], rfl, rfl, ?_⟩, ?_⟩
  · intro i ty at_
    cases i with
    | zero => exact at_
    | succ i => cases at_
  · intro place shown mem
    cases List.mem_singleton.mp mem
    exact ⟨0, .copy (.fromLocal 2), destroyed, rfl, rfl, rfl, .inl ⟨rfl, rfl⟩⟩

theorem passingEnds : (Collector.collected passingCrate 16 ⟨.item, 0, []⟩ false).isSome = true := by
  decide +kernel

noncomputable def passingSession : Session :=
  (Collector.collected passingCrate 16 ⟨.item, 0, []⟩ false).get passingEnds

theorem passingLossless : Lossless (.function ⟨.item, 0, []⟩ ⟨[]⟩) passingSession.log := by
  decide +kernel

theorem passingChain : Relation.ReflTransGen Frame.Invokes passer implementation :=
  .tail (.tail (.single passerInvokes) viaInvokesItself) viaInvokes

theorem passingCollected : Collector.collected passingCrate 16 ⟨.item, 0, []⟩ false = some passingSession :=
  (Option.some_get passingEnds).symm

theorem passerStarts : passer.inst = ⟨.item, 0, []⟩ ∧ Passed passer.body ⟨[]⟩ passer.start :=
  ⟨rfl, fun _ _ mem => absurd mem List.not_mem_nil⟩

section
variable {tcx : TyCtxt}

structure Stands (cfg : Setup) (node : Verdict.Node) (frame : Frame tcx) : Prop where
  record : cfg.storage.getWithBody frame.inst = some node.item
  live : ¬ Verdict.Exempt tcx cfg node
  clean : ¬ Verdict.Bad tcx cfg node

/- The walk follows a chain of frames, record by record, to the end; or up to the first one that is
exempt, or whose call of the next one was skipped. -/
inductive Follows (cfg : Setup) (log : List Event) (End : Verdict.Node → Prop) :
    Verdict.Node → List (Frame tcx) → Prop where
  | exempt {node frame rest} (record : cfg.storage.getWithBody frame.inst = some node.item)
      (exempt : Verdict.Exempt tcx cfg node) : Follows cfg log End node (frame :: rest)
  | skipped {node frame next rest} (stands : Stands cfg node frame) (skip : SkippedCall log frame next) :
      Follows cfg log End node (frame :: next :: rest)
  | ends {node frame} (stands : Stands cfg node frame) (ended : End node) : Follows cfg log End node [frame]
  | step {node node' frame next rest} (stands : Stands cfg node frame) (step : Verdict.Step tcx cfg node node')
      (further : Follows cfg log End node' (next :: rest)) : Follows cfg log End node (frame :: next :: rest)

def FollowsFrom (cfg : Setup) (log : List Event) (locals : ImportantLocals) (End : Verdict.Node → Prop)
    (first : Frame tcx) (rest : List (Frame tcx)) : Prop :=
  ∃ item, cfg.storage.getWithBody first.inst = some item ∧ Follows cfg log End ⟨item, locals⟩ (first :: rest)

theorem walkFollows {cfg : Setup} {n : Verdict.Node} {f' : FunctionInfo} (live : ¬ Verdict.Exempt tcx cfg n)
    (free : ¬ Verdict.Stuck tcx cfg n) (recorded : RecordedCall cfg.storage n.item f') :
    ∃ locals, Verdict.Step tcx cfg n ⟨f', locals⟩ := by
  obtain ⟨calls, call, has, mem, found⟩ := recorded
  cases passed : n.locals.transition tcx call.args call.defId with
  | error fault => exact absurd (.inr ⟨live, .inr (.inr ⟨calls, has, call, mem, fault, passed⟩)⟩) free
  | ok locals => exact ⟨locals, live, calls, has, call, mem, found, passed⟩

structure LeakFree (tcx : TyCtxt) (cfg : Setup) (n : Verdict.Node) : Prop where
  unstuck : ¬ Reach.Reaches (Verdict.Step tcx cfg) (Verdict.Stuck tcx cfg) n
  dry : ¬ Verdict.Leaks tcx cfg n

theorem LeakFree.step {cfg : Setup} {n m : Verdict.Node} (leakFree : LeakFree tcx cfg n) (step : Verdict.Step tcx cfg n m) :
    LeakFree tcx cfg m :=
  ⟨fun stuck => leakFree.unstuck (Reach.further step stuck), fun leaks => leakFree.dry (Reach.further step leaks)⟩

theorem LeakFree.stands {cfg : Setup} {n : Verdict.Node} {frame : Frame tcx} (leakFree : LeakFree tcx cfg n)
    (record : cfg.storage.getWithBody frame.inst = some n.item) (live : ¬ Verdict.Exempt tcx cfg n) :
    Stands cfg n frame :=
  ⟨record, live, fun bad => leakFree.dry (Reach.here ⟨live, bad⟩)⟩

section
variable {fuel : Nat} {inst : Instance} {session last : Session} {body : Body} {argTys : ArgTys}
  {results : CollectorDomain} (collection : Collection tcx fuel inst false session body argTys results last)
  (lossless : Lossless (.function inst argTys) session.log) {cfg : Setup} (storage : cfg.storage = session.fns)
include collection lossless storage

theorem chainFollowed {End : Verdict.Node → Prop} {rest : List (Frame tcx)} : ∀ {first : Frame tcx}
    {node : Verdict.Node}, Traced tcx session first node.item → LeakFree tcx cfg node →
    List.IsChain Frame.Invokes (first :: rest) →
    (∀ last node, (first :: rest).getLast? = some last → Traced tcx session last node.item →
      LeakFree tcx cfg node → ¬ Verdict.Exempt tcx cfg node → End node) →
    Follows cfg session.log End node (first :: rest) := by
  induction rest with
  | nil =>
    intro first node traced leakFree _ ends
    have record := storage ▸ traced.found
    by_cases exempt : Verdict.Exempt tcx cfg node
    · exact .exempt record exempt
    · exact .ends (leakFree.stands record exempt) (ends first node rfl traced leakFree exempt)
  | cons next rest ih =>
    intro first node traced leakFree chain ends
    have record := storage ▸ traced.found
    by_cases exempt : Verdict.Exempt tcx cfg node
    · exact .exempt record exempt
    · obtain ⟨invokes, chain⟩ := List.isChain_cons_cons.mp chain
      obtain ⟨f', traced', link⟩ := invokedTraced collection lossless traced invokes
      cases link with
      | inl recorded =>
        obtain ⟨locals', step⟩ := walkFollows exempt (fun stuck => leakFree.unstuck (Reach.here stuck)) (storage ▸ recorded)
        have further := @ih next ⟨f', locals'⟩ traced' (leakFree.step step) chain
          (fun last node here => ends last node (by rw [List.getLast?_cons_cons, here]))
        exact .step (leakFree.stands record exempt) step further
      | inr skip => exact .skipped (leakFree.stands record exempt) skip

end

section
variable {fuel : Nat} {inst : Instance} {session : Session} {body : Body} {argTys : ArgTys} {cfg : Setup} {depth : Nat}
  {closures : ClosureInfoStorage} {locals : ImportantLocals} {annotatedPure : Bool} {result : PurityAnalysisResult}
  {first : Frame tcx} {rest : List (Frame tcx)}
  (ends : Collector.collected tcx fuel inst false = some session) (hasBody : tcx.substitutedMir inst = some body)
  (declaredArgs : Collector.originArgs body = some argTys) (lossless : Lossless (.function inst argTys) session.log)
  (storage : cfg.storage = session.fns)
  (ran : runAnalysis tcx cfg depth closures locals annotatedPure = .ok result) (pure_ : result.status = true)
  (itself : first.inst = inst) (passed : Passed first.body argTys first.start)
  (chain : List.IsChain Frame.Invokes (first :: rest))
include ends hasBody declaredArgs lossless storage ran pure_ itself passed chain

theorem chainVerified {End : Verdict.Node → Prop} (atEnd : ∀ last node, (first :: rest).getLast? = some last →
      Traced tcx session last node.item → LeakFree tcx cfg node → ¬ Verdict.Exempt tcx cfg node → End node) :
    FollowsFrom cfg session.log locals End first rest := by
  obtain ⟨body', argTys', results, ended, collection⟩ := Collector.collectionOf ends
  cases Option.some.inj (hasBody.symm.trans collection.hasBody)
  cases Option.some.inj (declaredArgs.symm.trans collection.args)
  obtain ⟨item, traced⟩ := originTraced collection lossless itself passed
  obtain ⟨ordered, sameOrigin, _⟩ := Collector.collectedOrdered ends
  have found := traced.found
  rw [← storage] at ordered sameOrigin found
  have origin : cfg.storage.getWithBody cfg.storage.origin = some item := by rw [sameOrigin, ← itself, found]
  have meets := Verdict.okMeets (fun _ mem => ordered.resolves mem) ordered.wellFounded
    (ordered.resolves (List.mem_of_find?_eq_some origin)) (Verdict.runOutcome origin ran)
  have dry : ¬ Verdict.Leaks tcx cfg ⟨item, locals⟩ := fun leaks => by
    have negative : result.status = false := meets.2.mpr leaks
    rw [pure_] at negative
    cases negative
  exact ⟨item, found, chainFollowed collection lossless storage traced ⟨meets.1, dry⟩ chain atEnd⟩

end
end

noncomputable def passingSetup : Setup :=
  ⟨passingSession.fns, [], [], fun _ => .listed [.withBody ⟨.item, 5, []⟩ [.copy (.fromLocal 3)],
    .withBody ⟨.item, 11, []⟩ [.copy (.fromLocal 1)], .withBody ⟨.item, 12, []⟩ [.copy (.fromLocal 1)],
    .withBody ⟨.item, 20, []⟩ [.copy (.fromLocal 2)], .withoutBody 9 [.constant (known 2)]] (by decide), 3⟩

noncomputable def passingRun : Except Fault PurityAnalysisResult :=
  runAnalysis passingCrate passingSetup 4 .empty ⟨{3}⟩ true

theorem passingPure : passingRun.toOption.map PurityAnalysisResult.status = some true := by
  decide +kernel

theorem passingFrames : List.IsChain Frame.Invokes [passer, via, via, implementation] :=
  .cons_cons passerInvokes (.cons_cons viaInvokesItself (.cons_cons viaInvokes (.singleton _)))

end Borrows
end Scrutinizer
