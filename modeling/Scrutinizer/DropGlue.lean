import Scrutinizer.Calls
import Scrutinizer.PlainCrate
import Scrutinizer.Resolve

/-! The destructors that a drop runs, and those that the analysis of a drop records: the type
of the dropped place is looked at, what it is made of is not. -/
namespace Scrutinizer

/- The destructors, as function types, that the drop of a value may run: that of the type itself,
and those of what it owns. `normalize` is rustc's normalization of a field's type, and `holds` says
which types the value behind a trait object may have. -/
inductive DropRuns (tcx : TyCtxt) (normalize : Ty → Ty) (holds : Ty → Ty → Prop) : Ty → Ty → Prop
  | own {did args destructor} (has : (tcx.adtDef did).destructor = some destructor) :
      DropRuns tcx normalize holds (.adt did args) ((tcx.typeOf destructor).instantiate args)
  | field {did args variant field fnTy} (drops : (tcx.adtDef did).isManuallyDrop = false)
      (struct : (tcx.adtDef did).isUnion = false) (hv : variant ∈ (tcx.adtDef did).variants)
      (hf : field ∈ variant) (inner : DropRuns tcx normalize holds (normalize (field.instantiate args)) fnTy) :
      DropRuns tcx normalize holds (.adt did args) fnTy
  | content {did args ty fnTy} (box : (tcx.adtDef did).isBox = true) (hc : args.head? = some ty)
      (inner : DropRuns tcx normalize holds ty fnTy) : DropRuns tcx normalize holds (.adt did args) fnTy
  | tuple {tys ty fnTy} (mem : ty ∈ tys) (inner : DropRuns tcx normalize holds ty fnTy) :
      DropRuns tcx normalize holds (.tuple tys) fnTy
  | array {ty len fnTy} (some_ : len ≠ .const 0) (inner : DropRuns tcx normalize holds ty fnTy) :
      DropRuns tcx normalize holds (.array ty len) fnTy
  | slice {ty fnTy} (inner : DropRuns tcx normalize holds ty fnTy) : DropRuns tcx normalize holds (.slice ty) fnTy
  | upvar {did args parts tys ty fnTy} (split : ClosureParts.asClosure args = some parts)
      (hu : parts.upvarTys = some tys) (mem : ty ∈ tys) (inner : DropRuns tcx normalize holds ty fnTy) :
      DropRuns tcx normalize holds (.closure did args) fnTy
  | object {did args ty fnTy} (held : holds (.dynamic did args) ty)
      (inner : DropRuns tcx normalize holds ty fnTy) : DropRuns tcx normalize holds (.dynamic did args) fnTy

/- How rustc answers for a destructor: a function that resolves to itself. -/
structure PlainDestructor (tcx : TyCtxt) (destructor : DefId) : Prop where
  typeOf : ∃ params, tcx.typeOf destructor = .fnDef destructor params
  resolve : ∀ args, tcx.resolve destructor args = some ⟨.item, destructor, args⟩
  notClosure : tcx.isClosure destructor = false
  notCtfe : tcx.isCtfe destructor = false

def DropRecorded (calls : Finset FunctionCall) (fnTy : Ty) : Prop :=
  ∃ did args, fnTy = .fnDef did args ∧ ∃ call ∈ calls,
    call.key = .withBody ⟨.item, did, args⟩ ∨ call.key = .withoutBody did

def DropCovered (tcx : TyCtxt) (calls : Finset FunctionCall) (ty fnTy : Ty) : Prop :=
  Collector.dropCallee tcx ty = some fnTy ∨ DropRecorded calls fnTy ∨
    ∃ did args args', fnTy = .fnDef did args ∧
      Collector.dropCallee tcx ty = some (.fnDef did args') ∧ tcx.isMirAvailable did = false

namespace Collector
variable {tcx : TyCtxt} {descend : Collector → Exec Session CollectorDomain} {c : Collector}
  {s : Session} {state : CollectorDomain}

theorem resolvedDestructor {did : DefId} (plain : PlainDestructor tcx did) {args : List Ty}
    {argTys : ArgTys} {closures : ClosureInfoStorage} {self f : PartialFunctionInfo}
    {fns : List PartialFunctionInfo}
    (h : self.resolve tcx closures did args argTys = some (.ok fns)) (mem : f ∈ fns) :
    f.inst.kind = .item ∧ f.inst.defId = did := by
  simp only [PartialFunctionInfo.resolve, bind, Option.bind_eq_some_iff] at h
  obtain ⟨fnDatas, each, finished⟩ := h
  obtain ⟨fnData, hmem, done⟩ := PartialFunctionInfo.finishAllMem finished f mem
  obtain ⟨callee, made, source⟩ := PartialFunctionInfo.candidatesFrom each _ hmem
  have known : ∃ args, callee = ⟨.item, did, args⟩ := by
    rw [plain.resolve] at source
    cases source with
    | inl itself => exact ⟨args, (Option.some.inj itself.1).symm⟩
    | inr listed =>
      obtain ⟨found, _, resolves⟩ := List.mem_filterMap.mp listed.2
      exact ⟨found, (Option.some.inj ((plain.resolve found).symm.trans resolves)).symm⟩
  obtain ⟨found, rfl⟩ := known
  have assembled := @PartialFunctionInfo.assembleFunction tcx closures argTys
    ⟨.item, did, found⟩ plain.notClosure
  cases Except.ok.inj (Option.some.inj (made.symm.trans assembled))
  rw [PartialFunctionInfo.finishFunction tcx closures self _ _ plain.notClosure] at done
  cases Except.ok.inj (Option.some.inj done)
  exact ⟨rfl, rfl⟩

def destructorCall (tcx : TyCtxt) (did : DefId) (substs : List Ty) (args : List Operand) : FunctionCall :=
  if tcx.isMirAvailable did then .withBody ⟨.item, did, substs⟩ args else .withoutBody did args

theorem wpDestructorCall {did : DefId} {substs : List Ty} (plain : PlainDestructor tcx did)
    (deep : c.shallow = false) (fixed : c.currentFunction.substitute (.fnDef did substs) = .fnDef did substs)
    (off : ∀ item ∈ c.virtualStack, item.defId ≠ did) (args : List Operand) (argTys : ArgTys) :
    Exec.wp (processCall tcx descend c (.fnDef did substs) args argTys state none)
      (fun state' _ => state'.calls = insert (destructorCall tcx did substs args) state.calls)
      (fun _ => True) s := by
  refine Exec.wpMono (wpProcessCallCalls fixed (.inr deep) args argTys none) ?_ (fun _ _ => trivial)
  intro state' t outcome
  obtain ⟨resolved, h, outcome⟩ := outcome
  cases available : tcx.isMirAvailable did with
  | true =>
    have itself := PartialFunctionInfo.resolveFunction s.closures c.currentFunction argTys
      (plain.resolve substs) plain.notClosure available
    rw [Instance.substInstanceFixed fixed] at itself
    cases Option.some.inj (h.symm.trans itself)
    cases outcome with
    | inr other => exact absurd rfl (other.1 _ [])
    | inl looped =>
      obtain ⟨callee, callees, same, after⟩ := looped
      cases Except.ok.inj same
      have absent : ∀ merged, (PartialFunctionInfo.function ⟨.item, did, substs⟩ merged).stackItem ∉
          c.virtualStack := fun merged mem => off _ mem rfl
      ext call
      rw [after.calls call, Finset.mem_insert, destructorCall, if_pos available]
      simp [absent, calleeCall, PartialFunctionInfo.inst, or_comm]
  | false =>
    cases outcome with
    | inr other =>
      rw [destructorCall, if_neg (by simp [available])]
      exact other.2
    | inl looped =>
      obtain ⟨callee, callees, same, after⟩ := looped
      rw [same] at h
      obtain ⟨item, def_⟩ := resolvedDestructor plain h List.mem_cons_self
      -- There is no body to analyse: nothing comes back.
      have entered := after.entered callee List.mem_cons_self (fun mem => off _ mem def_)
        (by simp [calleeKey, item])
      have none : tcx.loadBodyAndFacts did = none := by
        simpa [TyCtxt.isMirAvailable] using available
      simp [TyCtxt.substitutedMir, item, def_, plain.notCtfe, none] at entered

theorem dropCalleeOwn {ty fnTy : Ty} (plain : ∀ did destructor,
      (tcx.adtDef did).destructor = some destructor → PlainDestructor tcx destructor)
    (h : dropCallee tcx ty = some fnTy) :
    ∃ did substs, fnTy = .fnDef did substs ∧ PlainDestructor tcx did := by
  unfold dropCallee at h
  split at h
  · rename_i did args
    obtain ⟨destructor, has, last⟩ := Option.map_eq_some_iff.mp h
    have itself := plain did destructor has
    obtain ⟨params, typeOf⟩ := itself.typeOf
    exact ⟨destructor, Ty.instantiateList args params, by rw [← last, typeOf, Ty.instantiate], itself⟩
  · contradiction

theorem recordedInsert {calls : Finset FunctionCall} {did : DefId} {substs : List Ty}
    {args : List Operand} {fnTy : Ty} :
    DropRecorded (insert (destructorCall tcx did substs args) calls) fnTy ↔
      DropRecorded calls fnTy ∨ fnTy = .fnDef did substs ∨
        (tcx.isMirAvailable did = false ∧ ∃ substs', fnTy = .fnDef did substs') := by
  unfold DropRecorded destructorCall
  constructor
  · intro h
    obtain ⟨d, as, rfl, call, mem, key⟩ := h
    cases Finset.mem_insert.mp mem with
    | inr old => exact .inl ⟨d, as, rfl, call, old, key⟩
    | inl new =>
      subst new
      cases available : tcx.isMirAvailable did with
      | true =>
        simp only [available, if_true, FunctionCall.key, reduceCtorEq, or_false,
          FunctionInfo.Key.withBody.injEq, Instance.mk.injEq, true_and] at key
        exact .inr (.inl (by rw [key.1, key.2]))
      | false =>
        simp only [available, Bool.false_eq_true, if_false, FunctionCall.key, reduceCtorEq, false_or,
          FunctionInfo.Key.withoutBody.injEq] at key
        exact .inr (.inr ⟨rfl, as, by rw [key]⟩)
  · intro h
    rcases h with ⟨d, as, rfl, call, mem, key⟩ | rfl | ⟨missing, as, rfl⟩
    · exact ⟨d, as, rfl, call, Finset.mem_insert_of_mem mem, key⟩
    · refine ⟨did, substs, rfl, _, Finset.mem_insert_self _ _, ?_⟩
      split
      · exact .inl rfl
      · exact .inr rfl
    · refine ⟨did, as, rfl, _, Finset.mem_insert_self _ _, .inr ?_⟩
      rw [if_neg (by simp [missing])]
      rfl

noncomputable def dropCrate : TyCtxt := {TyCtxt.plain (.listed [] List.nodup_nil) with
  adtDef := fun did =>
    if did = 10 then ⟨[[]], some 5, false, false, false⟩
    else if did = 11 then ⟨[[.adt 10 []]], none, false, false, false⟩
    else ⟨[], none, false, false, false⟩}

def dropBody (ty : Ty) : Body :=
  ⟨0, [Ty.unit, ty], [⟨[], .drop (.fromLocal 1) 1 none⟩, .returning], [], 0⟩

def dropper (ty : Ty) : Collector :=
  ⟨[], [], .function ⟨.item, 0, []⟩ ⟨[]⟩, dropBody ty, false⟩

noncomputable def droppedCalls (ty : Ty) : Option (Finset FunctionCall) :=
  ((applyTerminatorEffect dropCrate (fun _ => Exec.fail) (dropper ty) (.new .empty)
    (.drop (.fromLocal 1) 1 none) (startSession ⟨.item, 0, []⟩)).1).map CollectorDomain.calls

theorem dropCratePlain : ∀ did destructor, (dropCrate.adtDef did).destructor = some destructor →
    PlainDestructor dropCrate destructor := by
  intro did destructor _
  exact ⟨⟨[], rfl⟩, fun _ => rfl, rfl, rfl⟩

end Collector
end Scrutinizer
