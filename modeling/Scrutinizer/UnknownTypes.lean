import Scrutinizer.Calls
import Scrutinizer.Closures
import Scrutinizer.HasTrackedTy

/-! What becomes of an unknown type. The empty set that stands for it is lost as soon as a
known type is joined into the same place, and a method is then dispatched on what is known. -/
namespace Scrutinizer

namespace CollectorDomain

/- The values that have gone into the place `p`, in order: what assignments bring to it, to
itself or by way of another place, and what the other side of a join has there. -/
inductive Contributed (tcx : TyCtxt) (body : Body) (defId : DefId) (p : Place) :
    List TrackedTy → CollectorDomain → Prop
  | declared {s} (start : s.places.get p = some (.erased ∅)) : Contributed tcx body defId p [] s
  | passed {s v} (start : s.places.get p = some ((TrackedTy.erased ∅).join v).1) :
      Contributed tcx body defId p [v] s
  | assigned {vs s place ty old paths s'} (before : Contributed tcx body defId p vs s)
      (ho : s.places.get place = some old)
      (hp : transformedPaths tcx body defId place (old.join ty).1 = .ok paths)
      (step : s.updateWith tcx body defId place ty = .ok s') :
      Contributed tcx body defId p
        (vs ++ ((if p = place then [ty] else []) ++ broughtTo p paths)) s'
  | joined {vs ws s t s' changed} (left : Contributed tcx body defId p vs s)
      (right : Contributed tcx body defId p ws t) (step : s.join t = some (s', changed)) :
      Contributed tcx body defId p (vs ++ ws) s'
  | kept {vs s s'} (before : Contributed tcx body defId p vs s) (same : s'.places = s.places) :
      Contributed tcx body defId p vs s'

def knownTypes (vs : List TrackedTy) : Finset Ty := vs.toFinset.biUnion TrackedTy.types

theorem knownAppend (vs ws : List TrackedTy) : knownTypes (vs ++ ws) = knownTypes vs ∪ knownTypes ws := by
  simp [knownTypes, List.toFinset_append, Finset.union_biUnion]

/- The place holds what is known; whether something unknown was there cannot be told. -/
theorem contributedTypes {tcx : TyCtxt} {body : Body} {defId : DefId} {p : Place}
    {vs : List TrackedTy} {s : CollectorDomain} (h : Contributed tcx body defId p vs s) :
    s.places.get p = some (.erased (knownTypes vs)) := by
  induction h with
  | declared start => simpa [knownTypes] using start
  | passed start => simpa [knownTypes] using start
  | @assigned vs s place ty old paths s' before ho hp step ih =>
    obtain ⟨old', paths', ho', hp', get⟩ := updateWithGet step
    cases Option.some.inj (ho.symm.trans ho')
    cases Except.ok.inj (hp.symm.trans hp')
    rw [get p, ih, knownAppend, knownAppend]
    by_cases here : p = place
    · simp [here, TrackedTy.joinManyErased, knownTypes, Finset.union_assoc]
    · simp [here, TrackedTy.joinManyErased, knownTypes]
  | joined left right step ihLeft ihRight =>
    rw [joinGet step p, ihLeft, ihRight, knownAppend]
    simp [TrackedTy.joinManyErased, TrackedTy.types, Finset.singleton_biUnion]
  | kept before same ih => rw [same, ih]

end CollectorDomain

def Suggests (tcx : TyCtxt) (method : DefId) (argTys : ArgTys) (index : Nat) (ty : Ty) : Prop :=
  ∃ pair ∈ (tcx.fnSig method).inputs.zip argTys.argTys, ∃ known ∈ pair.2.types,
    ArgTys.peel index pair.1 known = some ty

def Suggested (tcx : TyCtxt) (method : DefId) (params : Nat) (argTys : ArgTys) (inst : Instance) : Prop :=
  0 < params ∧ ∃ picked : List Ty, picked.length = params ∧
    (∀ i ty, picked[i]? = some ty → Suggests tcx method argTys i ty) ∧
    tcx.resolve method picked = some inst

namespace PartialFunctionInfo
variable {tcx : TyCtxt} {closures : ClosureInfoStorage} {self : PartialFunctionInfo}

theorem memExtractSubsts {method : DefId} {argTys : ArgTys} {index : Nat} {ty : Ty} :
    ty ∈ argTys.extractSubsts tcx.hashOrder (tcx.fnSig method).inputs index ↔
      Suggests tcx method argTys index ty := by
  unfold ArgTys.extractSubsts Suggests
  simp only [List.mem_flatMap, List.mem_filterMap, TrackedTy.memIntoVec]

theorem memPlausible {method : DefId} {argTys : ArgTys} {substs : List Ty} {inst : Instance} :
    inst ∈ findPlausibleInstances tcx method argTys substs ↔
      Suggested tcx method substs.length argTys inst := by
  simp only [findPlausibleInstances, List.mem_filterMap, memProduct, Suggested]
  constructor
  · intro h
    obtain ⟨picked, ⟨nonempty, each⟩, resolves⟩ := h
    have length : picked.length = substs.length := by simpa using each.length_eq
    refine ⟨?_, picked, length, ?_, resolves⟩
    · cases substs with
      | nil => exact absurd rfl nonempty
      | cons => exact Nat.succ_pos _
    · intro i ty hi
      have bound : i < picked.length := (List.getElem?_eq_some_iff.mp hi).1
      have here := List.Forall₂.get each bound (by simpa [← length] using bound)
      have found : picked.get ⟨i, bound⟩ = ty := by simpa using (List.getElem?_eq_some_iff.mp hi).2
      rw [found] at here
      simpa [memExtractSubsts] using here
  · intro h
    obtain ⟨positive, picked, length, each, resolves⟩ := h
    refine ⟨picked, ⟨?_, ?_⟩, resolves⟩
    · intro none
      have zero : substs.length = 0 := by simpa using congrArg List.length none
      omega
    · rw [List.forall₂_iff_get]
      refine ⟨by simp [length], ?_⟩
      intro i bound bound'
      have here := each i (picked.get ⟨i, bound⟩) (by simp)
      simpa [memExtractSubsts] using here

end PartialFunctionInfo

def OpaqueKept (tcx : TyCtxt) (closures : ClosureInfoStorage) (c : Collector) (calls : Finset FunctionCall)
    (method : DefId) (params : Nat) (args : List Operand) (argTys : ArgTys) : Prop :=
  .withoutBody method args ∈ calls ∨ ((tcx.isLocal method = true ∨ c.shallow = false) ∧
    ((¬ ∃ inst, Suggested tcx method params argTys inst) ∨
    (∃ inst, Suggested tcx method params argTys inst ∧ tcx.isClosure inst.defId = true ∧
      closures.get inst.defId = none) ∨
    ∃ inst provided, Suggested tcx method params argTys inst ∧ inst.defId = method ∧
      (inst.kind = .intrinsic ∨ inst.kind = .virtual) ∧ extractArgTys tcx inst = some provided ∧
      ⟨method, argTys.merge provided⟩ ∉ c.virtualStack))

namespace Collector
open CollectorDomain PartialFunctionInfo
variable {tcx : TyCtxt} {closures : ClosureInfoStorage} {self : PartialFunctionInfo}

structure BodilessMethod (tcx : TyCtxt) (method : DefId) (substs : List Ty) : Prop where
  notClosure : tcx.isClosure method = false
  unimplemented : ∀ inst, tcx.resolve method substs = some inst → inst.defId = method
  noBody : tcx.isMirAvailable method = false

theorem bodilessCandidates {method : DefId} {substs : List Ty} {argTys : ArgTys}
    (bodiless : BodilessMethod tcx method substs) :
    candidates tcx closures method substs argTys =
      (findPlausibleInstances tcx method argTys substs).mapM (assemble tcx closures argTys) := by
  have itself : ((tcx.resolve method substs).map Instance.defId).getD method = method := by
    cases hr : tcx.resolve method substs with
    | none => rfl
    | some inst => exact bodiless.unimplemented inst hr
  simp [candidates, itself, bodiless.noBody]

theorem unresolvedIff {method : DefId} {substs : List Ty} {argTys : ArgTys}
    {resolved : Except ResolveError (List PartialFunctionInfo)}
    (bodiless : BodilessMethod tcx method substs)
    (h : self.resolve tcx closures method substs argTys = some resolved) :
    (∀ callee callees, resolved ≠ .ok (callee :: callees)) ↔
      (¬ ∃ inst, Suggested tcx method substs.length argTys inst) ∨
      ∃ inst, Suggested tcx method substs.length argTys inst ∧ tcx.isClosure inst.defId = true ∧
        closures.get inst.defId = none := by
  simp only [resolve, bodilessCandidates bodiless, bind, Option.bind_eq_some_iff] at h
  obtain ⟨fnDatas, each, finished⟩ := h
  have made := MapM.someIff.mp each
  constructor
  · intro none
    cases resolved with
    | ok fns =>
      cases fns with
      | cons callee callees => exact absurd rfl (none callee callees)
      | nil =>
        have empty : fnDatas = [] := List.forall₂_nil_right_iff.mp (finishAllOk finished)
        rw [empty, List.forall₂_nil_right_iff] at made
        refine .inl fun suggested => ?_
        obtain ⟨inst, hs⟩ := suggested
        have mem := memPlausible.mpr hs
        rw [made] at mem
        cases mem
    | error e =>
      right
      cases finishAllError finished with
      | inl mem =>
        obtain ⟨inst, hi, assembled⟩ := MapM.memRight made _ mem
        rcases assembleCases assembled with ⟨_, _, _, _, same⟩ | ⟨closure, unknown, _⟩ | ⟨_, _, _, same⟩
        · cases same
        · exact ⟨inst, memPlausible.mp hi, closure, unknown⟩
        · cases same
      | inr there =>
        obtain ⟨fnData, mem, done⟩ := there
        obtain ⟨inst, _, assembled⟩ := MapM.memRight made _ mem
        rcases finishCases assembled done with ⟨_, _, _, _, _, _, same⟩ | ⟨_, _, _, same⟩ <;> cases same
  · intro why callee callees same
    subst same
    have all := finishAllOk finished
    cases why with
    | inl nothing =>
      obtain ⟨fnData, mem, _⟩ := MapM.memRight all callee List.mem_cons_self
      obtain ⟨inst, hi, _⟩ := MapM.memRight made _ mem
      exact nothing ⟨inst, memPlausible.mp hi⟩
    | inr missing =>
      obtain ⟨inst, hs, closure, unknown⟩ := missing
      obtain ⟨fnData, mem, assembled⟩ := MapM.memLeft made inst (memPlausible.mpr hs)
      obtain ⟨f, _, ok, isOk, _⟩ := MapM.memLeft all fnData mem
      rw [isOk] at assembled
      rcases assembleCases assembled with ⟨_, info, _, known, _⟩ | ⟨_, _, e, same⟩ | ⟨plain, _⟩
      · rw [unknown] at known; cases known
      · cases same
      · rw [closure] at plain; cases plain

theorem suggestedResolved {method : DefId} {substs : List Ty} {argTys : ArgTys}
    {fns : List PartialFunctionInfo} {inst : Instance} (bodiless : BodilessMethod tcx method substs)
    (h : self.resolve tcx closures method substs argTys = some (.ok fns))
    (suggested : Suggested tcx method substs.length argTys inst) (plain : tcx.isClosure inst.defId = false) :
    ∃ provided, extractArgTys tcx inst = some provided ∧
      .function (self.inst.substInstance inst) (argTys.merge provided) ∈ fns := by
  simp only [resolve, bodilessCandidates bodiless, bind, Option.bind_eq_some_iff] at h
  obtain ⟨fnDatas, each, finished⟩ := h
  obtain ⟨fn, hfn, assembled⟩ := MapM.memLeft (MapM.someIff.mp each) inst (memPlausible.mpr suggested)
  obtain ⟨f, mem, fnData, ok, done⟩ := MapM.memLeft (finishAllOk finished) fn hfn
  rw [ok] at assembled
  rcases finishCases assembled done with ⟨closure, _⟩ | ⟨_, provided, hp, is⟩
  · rw [plain] at closure
    cases closure
  · cases Except.ok.inj is
    exact ⟨provided, hp, mem⟩

theorem resolvedFrom {method : DefId} {substs : List Ty} {argTys : ArgTys}
    {fns : List PartialFunctionInfo} (bodiless : BodilessMethod tcx method substs)
    (closureItself : ∀ did args, tcx.isClosure did = true →
      tcx.resolve did args = some ⟨.item, did, args⟩)
    {history : List Registration} (replayed : Registration.replay history = some closures)
    (h : self.resolve tcx closures method substs argTys = some (.ok fns)) :
    ∀ f, f.inst.kind = .intrinsic ∨ f.inst.kind = .virtual → f.inst.defId = method →
      (f ∈ fns ↔ ∃ inst provided, Suggested tcx method substs.length argTys inst ∧
        extractArgTys tcx inst = some provided ∧
        f = .function (self.inst.substInstance inst) (argTys.merge provided)) := by
  intro f kind same
  constructor
  · intro mem
    simp only [resolve, bodilessCandidates bodiless, bind, Option.bind_eq_some_iff] at h
    obtain ⟨fnDatas, each, finished⟩ := h
    obtain ⟨fn, hfn, fnData, ok, done⟩ := MapM.memRight (finishAllOk finished) f mem
    obtain ⟨inst, hi, assembled⟩ := MapM.memRight (MapM.someIff.mp each) fn hfn
    rw [ok] at assembled
    rcases finishCases assembled done with ⟨closure, info, merged, found, known, extracted, is⟩ |
      ⟨_, provided, hp, is⟩
    · obtain ⟨args, ty⟩ := Registration.registered replayed known
      rw [ClosureInfo.extractInstance, ty] at extracted
      have item := Option.some.inj ((closureItself _ args closure).symm.trans extracted)
      cases Except.ok.inj is
      have kindItem : found.kind = .item := by rw [← item]
      simp only [PartialFunctionInfo.inst, kindItem] at kind
      exact absurd kind (by simp)
    · cases Except.ok.inj is
      exact ⟨inst, provided, memPlausible.mp hi, hp, rfl⟩
  · intro suggested
    obtain ⟨inst, provided, hs, hp, rfl⟩ := suggested
    have defId : inst.defId = method := same
    obtain ⟨provided', hp', mem⟩ := suggestedResolved bodiless h hs (defId ▸ bodiless.notClosure)
    cases Option.some.inj (hp.symm.trans hp')
    exact mem

theorem skippedShallow {descend : Collector → Exec Session CollectorDomain} {c : Collector} {s t : Session}
    {state state' : CollectorDomain} {functionTy : Ty} {method : DefId} {substs : List Ty}
    {args : List Operand} {argTys : ArgTys} {destination : Option Place}
    (called : c.currentFunction.substitute functionTy = .fnDef method substs)
    (skipped : ¬ (tcx.isLocal method = true ∨ c.shallow = false))
    (ends : processCall tcx descend c functionTy args argTys state destination s = (some state', t)) :
    state' = state := by
  have foreign : (!tcx.isLocal method && c.shallow) = true := by simpa using skipped
  simp only [processCall, called, foreign, if_true] at ends
  cases ends
  rfl

theorem opaqueIff {descend : Collector → Exec Session CollectorDomain} {c : Collector} {s t : Session}
    {state state' : CollectorDomain} {functionTy : Ty} {method : DefId} {substs : List Ty}
    {args : List Operand} {argTys : ArgTys} {destination : Option Place}
    (closureItself : ∀ did args, tcx.isClosure did = true →
      tcx.resolve did args = some ⟨.item, did, args⟩)
    {history : List Registration} (replayed : Registration.replay history = some s.closures)
    (called : c.currentFunction.substitute functionTy = .fnDef method substs)
    (bodiless : BodilessMethod tcx method substs)
    (ends : processCall tcx descend c functionTy args argTys state destination s = (some state', t)) :
    .withoutBody method args ∈ state'.calls ↔
      OpaqueKept tcx s.closures c state.calls method substs.length args argTys := by
  unfold OpaqueKept
  by_cases followed : tcx.isLocal method = true ∨ c.shallow = false
  case neg =>
    rw [skippedShallow called followed ends]
    simp [followed]
  obtain ⟨resolved, h, outcome⟩ :=
    Exec.wpResult (wpProcessCallCalls called followed args argTys destination) ends
  have unresolved := unresolvedIff bodiless h
  simp only [followed, true_and]
  cases outcome with
  | inr other =>
    obtain ⟨none, calls⟩ := other
    have why := unresolved.mp none
    rw [calls]
    constructor
    · intro _
      cases why with
      | inl nothing => exact .inr (.inl nothing)
      | inr missing => exact .inr (.inr (.inl missing))
    · exact fun _ => Finset.mem_insert_self _ _
  | inl looped =>
    obtain ⟨callee, callees, same, after⟩ := looped
    subst same
    have found := resolvedFrom bodiless closureItself replayed h
    rw [after.calls]
    constructor
    · intro recorded
      cases recorded with
      | inl old => exact .inl old
      | inr new =>
        obtain ⟨f, mem, off, call⟩ := new
        have shape := calleeCallWithoutBody.mp call.symm
        obtain ⟨inst, provided, hs, hp, is⟩ := (found f shape.1 shape.2).mp mem
        subst is
        have defId : inst.defId = method := shape.2
        have item : (PartialFunctionInfo.function (c.currentFunction.inst.substInstance inst)
            (argTys.merge provided)).stackItem = ⟨method, argTys.merge provided⟩ := by
          rw [← defId]; rfl
        exact .inr (.inr (.inr ⟨inst, provided, hs, defId, shape.1, hp, item ▸ off⟩))
    · intro kept
      rcases kept with old | nothing | missing | ⟨inst, provided, hs, defId, kind, hp, off⟩
      · exact .inl old
      · exact absurd rfl (unresolved.mpr (.inl nothing) callee callees)
      · exact absurd rfl (unresolved.mpr (.inr missing) callee callees)
      · have mem := (found (.function (c.currentFunction.inst.substInstance inst)
          (argTys.merge provided)) kind defId).mpr ⟨inst, provided, hs, hp, rfl⟩
        refine .inr ⟨_, mem, ?_, ?_⟩
        · simpa [stackItem, PartialFunctionInfo.inst, Instance.substInstance, trackedArgs, defId] using off
        · have shape : ∀ f, f = PartialFunctionInfo.function (c.currentFunction.inst.substInstance inst)
              (argTys.merge provided) → calleeCall f args = .withoutBody method args := by
            intro f same
            subst same
            exact calleeCallWithoutBody.mpr ⟨kind, defId⟩
          exact (shape _ rfl).symm

theorem unknownRecordedIff {descend : Collector → Exec Session CollectorDomain} {c : Collector}
    {s t : Session} {state state' : CollectorDomain}
    (closureItself : ∀ did args, tcx.isClosure did = true →
      tcx.resolve did args = some ⟨.item, did, args⟩)
    {history : List Registration} (replayed : Registration.replay history = some s.closures)
    {p : Place} {vs : List TrackedTy}
    (contributed : Contributed tcx c.substitutedBody c.defId p vs state)
    {functionTy : Ty} {method : DefId} {substs : List Ty}
    (called : c.currentFunction.substitute functionTy = .fnDef method substs)
    (bodiless : BodilessMethod tcx method substs)
    {op : Operand} {receiver : Place} {others : List Operand} {argTys : ArgTys}
    (onPlace : op.place = some receiver) (dispatched : tcx.normalize c.defId receiver = p)
    (passed : state.constructArgs tcx c.substitutedBody c.defId (op :: others) = some argTys)
    {destination : Option Place}
    (ends : processCall tcx descend c functionTy (op :: others) argTys state destination s = (some state', t)) :
    (.erased ∅ ∈ vs → .withoutBody method (op :: others) ∈ state'.calls) ↔
      (.erased ∅ ∈ vs → OpaqueKept tcx s.closures c state.calls method substs.length (op :: others)
        ⟨.erased (knownTypes vs) :: argTys.argTys.tail⟩) := by
  have first : argTys = ⟨.erased (knownTypes vs) :: argTys.argTys.tail⟩ := by
    obtain ⟨all, each, last⟩ := Option.map_eq_some_iff.mp passed
    have made := MapM.someIff.mp each
    rw [List.forall₂_cons_left_iff] at made
    obtain ⟨head, tail, here, _, same⟩ := made
    have known := contributedTypes contributed
    have value : constructArg tcx c.substitutedBody c.defId state op =
        some (.erased (knownTypes vs)) := by
      simp [constructArg, onPlace, CollectorDomain.get, dispatched, known]
    rw [value] at here
    cases Option.some.inj here
    rw [← last, same]
    rfl
  rw [← first]
  exact imp_congr_right (fun _ => opaqueIff closureItself replayed called bodiless ends)

def dynRef : Ty := .ref (.dynamic 2 []) .not

def knownRef : Ty := .ref (.adt 3 []) .not

def dispatchBody : Body := ⟨0, [Ty.unit, dynRef], [.returning], [], 0⟩

noncomputable def traitCrate : TyCtxt := {TyCtxt.plain (.listed [knownRef, .adt 3 []] (by decide)) with
  fnSig := fun did => if did = 7 then ⟨[.ref 0 (.param 0) .not], .unit⟩ else ⟨[.ref 0 (.adt 3 []) .not], .unit⟩
  loadBodyAndFacts := fun did => if did = 8 then some ⟨1, [Ty.unit, knownRef], [.returning], [], 0⟩ else none
  allPlaces := fun _ body => body.localDecls.zipIdx.flatMap (fun decl =>
    if decl.1.isRef then [.fromLocal decl.2, ⟨decl.2, [.deref]⟩] else [.fromLocal decl.2])
  resolve := fun did args => match did, args with
    | 7, [.adt 3 []] => some ⟨.item, 8, []⟩
    | 7, args => some ⟨.virtual, 7, args⟩
    | did, args => some ⟨.item, did, args⟩}

def dispatcher : Collector :=
  ⟨[], [], .function ⟨.item, 0, []⟩ ⟨[]⟩, dispatchBody, false⟩

def receiver : Place := .fromLocal 1

def undetermined : CollectorDomain :=
  .new (HashMap.fromIter [(receiver, .erased ∅), (⟨1, [.deref]⟩, .erased ∅)])

noncomputable def assignedIn (vs : List TrackedTy) : Option CollectorDomain :=
  vs.foldlM (fun state v => (state.updateWith traitCrate dispatchBody 0 receiver v).toOption) undetermined

noncomputable def dispatchCalls (vs : List TrackedTy) : Option (Finset FunctionCall) := do
  let state ← assignedIn vs
  let argTys ← state.constructArgs traitCrate dispatchBody 0 [.move receiver]
  let after ← (processCall traitCrate (run traitCrate 4) dispatcher (.fnDef 7 [.dynamic 2 []])
    [.move receiver] argTys state none (startSession ⟨.item, 0, []⟩)).1
  some after.calls

theorem unknownHidden :
    dispatchCalls [.erased ∅] = some {.withoutBody 7 [.move receiver]} ∧
      dispatchCalls [.erased ∅, .present knownRef] =
        some {.withBody ⟨.item, 8, []⟩ [.move receiver]} := by
  constructor <;> decide +kernel

theorem unknownAlone : ∃ state t,
    processCall traitCrate (run traitCrate 4) dispatcher (.fnDef 7 [.dynamic 2 []])
      [.move receiver] ⟨[.erased ∅]⟩ undetermined none (startSession ⟨.item, 0, []⟩) = (some state, t) ∧
    ((TrackedTy.erased ∅ ∈ [TrackedTy.erased ∅, .erased ∅] →
        .withoutBody 7 [.move receiver] ∈ state.calls) ↔
      (TrackedTy.erased ∅ ∈ [TrackedTy.erased ∅, .erased ∅] →
        OpaqueKept traitCrate .empty dispatcher ∅ 7 1 [.move receiver]
          ⟨[.erased (knownTypes [.erased ∅, .erased ∅])]⟩)) := by
  have before : Contributed traitCrate dispatchBody 0 receiver [] undetermined := .declared rfl
  have known : undetermined.places.get receiver = some (.erased ∅) := rfl
  have paths : transformedPaths traitCrate dispatchBody 0 receiver ((TrackedTy.erased ∅).join (.erased ∅)).1 =
      .ok [(receiver, .erased ∅)] := rfl
  have step : undetermined.updateWith traitCrate dispatchBody 0 receiver (.erased ∅) =
      .ok undetermined := rfl
  have contributed : Contributed traitCrate dispatchBody 0 receiver [.erased ∅, .erased ∅] undetermined :=
    before.assigned known paths step
  have closureItself : ∀ did args, traitCrate.isClosure did = true →
      traitCrate.resolve did args = some ⟨.item, did, args⟩ := fun _ _ h => by cases h
  have bodiless : BodilessMethod traitCrate 7 [.dynamic 2 []] := by
    refine ⟨rfl, ?_, rfl⟩
    intro inst h
    cases Option.some.inj h
    rfl
  have replayed : Registration.replay [] = some (startSession ⟨.item, 0, []⟩).closures := rfl
  have called : dispatcher.currentFunction.substitute (.fnDef 7 [.dynamic 2 []]) =
      .fnDef 7 [.dynamic 2 []] := rfl
  have passed : undetermined.constructArgs traitCrate dispatcher.substitutedBody dispatcher.defId
      [.move receiver] = some ⟨[.erased ∅]⟩ := rfl
  obtain ⟨state, t, ends⟩ : ∃ state t,
      processCall traitCrate (run traitCrate 4) dispatcher (.fnDef 7 [.dynamic 2 []])
        [.move receiver] ⟨[.erased ∅]⟩ undetermined none (startSession ⟨.item, 0, []⟩) =
        (some state, t) := ⟨_, _, rfl⟩
  exact ⟨state, t, ends,
    unknownRecordedIff closureItself replayed contributed called bodiless rfl rfl passed ends⟩

end Collector
end Scrutinizer
