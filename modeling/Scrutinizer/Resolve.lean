import Scrutinizer.Library.MapM
import Scrutinizer.PartialFunctionInfo

/-! What the resolution of a callee returns: the callee itself where it has a body, else the
instances its arguments suggest, and for a closure what its storage entry says. -/
namespace Scrutinizer

namespace PartialFunctionInfo
variable {tcx : TyCtxt} {closures : ClosureInfoStorage} {self : PartialFunctionInfo}

theorem finishAllOk {fns : List (Except ResolveError PartialFunctionInfo)} :
    ∀ {dones : List PartialFunctionInfo}, finishAll tcx closures self fns = some (.ok dones) →
      List.Forall₂ (fun fn f => ∃ fnData, fn = .ok fnData ∧
        finish tcx closures self fnData = some (.ok f)) fns dones := by
  induction fns with
  | nil =>
    intro dones h
    cases Option.some.inj h
    exact .nil
  | cons fn rest ih =>
    intro dones h
    cases fn with
    | error e => cases Option.some.inj h
    | ok fnData =>
      simp only [finishAll, bind, Option.bind_eq_some_iff] at h
      obtain ⟨first, hfirst, h⟩ := h
      cases first with
      | error e => cases Option.some.inj h
      | ok done =>
        simp only [Option.bind_eq_some_iff] at h
        obtain ⟨others, hothers, h⟩ := h
        cases others with
        | error e => cases Option.some.inj h
        | ok tail =>
          cases Except.ok.inj (Option.some.inj h)
          exact .cons ⟨fnData, rfl, hfirst⟩ (ih hothers)

theorem finishAllMem {fns : List (Except ResolveError PartialFunctionInfo)}
    {dones : List PartialFunctionInfo} (h : finishAll tcx closures self fns = some (.ok dones)) :
    ∀ f ∈ dones, ∃ fnData, .ok fnData ∈ fns ∧ finish tcx closures self fnData = some (.ok f) := by
  intro f mem
  obtain ⟨fn, hmem, fnData, same, done⟩ := MapM.memRight (finishAllOk h) f mem
  exact ⟨fnData, same ▸ hmem, done⟩

theorem finishAllError {fns : List (Except ResolveError PartialFunctionInfo)} {e : ResolveError} :
    finishAll tcx closures self fns = some (.error e) →
      .error e ∈ fns ∨ ∃ fnData, .ok fnData ∈ fns ∧
        finish tcx closures self fnData = some (.error e) := by
  induction fns with
  | nil => intro h; cases Option.some.inj h
  | cons fn rest ih =>
    intro h
    cases fn with
    | error e' =>
      cases Except.error.inj (Option.some.inj h)
      exact .inl List.mem_cons_self
    | ok fnData =>
      simp only [finishAll, bind, Option.bind_eq_some_iff] at h
      obtain ⟨first, hfirst, h⟩ := h
      cases first with
      | error e' =>
        cases Except.error.inj (Option.some.inj h)
        exact .inr ⟨fnData, List.mem_cons_self, hfirst⟩
      | ok done =>
        simp only [Option.bind_eq_some_iff] at h
        obtain ⟨others, hothers, h⟩ := h
        cases others with
        | ok tail => cases Option.some.inj h
        | error e' =>
          cases Except.error.inj (Option.some.inj h)
          cases ih hothers with
          | inl mem => exact .inl (List.mem_cons_of_mem _ mem)
          | inr there =>
            obtain ⟨other, mem, done⟩ := there
            exact .inr ⟨other, List.mem_cons_of_mem _ mem, done⟩

theorem assembleCases {argTys : ArgTys} {inst : Instance} {r : Except ResolveError PartialFunctionInfo}
    (h : assemble tcx closures argTys inst = some r) :
    (tcx.isClosure inst.defId = true ∧ ∃ info merged, closures.get inst.defId = some info ∧
      r = .ok (.closure inst merged info)) ∨
    (tcx.isClosure inst.defId = true ∧ closures.get inst.defId = none ∧ ∃ e, r = .error e) ∨
    (tcx.isClosure inst.defId = false ∧ ∃ provided, extractArgTys tcx inst = some provided ∧
      r = .ok (.function inst (argTys.merge provided))) := by
  simp only [assemble, bind, Option.bind_eq_some_iff] at h
  obtain ⟨inferred, hi, provided, hp, h⟩ := h
  split at h
  · rename_i closure
    split at h
    · rename_i info known
      cases Option.some.inj h
      exact .inl ⟨closure, info, _, known, rfl⟩
    · rename_i unknown
      cases Option.some.inj h
      exact .inr (.inl ⟨closure, unknown, _, rfl⟩)
  · rename_i plain
    have no : tcx.isClosure inst.defId = false := Bool.eq_false_iff.mpr plain
    rw [inferArgTys, if_neg plain] at hi
    cases Option.some.inj hi
    cases Option.some.inj h
    exact .inr (.inr ⟨no, provided, hp, rfl⟩)

theorem finishCases {argTys : ArgTys} {inst : Instance} {fnData : PartialFunctionInfo}
    {r : Except ResolveError PartialFunctionInfo}
    (made : assemble tcx closures argTys inst = some (.ok fnData))
    (h : finish tcx closures self fnData = some r) :
    (tcx.isClosure inst.defId = true ∧ ∃ info merged found, closures.get inst.defId = some info ∧
      info.extractInstance tcx = some found ∧ r = .ok (.closure found merged info)) ∨
    (tcx.isClosure inst.defId = false ∧ ∃ provided, extractArgTys tcx inst = some provided ∧
      r = .ok (.function (self.inst.substInstance inst) (argTys.merge provided))) := by
  rcases assembleCases made with ⟨closure, info, merged, known, same⟩ | ⟨_, _, e, same⟩ |
    ⟨plain, provided, hp, same⟩
  · cases Except.ok.inj same
    have here : tcx.isClosure (PartialFunctionInfo.closure inst merged info).inst.defId = true := closure
    have entry : closures.get (PartialFunctionInfo.closure inst merged info).inst.defId = some info := known
    simp only [finish, here, if_true, entry, closureInfo, bind, Option.bind_eq_some_iff] at h
    obtain ⟨found, extracted, info', same, last⟩ := h
    cases Option.some.inj same
    cases Option.some.inj last
    exact .inl ⟨closure, info, merged, found, known, extracted, rfl⟩
  · cases same
  · cases Except.ok.inj same
    have here : tcx.isClosure (PartialFunctionInfo.function inst (argTys.merge provided)).inst.defId = false := plain
    simp only [finish, here, Bool.false_eq_true, if_false, Option.some.injEq] at h
    exact .inr ⟨plain, provided, hp, h.symm⟩

theorem candidatesFrom {did : DefId} {substs : List Ty} {argTys : ArgTys}
    {fnDatas : List (Except ResolveError PartialFunctionInfo)}
    (h : candidates tcx closures did substs argTys = some fnDatas) :
    ∀ fnData ∈ fnDatas, ∃ callee, assemble tcx closures argTys callee = some fnData ∧
      ((tcx.resolve did substs = some callee ∧ tcx.isMirAvailable callee.defId = true) ∨
        (tcx.isMirAvailable (((tcx.resolve did substs).map Instance.defId).getD did) = false ∧
          callee ∈ findPlausibleInstances tcx
            (((tcx.resolve did substs).map Instance.defId).getD did) argTys substs)) := by
  simp only [candidates] at h
  intro fnData mem
  split at h
  · rename_i available
    simp only [bind, Option.bind_eq_some_iff] at h
    obtain ⟨callee, found, one, made, last⟩ := h
    cases Option.some.inj last
    rw [found, Option.map_some, Option.getD_some] at available
    exact ⟨callee, List.mem_singleton.mp mem ▸ made, .inl ⟨found, available⟩⟩
  · rename_i bodiless
    obtain ⟨callee, listed, made⟩ := MapM.memRight (MapM.someIff.mp h) _ mem
    exact ⟨callee, made, .inr ⟨Bool.eq_false_iff.mpr bodiless, listed⟩⟩

theorem resolveClosure {did : DefId} {substs : List Ty} {argTys : ArgTys}
    {fns : List PartialFunctionInfo} {inst : Instance} {trackedArgs : ArgTys} {info : ClosureInfo}
    (resolved : self.resolve tcx closures did substs argTys = some (.ok fns))
    (returned : .closure inst trackedArgs info ∈ fns) :
    ∃ closureDid, tcx.isClosure closureDid = true ∧ closures.get closureDid = some info ∧
      info.extractInstance tcx = some inst := by
  simp only [resolve, bind, Option.bind_eq_some_iff] at resolved
  obtain ⟨fnDatas, each, finished⟩ := resolved
  obtain ⟨fnData, mem, done⟩ := finishAllMem finished _ returned
  obtain ⟨callee, made, _⟩ := candidatesFrom each _ mem
  cases finishCases made done with
  | inl entry =>
    obtain ⟨isClosure, info', merged, found, known, extracted, same⟩ := entry
    cases Except.ok.inj same
    exact ⟨callee.defId, isClosure, known, extracted⟩
  | inr plain =>
    obtain ⟨_, _, _, same⟩ := plain
    cases Except.ok.inj same

theorem assembleFunction (closures : ClosureInfoStorage) (argTys : ArgTys)
    {inst : Instance} (plain : tcx.isClosure inst.defId = false) :
    assemble tcx closures argTys inst = some (.ok (.function inst (argTys.merge
      ⟨(tcx.instantiatedSig inst.defId inst.args).inputs.map TrackedTy.fromTy⟩))) := by
  simp [assemble, inferArgTys, extractArgTys, TyCtxt.instanceTy, plain]

theorem finishFunction (tcx : TyCtxt) (closures : ClosureInfoStorage)
    (self : PartialFunctionInfo) (inst : Instance) (args : ArgTys) (plain : tcx.isClosure inst.defId = false) :
    finish tcx closures self (.function inst args) =
      some (.ok (.function (self.inst.substInstance inst) args)) := by
  simp [finish, PartialFunctionInfo.inst, plain, trackedArgs]

theorem resolveFunction (closures : ClosureInfoStorage) (self : PartialFunctionInfo) {did : DefId}
    {substs : List Ty} (argTys : ArgTys)
    (itself : tcx.resolve did substs = some ⟨.item, did, substs⟩)
    (plain : tcx.isClosure did = false) (available : tcx.isMirAvailable did = true) :
    resolve tcx closures self did substs argTys =
      some (.ok [.function (self.inst.substInstance ⟨.item, did, substs⟩)
        (argTys.merge ⟨(tcx.instantiatedSig did substs).inputs.map TrackedTy.fromTy⟩)]) := by
  have made := @assembleFunction tcx closures argTys ⟨.item, did, substs⟩ plain
  have one : candidates tcx closures did substs argTys = some [.ok (.function ⟨.item, did, substs⟩
      (argTys.merge ⟨(tcx.instantiatedSig did substs).inputs.map TrackedTy.fromTy⟩))] := by
    simp [candidates, itself, available, made]
  have done := finishFunction tcx closures self ⟨.item, did, substs⟩
    (argTys.merge ⟨(tcx.instantiatedSig did substs).inputs.map TrackedTy.fromTy⟩) plain
  simp [resolve, one, finishAll, done]

end PartialFunctionInfo
end Scrutinizer
