import Scrutinizer.Closures

/-! How the sessions of a collection grow: records and events are added at the end, and a
closure that is registered stays so, with the generic arguments of its first registration. A
call that was resolved once is resolved to the same functions later. -/
namespace Scrutinizer

namespace ClosureInfoStorage

def Within (self other : ClosureInfoStorage) : Prop :=
  ∀ did info, self.get did = some info →
    ∃ info', other.get did = some info' ∧ info'.withSubsts = info.withSubsts

theorem Within.refl (self : ClosureInfoStorage) : self.Within self :=
  fun _ info known => ⟨info, known, rfl⟩

theorem Within.trans {a b c : ClosureInfoStorage} (first : a.Within b) (second : b.Within c) :
    a.Within c := by
  intro did info known
  obtain ⟨info', known', same⟩ := first did info known
  obtain ⟨info'', known'', same'⟩ := second did info' known'
  exact ⟨info'', known'', same'.trans same⟩

theorem withinUpdate {self other : ClosureInfoStorage} {closureTy : Ty} {outer : Instance}
    {upvars : List TrackedTy} (h : self.updateWith closureTy outer upvars = some other) :
    self.Within other := by
  intro did info known
  have applied : Registration.apply self ⟨closureTy, outer, upvars⟩ = some other := h
  rcases Registration.applyGet applied did with ⟨_, same⟩ | ⟨_, unknown, _⟩ |
    ⟨_, info1, info2, known1, added, now⟩
  · exact ⟨info, same.trans known, rfl⟩
  · rw [known] at unknown
    contradiction
  · cases Option.some.inj (known.symm.trans known1)
    refine ⟨info2, now, ?_⟩
    unfold ClosureInfo.addUpvars at added
    split at added
    · cases Option.some.inj added; rfl
    · split at added
      · cases Option.some.inj added; rfl
      · split at added
        · cases Option.some.inj added; rfl
        · cases added

theorem missingUpdate {a a' b b' : ClosureInfoStorage} {closureTy : Ty} {outer : Instance}
    {upvars upvars' : List TrackedTy} (h : a.updateWith closureTy outer upvars = some a')
    (h' : b.updateWith closureTy outer upvars' = some b') {did : DefId}
    (missing : a.get did = none → b.get did = none) : a'.get did = none → b'.get did = none := by
  intro none
  have applied : Registration.apply a ⟨closureTy, outer, upvars⟩ = some a' := h
  have applied' : Registration.apply b ⟨closureTy, outer, upvars'⟩ = some b' := h'
  rcases Registration.applyGet applied did with ⟨no, same⟩ | ⟨_, _, now⟩ | ⟨_, _, _, _, _, now⟩
  · have no' : Registration.closes did ⟨closureTy, outer, upvars'⟩ = false := no
    rcases Registration.applyGet applied' did with ⟨_, same'⟩ | ⟨yes, _⟩ | ⟨yes, _⟩
    · rw [same']
      exact missing (same.symm.trans none)
    · exact absurd (no'.symm.trans yes) (by simp)
    · exact absurd (no'.symm.trans yes) (by simp)
  · exact absurd (none.symm.trans now) (by simp)
  · exact absurd (none.symm.trans now) (by simp)

end ClosureInfoStorage

open ClosureInfoStorage

structure Session.Extends (s t : Session) : Prop where
  grows : s.Grows t
  closures : s.closures.Within t.closures

namespace Session
variable {s t u : Session}

theorem extendsRefl (s : Session) : s.Extends s := ⟨s.growsRefl, .refl _⟩

theorem Extends.trans (first : s.Extends t) (second : t.Extends u) : s.Extends u :=
  ⟨first.grows.trans second.grows, first.closures.trans second.closures⟩

theorem extendsNote (event : Event) (s : Session) : s.Extends (s.note event) :=
  ⟨s.growsNote event, .refl _⟩

theorem extendsInsert (info : FunctionInfo) (s : Session) : s.Extends (s.insert info) :=
  ⟨s.growsInsert info, .refl _⟩

theorem extendsClosures {closures : ClosureInfoStorage} (within : s.closures.Within closures) :
    s.Extends (s.setClosures closures) := ⟨s.growsSetClosures closures, within⟩

theorem Extends.found {inst : Instance} {info : FunctionInfo} (later : s.fns.fns <+: t.fns.fns)
    (found : s.fns.getWithBody inst = some info) : t.fns.getWithBody inst = some info := by
  obtain ⟨more, same⟩ := later
  have first : s.fns.fns.find? (FunctionInfoStorage.isWithBody inst) = some info := found
  rw [FunctionInfoStorage.getWithBody, ← same, List.find?_append, first, Option.some_or]

end Session

namespace Collector
variable {tcx : TyCtxt} {c : Collector}

theorem withinCollect {closures closures' : ClosureInfoStorage}
    (h : c.collectClosures tcx closures = some closures') : closures.Within closures' := by
  unfold collectClosures at h
  generalize tcx.visitedTys c.substitutedBody = tys at h
  induction tys generalizing closures with
  | nil =>
    cases Option.some.inj h
    exact .refl _
  | cons ty rest ih =>
    simp only [List.foldlM_cons, bind, Option.bind_eq_some_iff] at h
    obtain ⟨next, updated, h⟩ := h
    exact (withinUpdate updated).trans (ih h)

theorem withinRvalue {state : CollectorDomain} {closures closures' : ClosureInfoStorage}
    {rvalue : Rvalue} {ty : TrackedTy}
    (h : rvalue.trackedTy tcx c.substitutedBody c.currentFunction.inst state closures =
      some (ty, closures')) : closures.Within closures' := by
  cases rvalueClosures h with
  | inl same => exact same ▸ .refl _
  | inr registered =>
    obtain ⟨did, substs, upvars, updated⟩ := registered
    exact withinUpdate updated

theorem missingCollect {a a' b b' : ClosureInfoStorage} {did : DefId}
    (missing : a.get did = none → b.get did = none) (h : c.collectClosures tcx a = some a')
    (h' : c.collectClosures tcx b = some b') : a'.get did = none → b'.get did = none := by
  unfold collectClosures at h h'
  generalize tcx.visitedTys c.substitutedBody = tys at h h'
  induction tys generalizing a b with
  | nil =>
    cases Option.some.inj h
    cases Option.some.inj h'
    exact missing
  | cons ty rest ih =>
    simp only [List.foldlM_cons, bind, Option.bind_eq_some_iff] at h h'
    obtain ⟨next, updated, h⟩ := h
    obtain ⟨next', updated', h'⟩ := h'
    exact ih (missingUpdate updated updated' missing) h h'

theorem missingRvalue {state : CollectorDomain} {a a' b b' : ClosureInfoStorage} {rvalue : Rvalue}
    {ty ty' : TrackedTy} {did : DefId} (missing : a.get did = none → b.get did = none)
    (h : rvalue.trackedTy tcx c.substitutedBody c.currentFunction.inst state a = some (ty, a'))
    (h' : rvalue.trackedTy tcx c.substitutedBody c.currentFunction.inst state b = some (ty', b')) :
    a'.get did = none → b'.get did = none := by
  cases rvalue with
  | aggregate kind ops =>
    cases kind with
    | closure closureDid substs =>
      simp only [Rvalue.trackedTy, bind, Option.bind_eq_some_iff] at h h'
      obtain ⟨_, _, updated, hu, last⟩ := h
      obtain ⟨_, _, updated', hu', last'⟩ := h'
      cases Option.some.inj last
      cases Option.some.inj last'
      exact missingUpdate hu hu' missing
    | generator did args => cases h
    | array | tuple | adt =>
      simp only [Rvalue.trackedTy, bind, Option.bind_eq_some_iff, Option.some.injEq,
        Prod.mk.injEq] at h h'
      grind
  | _ =>
    simp only [Rvalue.trackedTy, bind, Option.bind_eq_some_iff, Option.some.injEq,
      Prod.mk.injEq] at h h'
    grind

theorem extendsInvariant (tcx : TyCtxt) (start : Session) :
    Invariant tcx (fun _ => True) start.Extends (fun _ _ => True) where
  fitEmpty _ := trivial
  fitMono _ _ _ _ _ := trivial
  fitUnion _ _ _ _ _ := trivial
  fitInsert _ _ _ _ _ := trivial
  fitCached _ _ _ _ _ _ := trivial
  enter _ _ _ _ _ _ := trivial
  closures _ _ _ _ before h := before.trans (Session.extendsClosures (withinCollect h))
  rvalue _ _ _ _ _ _ _ before h := before.trans (Session.extendsClosures (withinRvalue h))
  unresolved _ s _ _ before := before.trans (s.extendsNote _)
  round _ s _ _ before := before.trans (s.extendsNote _)
  withoutBody s _ _ before := before.trans (s.extendsInsert _)
  descended _ _ _ _ _ s _ _ _ _ before _ _ _ _ :=
    (before.trans (s.extendsNote _)).trans (Session.extendsInsert _ _)
  processed _ s _ _ _ _ before _ := before.trans (s.extendsNote _)

theorem wpRunExtends (start : Session) (fuel : Nat) (c : Collector) (s : Session) :
    True → start.Extends s → Exec.wp (run tcx fuel c) (Kept start.Extends (fun _ _ => True) s)
      (fun t => start.Extends t ∧ s.Grows t) s :=
  wpRunCollector (extendsInvariant tcx start) fuel c s

theorem runExtends {fuel : Nat} {s t : Session} {results : CollectorDomain}
    (h : run tcx fuel c s = (some results, t)) : s.Extends t :=
  (Exec.wpResult (wpRunExtends s fuel c s trivial s.extendsRefl) h).1

end Collector

def PartialFunctionInfo.Alike (f f' : PartialFunctionInfo) : Prop :=
  f'.inst = f.inst ∧ f'.trackedArgs = f.trackedArgs

namespace PartialFunctionInfo
variable {tcx : TyCtxt} {closures closures' : ClosureInfoStorage} {self : PartialFunctionInfo}

theorem Alike.stackItem {f f' : PartialFunctionInfo} (h : Alike f f') :
    f'.stackItem = f.stackItem := by
  rw [PartialFunctionInfo.stackItem, PartialFunctionInfo.stackItem, h.1, h.2]

theorem finishedLater (within : closures.Within closures') {argTys : ArgTys} {inst : Instance}
    {fnData f : PartialFunctionInfo} {d' : Except ResolveError PartialFunctionInfo}
    (made : assemble tcx closures argTys inst = some (.ok fnData))
    (done : finish tcx closures self fnData = some (.ok f))
    (made' : assemble tcx closures' argTys inst = some d') :
    ∃ fnData', d' = .ok fnData' ∧ ∀ r', finish tcx closures' self fnData' = some r' →
      ∃ f', r' = .ok f' ∧ Alike f f' := by
  simp only [assemble, bind, Option.bind_eq_some_iff] at made made'
  obtain ⟨inferred, hi, provided, hp, made⟩ := made
  obtain ⟨inferred', hi', provided', hp', made'⟩ := made'
  cases Option.some.inj (hi.symm.trans hi')
  cases Option.some.inj (hp.symm.trans hp')
  cases closure : tcx.isClosure inst.defId with
  | true =>
    simp only [closure, if_true] at made made'
    cases known : closures.get inst.defId with
    | none =>
      rw [known] at made
      cases Option.some.inj made
    | some info =>
      obtain ⟨info', known', same⟩ := within inst.defId info known
      rw [known] at made
      rw [known'] at made'
      cases Except.ok.inj (Option.some.inj made)
      cases Option.some.inj made'
      refine ⟨_, rfl, ?_⟩
      intro r' done'
      simp only [finish, PartialFunctionInfo.inst, closure, if_true, known, known', closureInfo, bind,
        Option.bind_some, Option.bind_eq_some_iff, trackedArgs] at done done'
      obtain ⟨found, hf, last⟩ := done
      obtain ⟨found', hf', last'⟩ := done'
      cases Except.ok.inj (Option.some.inj last)
      cases Option.some.inj last'
      rw [ClosureInfo.extractInstance, same, ← ClosureInfo.extractInstance, hf] at hf'
      cases Option.some.inj hf'
      exact ⟨_, rfl, rfl, rfl⟩
  | false =>
    simp only [closure, Bool.false_eq_true, if_false, Option.some.injEq, Except.ok.injEq] at made made'
    subst made made'
    refine ⟨_, rfl, ?_⟩
    intro r' done'
    simp only [finish, PartialFunctionInfo.inst, closure, Bool.false_eq_true, if_false,
      Option.some.injEq, Except.ok.injEq] at done done'
    subst done done'
    exact ⟨_, rfl, rfl, rfl⟩

theorem finishedAllLater (within : closures.Within closures') {argTys : ArgTys} {insts : List Instance}
    {ds ds' : List (Except ResolveError PartialFunctionInfo)}
    (made : List.Forall₂ (fun inst d => assemble tcx closures argTys inst = some d) insts ds)
    (made' : List.Forall₂ (fun inst d => assemble tcx closures' argTys inst = some d) insts ds') :
    ∀ {fns : List PartialFunctionInfo} {r' : Except ResolveError (List PartialFunctionInfo)},
      finishAll tcx closures self ds = some (.ok fns) → finishAll tcx closures' self ds' = some r' →
        ∃ fns', r' = .ok fns' ∧ List.Forall₂ Alike fns fns' := by
  induction made generalizing ds' with
  | nil =>
    intro fns r' done done'
    cases made'
    cases Except.ok.inj (Option.some.inj done)
    cases Option.some.inj done'
    exact ⟨[], rfl, .nil⟩
  | @cons inst d insts ds first rest ih =>
    intro fns r' done done'
    cases made' with
    | cons first' rest' =>
      cases finishAllOk done with
      | cons head tail =>
        obtain ⟨fnData, rfl, finished⟩ := head
        obtain ⟨fnData', rfl, later⟩ := finishedLater within first finished first'
        simp only [finishAll, finished, bind, Option.bind_some, Option.bind_eq_some_iff] at done done'
        obtain ⟨others, ho, done⟩ := done
        obtain ⟨head', hh, done'⟩ := done'
        obtain ⟨f', rfl, alike⟩ := later head' hh
        simp only [Option.bind_eq_some_iff] at done'
        obtain ⟨others', ho', done'⟩ := done'
        cases others with
        | error e => cases Option.some.inj done
        | ok fns =>
          cases Except.ok.inj (Option.some.inj done)
          obtain ⟨fns', rfl, each⟩ := ih rest' ho ho'
          cases Option.some.inj done'
          exact ⟨_, rfl, .cons alike each⟩

theorem candidatesBoth {did : DefId} {substs : List Ty} {argTys : ArgTys}
    {ds ds' : List (Except ResolveError PartialFunctionInfo)}
    (made : candidates tcx closures did substs argTys = some ds)
    (made' : candidates tcx closures' did substs argTys = some ds') :
    ∃ insts, List.Forall₂ (fun inst d => assemble tcx closures argTys inst = some d) insts ds ∧
      List.Forall₂ (fun inst d => assemble tcx closures' argTys inst = some d) insts ds' := by
  simp only [candidates] at made made'
  split at made
  · rename_i available
    simp only [available, if_true, bind, Option.bind_eq_some_iff] at made made'
    obtain ⟨callee, found, one, ho, last⟩ := made
    obtain ⟨callee', found', one', ho', last'⟩ := made'
    cases Option.some.inj last
    cases Option.some.inj last'
    cases Option.some.inj (found.symm.trans found')
    exact ⟨[callee], .cons ho .nil, .cons ho' .nil⟩
  · rename_i missing
    rw [if_neg missing] at made'
    exact ⟨_, MapM.someIff.mp made, MapM.someIff.mp made'⟩

theorem resolvedLater (within : closures.Within closures') {did : DefId} {substs : List Ty}
    {argTys : ArgTys} {fns : List PartialFunctionInfo}
    {r' : Except ResolveError (List PartialFunctionInfo)}
    (h : resolve tcx closures self did substs argTys = some (.ok fns))
    (h' : resolve tcx closures' self did substs argTys = some r') :
    ∃ fns', r' = .ok fns' ∧ List.Forall₂ Alike fns fns' := by
  simp only [resolve, bind, Option.bind_eq_some_iff] at h h'
  obtain ⟨ds, made, done⟩ := h
  obtain ⟨ds', made', done'⟩ := h'
  obtain ⟨insts, each, each'⟩ := candidatesBoth made made'
  exact finishedAllLater within each each' done done'

theorem assembleError {argTys : ArgTys} {inst : Instance} {error : ResolveError}
    (h : assemble tcx closures argTys inst = some (.error error)) :
    error.defId = inst.defId ∧ closures.get error.defId = none ∧
      ∀ (later : ClosureInfoStorage) d', later.get error.defId = none →
        assemble tcx later argTys inst = some d' → d' = .error error := by
  simp only [assemble, bind, Option.bind_eq_some_iff] at h
  obtain ⟨inferred, hi, provided, hp, h⟩ := h
  split at h
  · rename_i closure
    split at h
    · cases Option.some.inj h
    · rename_i unknown
      cases Except.error.inj (Option.some.inj h)
      refine ⟨rfl, unknown, ?_⟩
      intro later d' missing h'
      have none : later.get inst.defId = none := missing
      simp only [assemble, hi, hp, closure, if_true, none, bind, Option.bind_some,
        Option.some.injEq] at h'
      exact h'.symm
  · cases Option.some.inj h

theorem failedLater {did : DefId} {substs : List Ty} {argTys : ArgTys} {error : ResolveError}
    (h : resolve tcx closures self did substs argTys = some (.error error)) :
    closures.get error.defId = none ∧
      ∀ r', closures'.get error.defId = none →
        resolve tcx closures' self did substs argTys = some r' → ∃ error', r' = .error error' := by
  simp only [resolve, bind, Option.bind_eq_some_iff] at h
  obtain ⟨ds, made, failed⟩ := h
  have there : .error error ∈ ds := by
    cases finishAllError failed with
    | inl mem => exact mem
    | inr finished =>
      obtain ⟨fnData, mem, done⟩ := finished
      obtain ⟨inst, assembled, _⟩ := candidatesFrom made _ mem
      rcases finishCases assembled done with ⟨_, _, _, _, _, _, same⟩ | ⟨_, _, _, same⟩
      · cases same
      · cases same
  have again : ∀ ds', candidates tcx closures' did substs argTys = some ds' →
      closures'.get error.defId = none → .error error ∈ ds' := by
    intro ds' made' missing
    obtain ⟨insts, each, each'⟩ := candidatesBoth made made'
    obtain ⟨inst, mem, ho⟩ := MapM.memRight each _ there
    obtain ⟨one', mem', ho'⟩ := MapM.memLeft each' inst mem
    rw [(assembleError ho).2.2 closures' one' missing ho'] at mem'
    exact mem'
  obtain ⟨inst, assembled, _⟩ := candidatesFrom made _ there
  refine ⟨(assembleError assembled).2.1, ?_⟩
  intro r' missing h'
  simp only [resolve, bind, Option.bind_eq_some_iff] at h'
  obtain ⟨ds', made', done'⟩ := h'
  cases r' with
  | error error' => exact ⟨error', rfl⟩
  | ok fns =>
    obtain ⟨_, _, _, same, _⟩ := MapM.memLeft (finishAllOk done') _ (again ds' made' missing)
    cases same

end PartialFunctionInfo
end Scrutinizer
