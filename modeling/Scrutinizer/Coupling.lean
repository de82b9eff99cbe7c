import Scrutinizer.Library.Coupled
import Scrutinizer.SessionGrowth

/-! Two analyses of one body side by side: they are given the same function, come from different
sessions and descend with different fuel. Where the sessions agree on what the analysis reads
from them, the two go through the same states. -/
namespace Scrutinizer
open Exec

theorem Rvalue.trackedTySame {tcx : TyCtxt} {body : Body} {inst : Instance} {state : CollectorDomain}
    {rvalue : Rvalue} {before before' after after' : ClosureInfoStorage} {ty ty' : TrackedTy}
    (h : rvalue.trackedTy tcx body inst state before = some (ty, after))
    (h' : rvalue.trackedTy tcx body inst state before' = some (ty', after')) : ty' = ty := by
  cases rvalue with
  | aggregate kind ops =>
    cases kind <;>
    · simp only [Rvalue.trackedTy, bind, Option.bind_eq_some_iff, Option.some.injEq, Prod.mk.injEq] at h h'
      grind
  | _ =>
    simp only [Rvalue.trackedTy, bind, Option.bind_eq_some_iff, Option.some.injEq, Prod.mk.injEq] at h h'
    grind

namespace Collector

/- What makes the analyses of two collectors agree, step by step. `Before` tells the sessions
of the first analysis, `R` relates those of the two, and `Same` the callees they resolve. -/
structure Coupling (tcx : TyCtxt) (c c' : Collector) (fuel fuel' : Nat) (Before : Session → Prop)
    (R : Session → Session → Prop) (Same : PartialFunctionInfo → PartialFunctionInfo → Prop) : Prop where
  function : c'.currentFunction = c.currentFunction
  body : c'.substitutedBody = c.substitutedBody
  shallow : c'.shallow = c.shallow
  before : ∀ s t, s.Extends t → Before t → Before s
  note : ∀ s s' e e', R s s' → R (s.note e) (s'.note e')
  withoutBody : ∀ s s' did args, R s s' →
    R (s.insert (.withoutBody did args)) (s'.insert (.withoutBody did args))
  closures : ∀ s s' closures closures', R s s' →
    c.collectClosures tcx s.closures = some closures →
    c'.collectClosures tcx s'.closures = some closures' →
    R (s.setClosures closures) (s'.setClosures closures')
  rvalue : ∀ s s' state (rvalue : Rvalue) ty ty' closures closures', R s s' →
    rvalue.trackedTy tcx c.substitutedBody c.currentFunction.inst state s.closures =
      some (ty, closures) →
    rvalue.trackedTy tcx c'.substitutedBody c'.currentFunction.inst state s'.closures =
      some (ty', closures') →
    R (s.setClosures closures) (s'.setClosures closures')
  alike : ∀ (callee callee' : PartialFunctionInfo), Same callee callee' → callee.Alike callee'
  skip : ∀ (s : Session) (callee : PartialFunctionInfo) skipped, Before (s.note (.round c callee skipped)) →
    (callee.stackItem ∈ c.virtualStack ↔ callee.stackItem ∈ c'.virtualStack)
  resolved : ∀ s s' did substs argTys fns r', Before s → R s s' →
    c.currentFunction.resolve tcx s.closures did substs argTys = some (.ok fns) →
    c'.currentFunction.resolve tcx s'.closures did substs argTys = some r' →
    ∃ fns', r' = .ok fns' ∧ List.Forall₂ Same fns fns'
  failed : ∀ s s' did substs argTys error r', Before (s.note (.unresolved c error)) → R s s' →
    c.currentFunction.resolve tcx s.closures did substs argTys = some (.error error) →
    c'.currentFunction.resolve tcx s'.closures did substs argTys = some r' →
    ∃ error', r' = .error error'
  descends : ∀ callee callee' args state, Same callee callee' →
    Coupled Before R (processWithBody tcx (run tcx fuel) c args state callee)
      (processWithBody tcx (run tcx fuel') c' args state callee') Eq

section
variable {tcx : TyCtxt} {c c' : Collector} {fuel fuel' : Nat} {Before : Session → Prop}
  {R : Session → Session → Prop} {Same : PartialFunctionInfo → PartialFunctionInfo → Prop}
  (coupling : Coupling tcx c c' fuel fuel' Before R Same)
include coupling

theorem Coupling.backward {α : Type} {m : Exec Session α}
    (grows : ∀ s, Exec.wp m (fun _ t => s.Extends t) (fun _ => True) s) : Backward Before m := by
  intro s a t h before
  have extends_ := Exec.wpResult (grows s) h
  exact coupling.before s t extends_ before

theorem Coupling.defId : c'.defId = c.defId := by
  rw [Collector.defId, Collector.defId, coupling.function]

theorem Coupling.assignSame (destination : Option Place) (ty : TrackedTy) (state : CollectorDomain) :
    assignResult tcx c' destination ty state = assignResult tcx c destination ty state := by
  cases destination with
  | none => rfl
  | some place => simp only [assignResult, coupling.body, coupling.defId]

theorem backwardStatement (state : CollectorDomain) (statement : Statement) :
    Backward Before (applyStatementEffect tcx c state statement) := by
  refine coupling.backward (fun s => ?_)
  exact Exec.wpMono (wpStatement (extendsInvariant tcx s) trivial s.extendsRefl trivial statement)
    (fun _ _ kept => kept.1) (fun _ _ => trivial)

theorem coupledStatement (state : CollectorDomain) (statement : Statement) :
    Coupled Before R (applyStatementEffect tcx c state statement)
      (applyStatementEffect tcx c' state statement) Eq := by
  cases statement with
  | other => exact coupledPure rfl
  | assign place rvalue =>
    intro s s' a t b t' h h' _ related
    simp only [applyStatementEffect, bindSome, getSome, liftSome, modifySome] at h h'
    obtain ⟨_, _, ⟨rfl, rfl⟩, ⟨ty, closures⟩, _, ⟨tracked, rfl⟩, _, _, rfl, updated, rfl⟩ := h
    obtain ⟨_, _, ⟨rfl, rfl⟩, ⟨ty', closures'⟩, _, ⟨tracked', rfl⟩, _, _, rfl, updated', rfl⟩ := h'
    refine ⟨coupling.rvalue _ _ state rvalue ty ty' closures closures' related tracked tracked', ?_⟩
    rw [coupling.body, coupling.function] at tracked'
    have same := Rvalue.trackedTySame tracked tracked'
    rw [coupling.body, coupling.defId] at updated'
    simp only [same] at updated'
    exact Option.some.inj (updated.symm.trans updated')

theorem coupledIntrinsic {callee callee' : PartialFunctionInfo} (same : callee'.inst = callee.inst)
    (args : List Operand) (argTys : ArgTys) (state : CollectorDomain) :
    Coupled Before R (processIntrinsic tcx args argTys state callee)
      (processIntrinsic tcx args argTys state callee') Eq := by
  intro s s' a t b t' h h' _ related
  simp only [processIntrinsic, bindSome, modifySome, pureSome] at h h'
  obtain ⟨_, _, rfl, rfl, rfl⟩ := h
  obtain ⟨_, _, rfl, rfl, rfl⟩ := h'
  rw [same]
  exact ⟨coupling.withoutBody _ _ _ _ related, rfl⟩

theorem coupledInstance {callee callee' : PartialFunctionInfo} (same : Same callee callee')
    (args : List Operand) (argTys : ArgTys) (state : CollectorDomain) :
    Coupled Before R (processInstance tcx (run tcx fuel) c args argTys state callee)
      (processInstance tcx (run tcx fuel') c' args argTys state callee') Eq := by
  have inst := (coupling.alike callee callee' same).1
  unfold processInstance
  rw [inst]
  cases callee.inst.kind with
  | intrinsic | virtual => exact coupledIntrinsic coupling inst args argTys state
  | item | shim => exact coupling.descends callee callee' args state same

theorem backwardCallee (args : List Operand) (argTys : ArgTys) (destination : Option Place)
    (state : CollectorDomain) (callee : PartialFunctionInfo) :
    Backward Before (processCallee tcx (run tcx fuel) c args argTys destination state callee) := by
  refine coupling.backward (fun s => ?_)
  exact Exec.wpMono (wpCallee (extendsInvariant tcx s) trivial s.extendsRefl trivial
    (wpRunExtends s fuel) callee) (fun _ _ kept => kept.1.1) (fun _ _ => trivial)

theorem coupledCallee (args : List Operand) (argTys : ArgTys) (destination : Option Place)
    (state : CollectorDomain) (callee callee' : PartialFunctionInfo) (same : Same callee callee') :
    Coupled Before R (processCallee tcx (run tcx fuel) c args argTys destination state callee)
      (processCallee tcx (run tcx fuel') c' args argTys destination state callee') Eq := by
  intro s s' a t b t' h h' before related
  have item := (coupling.alike callee callee' same).stackItem
  rw [processCallee, bindSome] at h h'
  obtain ⟨_, u, noted, h⟩ := h
  obtain ⟨_, u', noted', h'⟩ := h'
  rw [modifySome] at noted noted'
  subst noted noted'
  have later : Backward Before (if decide (callee.stackItem ∈ c.virtualStack) then pure state else do
      let processed ← processInstance tcx (run tcx fuel) c args argTys state callee
      Exec.lift (assignResult tcx c destination processed.2 processed.1)) := by
    split
    · exact backwardLift (some state)
    · rename_i off
      refine coupling.backward (fun s => ?_)
      rw [Exec.wpBind]
      refine Exec.wpMono (wpInstance (extendsInvariant tcx s) trivial s.extendsRefl trivial
        (by simpa using off) (wpRunExtends s fuel)) ?_ (fun _ _ => trivial)
      intro out t round
      rw [Exec.wpLift]
      exact ⟨fun _ _ => round.1.1, fun _ => trivial⟩
  have noted := later _ a t h before
  have agree := coupling.skip s callee _ noted
  have related := coupling.note s s' (.round c callee (decide (callee.stackItem ∈ c.virtualStack)))
    (.round c' callee' (decide (callee'.stackItem ∈ c'.virtualStack))) related
  rw [item] at h'
  by_cases on : callee.stackItem ∈ c.virtualStack
  · rw [if_pos (by simpa using on), pureSome] at h
    rw [if_pos (by simpa using agree.mp on), pureSome] at h'
    obtain ⟨rfl, rfl⟩ := h
    obtain ⟨rfl, rfl⟩ := h'
    exact ⟨item ▸ related, rfl⟩
  · rw [if_neg (by simpa using on)] at h
    rw [if_neg (by simpa using fun mem => on (agree.mpr mem))] at h'
    refine coupledBind (coupledInstance coupling same args argTys state) (fun _ => backwardLift _) ?_
      _ _ a t b t' h h' before (item ▸ related)
    intro out out' equal
    subst equal
    rw [coupling.assignSame]
    exact coupledSame _

theorem coupledOpaque (did : DefId) (args : List Operand) (argTys : ArgTys) (state : CollectorDomain) :
    Coupled Before R (processOpaque did args argTys state) (processOpaque did args argTys state) Eq := by
  intro s s' a t b t' h h' _ related
  simp only [processOpaque, bindSome, modifySome, pureSome] at h h'
  obtain ⟨_, _, rfl, rfl, rfl⟩ := h
  obtain ⟨_, _, rfl, rfl, rfl⟩ := h'
  exact ⟨coupling.withoutBody _ _ _ _ related, rfl⟩

theorem coupledCallees (args : List Operand) (argTys : ArgTys) (destination : Option Place)
    (state : CollectorDomain) {fns fns' : List PartialFunctionInfo} (same : List.Forall₂ Same fns fns') :
    Coupled Before R (do
        let state ← fns.foldlM (processCallee tcx (run tcx fuel) c args argTys destination) state
        let after ← Exec.get
        Exec.modify (Session.note (.processed c fns state after.fns))
        pure state)
      (do
        let state ← fns'.foldlM (processCallee tcx (run tcx fuel') c' args argTys destination) state
        let after ← Exec.get
        Exec.modify (Session.note (.processed c' fns' state after.fns))
        pure state) Eq := by
  refine coupledBind (coupledFoldlM (backwardCallee coupling args argTys destination)
    (coupledCallee coupling args argTys destination) same state) ?_ ?_
  · intro state
    refine coupling.backward (fun s => ?_)
    simp only [Exec.wpBind, Exec.wpGet, Exec.wpModify, Exec.wpPure]
    exact s.extendsNote _
  · intro state state' equal s s' a t b t' h h' _ related
    subst equal
    simp only [bindSome, getSome, modifySome, pureSome] at h h'
    obtain ⟨_, _, ⟨rfl, rfl⟩, _, _, rfl, rfl, rfl⟩ := h
    obtain ⟨_, _, ⟨rfl, rfl⟩, _, _, rfl, rfl, rfl⟩ := h'
    exact ⟨coupling.note _ _ _ _ related, rfl⟩

theorem backwardProcessCall (functionTy : Ty) (args : List Operand) (argTys : ArgTys)
    (state : CollectorDomain) (destination : Option Place) :
    Backward Before (processCall tcx (run tcx fuel) c functionTy args argTys state destination) := by
  refine coupling.backward (fun s => ?_)
  exact Exec.wpMono (wpProcessCall (extendsInvariant tcx s) trivial s.extendsRefl trivial
    (wpRunExtends s fuel)) (fun _ _ kept => kept.1) (fun _ _ => trivial)

theorem coupledProcessCall (functionTy : Ty) (args : List Operand) (argTys : ArgTys)
    (state : CollectorDomain) (destination : Option Place) :
    Coupled Before R (processCall tcx (run tcx fuel) c functionTy args argTys state destination)
      (processCall tcx (run tcx fuel') c' functionTy args argTys state destination) Eq := by
  intro s s' a t b t' h h' before related
  have earlier := backwardProcessCall coupling functionTy args argTys state destination s a t h before
  cases called : c.currentFunction.substitute functionTy with
  | fnDef did substs =>
    simp only [processCall, coupling.function, coupling.shallow, called] at h h'
    cases outside : !tcx.isLocal did && c.shallow with
    | true =>
      simp only [outside, if_true, pureSome] at h h'
      obtain ⟨rfl, rfl⟩ := h
      obtain ⟨rfl, rfl⟩ := h'
      exact ⟨related, rfl⟩
    | false =>
      simp only [outside, Bool.false_eq_true, if_false, bindSome, getSome, liftSome] at h h'
      obtain ⟨_, _, ⟨rfl, rfl⟩, fns, _, ⟨found, rfl⟩, h⟩ := h
      obtain ⟨_, _, ⟨rfl, rfl⟩, fns', _, ⟨found', rfl⟩, h'⟩ := h'
      rw [← coupling.function] at found'
      cases fns with
      | error error =>
        simp only [bindSome, modifySome] at h
        obtain ⟨_, u, rfl, h⟩ := h
        have stops : Backward Before (processOpaque did args argTys state) := by
          refine coupling.backward (fun s => ?_)
          simp only [processOpaque, Exec.wpBind, Exec.wpModify, Exec.wpPure]
          exact s.extendsInsert _
        obtain ⟨error', rfl⟩ :=
          coupling.failed s s' did substs argTys error fns' (stops _ a t h before) related found found'
        simp only [bindSome, modifySome] at h'
        obtain ⟨_, u', rfl, h'⟩ := h'
        exact coupledOpaque coupling did args argTys state _ _ a t b t' h h' before
          (coupling.note _ _ _ _ related)
      | ok fns =>
        obtain ⟨others, rfl, same⟩ :=
          coupling.resolved s s' did substs argTys fns fns' earlier related found found'
        cases same with
        | nil => exact coupledOpaque coupling did args argTys state s s' a t b t' h h' before related
        | cons first rest =>
          exact coupledCallees coupling args argTys destination state (.cons first rest)
            s s' a t b t' h h' before related
  | _ =>
    simp only [processCall, coupling.function, called, pureSome] at h h'
    obtain ⟨rfl, rfl⟩ := h
    obtain ⟨rfl, rfl⟩ := h'
    exact ⟨related, rfl⟩

theorem backwardTerminator (state : CollectorDomain) (terminator : Terminator) :
    Backward Before (applyTerminatorEffect tcx (run tcx fuel) c state terminator) := by
  refine coupling.backward (fun s => ?_)
  exact Exec.wpMono (wpTerminator (extendsInvariant tcx s) trivial s.extendsRefl trivial
    (wpRunExtends s fuel) terminator) (fun _ _ kept => kept.1) (fun _ _ => trivial)

theorem coupledTerminator (state : CollectorDomain) (terminator : Terminator) :
    Coupled Before R (applyTerminatorEffect tcx (run tcx fuel) c state terminator)
      (applyTerminatorEffect tcx (run tcx fuel') c' state terminator) Eq := by
  cases terminator with
  | call func args destination target unwind =>
    rw [applyTerminatorEffect, applyTerminatorEffect, coupling.body, coupling.defId]
    have ends := fun functionTy argTys =>
      backwardProcessCall coupling functionTy args argTys state (some destination)
    refine coupledBind (coupledSame _) (fun functionTy => backwardBind (backwardLift _) (ends functionTy)) ?_
    intro functionTy functionTy' equal
    subst equal
    refine coupledBind (coupledSame _) (ends functionTy) ?_
    intro argTys argTys' equal
    subst equal
    exact coupledProcessCall coupling functionTy args argTys state (some destination)
  | drop place target unwind =>
    rw [applyTerminatorEffect, applyTerminatorEffect, coupling.body]
    refine coupledBind (coupledSame _) ?_ ?_
    · intro placeTy
      split
      · exact backwardProcessCall coupling _ _ _ state none
      · exact backwardLift (some state)
    · intro placeTy placeTy' equal
      subst equal
      split
      · exact coupledProcessCall coupling _ _ _ state none
      · exact coupledPure rfl
  | other targets => exact coupledPure rfl

theorem backwardBlock (bb : Nat) (state : CollectorDomain) :
    Backward Before (applyBlock tcx (run tcx fuel) c bb state) := by
  refine backwardBind (backwardLift _) (fun data => backwardBind ?_ (fun state => ?_))
  · exact backwardFoldlM (backwardStatement coupling) _ state
  · exact backwardTerminator coupling state _

theorem coupledBlock (bb : Nat) (state : CollectorDomain) :
    Coupled Before R (applyBlock tcx (run tcx fuel) c bb state)
      (applyBlock tcx (run tcx fuel') c' bb state) Eq := by
  rw [applyBlock, applyBlock, coupling.body]
  refine coupledBind (coupledSame _) (fun data => backwardBind
    (backwardFoldlM (backwardStatement coupling) _ state) (fun state => backwardTerminator coupling state _)) ?_
  intro data data' equal
  subst equal
  have each : List.Forall₂ Eq data.statements data.statements := List.forall₂_same.mpr (fun _ _ => rfl)
  refine coupledBind (coupledFoldlM (backwardStatement coupling)
    (fun state x y same => same ▸ coupledStatement coupling state x) each state)
    (fun state => backwardTerminator coupling state _) ?_
  intro after after' equal
  subst equal
  exact coupledTerminator coupling after data.terminator

theorem coupledBottom : Coupled Before R (bottomValue tcx c) (bottomValue tcx c') Eq := by
  intro s s' a t b t' h h' _ related
  simp only [bottomValue, bindSome, getSome, liftSome, modifySome, pureSome] at h h'
  obtain ⟨_, _, ⟨rfl, rfl⟩, closures, _, ⟨collected, rfl⟩, _, _, rfl, places, _, ⟨initial, rfl⟩, rfl, rfl⟩ := h
  obtain ⟨_, _, ⟨rfl, rfl⟩, closures', _, ⟨collected', rfl⟩, _, _, rfl, places', _, ⟨initial', rfl⟩, rfl, rfl⟩ := h'
  have each : declaredPlace tcx c' = declaredPlace tcx c := by
    funext place
    simp only [declaredPlace, coupling.body, coupling.defId]
  have same : initialPlaces tcx c' = initialPlaces tcx c := by
    simp only [initialPlaces, each, coupling.function, coupling.body, coupling.defId]
  rw [same] at initial'
  exact ⟨coupling.closures _ _ _ _ related collected collected',
    congrArg CollectorDomain.new (Option.some.inj (initial.symm.trans initial'))⟩

theorem coupledBody (rounds rounds' : Nat) :
    Coupled Before R (analyzeBody tcx (run tcx fuel) rounds c)
      (analyzeBody tcx (run tcx fuel') rounds' c') Eq := by
  rw [analyzeBody, analyzeBody, coupling.body]
  refine coupledBind (coupledBottom coupling)
    (fun bottom => Analysis.backwardRun (backwardBlock coupling) rounds bottom _ _) ?_
  intro bottom bottom' equal
  subst equal
  have edges : (analysis tcx (run tcx fuel') c').edges = (analysis tcx (run tcx fuel) c).edges := by
    simp only [analysis, coupling.body]
  have join : (analysis tcx (run tcx fuel') c').join = (analysis tcx (run tcx fuel) c).join := rfl
  exact Analysis.coupledRun (backwardBlock coupling) join (coupledBlock coupling) edges rounds rounds'
    bottom _ _

end
end Collector
end Scrutinizer
