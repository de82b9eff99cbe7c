import Scrutinizer.Library.Extension
import Scrutinizer.CollectionRule

/-! What the fuel of a collection means: one with more fuel goes on where one with less stops. A
collection that ends gives the same storages with any larger fuel, and the logs of the others
grow with the fuel. -/
namespace Scrutinizer

namespace Session

theorem growsTrans (s t u : Session) (first : s.Grows t) (second : t.Grows u) : s.Grows u :=
  first.trans second

end Session

namespace Collector
open Exec Session

section
variable {tcx : TyCtxt} {descend descend' : Collector → Exec Session CollectorDomain} {c : Collector}
  {state : CollectorDomain}

theorem extendsStatement (state : CollectorDomain) (statement : Statement) :
    Extends Grows (applyStatementEffect tcx c state statement) (applyStatementEffect tcx c state statement) := by
  cases statement with
  | other => exact extendsPure growsRefl state
  | assign place rvalue =>
    apply (extendsGet growsRefl).bind growsTrans
    intro session
    apply (extendsLift growsRefl _).bind growsTrans
    intro known
    apply (extendsModify growsRefl (growsSetClosures known.2)).bind growsTrans
    exact fun _ => extendsLift growsRefl _

theorem extendsOpaque (defId : DefId) (args : List Operand) (argTys : ArgTys) :
    Extends Grows (processOpaque defId args argTys state) (processOpaque defId args argTys state) := by
  apply (extendsModify growsRefl (growsInsert _)).bind growsTrans
  exact fun _ => extendsPure growsRefl _

theorem extendsIntrinsic (args : List Operand) (argTys : ArgTys) (callee : PartialFunctionInfo) :
    Extends Grows (processIntrinsic tcx args argTys state callee)
      (processIntrinsic tcx args argTys state callee) := by
  apply (extendsModify growsRefl (growsInsert _)).bind growsTrans
  exact fun _ => extendsPure growsRefl _

variable (deeper : ∀ collector, Extends Grows (descend collector) (descend' collector))
include deeper

theorem extendsWithBody (args : List Operand) (callee : PartialFunctionInfo) :
    Extends Grows (processWithBody tcx descend c args state callee)
      (processWithBody tcx descend' c args state callee) := by
  apply (extendsLift growsRefl _).bind growsTrans
  intro body
  apply (extendsLift growsRefl _).bind growsTrans
  intro collector
  apply (extendsGet growsRefl).bind growsTrans
  intro before
  apply (deeper collector).bind growsTrans
  intro results
  apply (extendsModify growsRefl (growsNote _)).bind growsTrans
  intro _
  apply (extendsModify growsRefl (growsInsert _)).bind growsTrans
  intro _
  apply (extendsLift growsRefl _).bind growsTrans
  exact fun _ => extendsPure growsRefl _

theorem extendsCallee (args : List Operand) (argTys : ArgTys) (destination : Option Place)
    (state : CollectorDomain) (callee : PartialFunctionInfo) :
    Extends Grows (processCallee tcx descend c args argTys destination state callee)
      (processCallee tcx descend' c args argTys destination state callee) := by
  apply (extendsModify growsRefl (growsNote _)).bind growsTrans
  intro _
  split
  · exact extendsPure growsRefl state
  · have processed : Extends Grows (processInstance tcx descend c args argTys state callee)
        (processInstance tcx descend' c args argTys state callee) := by
      unfold processInstance
      cases callee.inst.kind with
      | intrinsic | virtual => exact extendsIntrinsic args argTys callee
      | item | shim => exact extendsWithBody deeper args callee
    exact processed.bind growsTrans (fun _ => extendsLift growsRefl _)

theorem extendsProcessCall (functionTy : Ty) (args : List Operand) (argTys : ArgTys)
    (destination : Option Place) :
    Extends Grows (processCall tcx descend c functionTy args argTys state destination)
      (processCall tcx descend' c functionTy args argTys state destination) := by
  unfold processCall
  cases c.currentFunction.substitute functionTy with
  | fnDef defId substs =>
    simp only
    split
    · exact extendsPure growsRefl state
    · apply (extendsGet growsRefl).bind growsTrans
      intro session
      apply (extendsLift growsRefl _).bind growsTrans
      intro plausibleFns
      match plausibleFns with
      | .ok [] => exact extendsOpaque defId args argTys
      | .ok (callee :: callees) =>
        apply (extendsFoldlM growsTrans growsRefl (extendsCallee deeper args argTys destination)
          (callee :: callees) state).bind growsTrans
        intro state
        apply (extendsGet growsRefl).bind growsTrans
        intro after
        apply (extendsModify growsRefl (growsNote _)).bind growsTrans
        exact fun _ => extendsPure growsRefl state
      | .error error =>
        apply (extendsModify growsRefl (growsNote _)).bind growsTrans
        exact fun _ => extendsOpaque defId args argTys
  | _ => exact extendsPure growsRefl _

theorem extendsTerminator (state : CollectorDomain) (terminator : Terminator) :
    Extends Grows (applyTerminatorEffect tcx descend c state terminator)
      (applyTerminatorEffect tcx descend' c state terminator) := by
  cases terminator with
  | call func args destination target unwind =>
    apply (extendsLift growsRefl _).bind growsTrans
    intro functionTy
    apply (extendsLift growsRefl _).bind growsTrans
    exact fun argTys => extendsProcessCall deeper functionTy args argTys (some destination)
  | drop place target unwind =>
    apply (extendsLift growsRefl _).bind growsTrans
    intro placeTy
    cases dropCallee tcx placeTy.ty with
    | none => exact extendsPure growsRefl state
    | some functionTy => exact extendsProcessCall deeper functionTy _ _ none
  | other targets => exact extendsPure growsRefl state

theorem extendsBlock (bb : Nat) (state : CollectorDomain) :
    Extends Grows (applyBlock tcx descend c bb state) (applyBlock tcx descend' c bb state) := by
  apply (extendsLift growsRefl _).bind growsTrans
  intro data
  apply (extendsFoldlM growsTrans growsRefl extendsStatement data.statements state).bind growsTrans
  exact fun state => extendsTerminator deeper state data.terminator

theorem extendsAnalyzeBody {fuel fuel' : Nat} (le : fuel ≤ fuel') :
    Extends Grows (analyzeBody tcx descend fuel c) (analyzeBody tcx descend' fuel' c) := by
  have bottom : Extends Grows (bottomValue tcx c) (bottomValue tcx c) := by
    apply (extendsGet growsRefl).bind growsTrans
    intro session
    apply (extendsLift growsRefl _).bind growsTrans
    intro closures
    apply (extendsModify growsRefl (growsSetClosures closures)).bind growsTrans
    intro _
    apply (extendsLift growsRefl _).bind growsTrans
    exact fun places => extendsPure growsRefl _
  apply bottom.bind growsTrans
  intro start
  have applied : ∀ bb state, Extends Grows ((analysis tcx descend c).apply bb state)
      ((analysis tcx descend' c).apply bb state) := extendsBlock deeper
  exact Analysis.extendsRun growsRefl growsTrans applied rfl rfl le start _ _

end

section
variable (tcx : TyCtxt) {fuel fuel' : Nat}

theorem extendsNext (deeper : ∀ collector, Extends Grows (run tcx fuel collector) (run tcx fuel' collector))
    (le : fuel ≤ fuel') (c : Collector) : Extends Grows (run tcx (fuel + 1) c) (run tcx (fuel' + 1) c) := by
  rw [run, run]
  apply (extendsGet growsRefl).bind growsTrans
  intro session
  cases session.fns.getWithBody c.push.currentFunction.inst with
  | some info => exact extendsLift growsRefl _
  | none => exact extendsAnalyzeBody deeper le

theorem runMore (fuel' : Nat) : ∀ fuel, fuel ≤ fuel' → ∀ c,
    Extends Grows (run tcx fuel c) (run tcx fuel' c) := by
  induction fuel' with
  | zero =>
    intro fuel le c
    cases Nat.le_zero.mp le
    exact extendsFail growsRefl
  | succ fuel' ih =>
    intro fuel le c
    cases fuel with
    | zero => exact extendsFail (extendsNext tcx (ih fuel' (Nat.le_refl _)) (Nat.le_refl _) c).grows
    | succ fuel => exact extendsNext tcx (ih fuel (by omega)) (by omega) c

theorem collectMore (le : fuel ≤ fuel') (inst : Instance) (shallow : Bool) :
    Extends Grows (collect tcx fuel inst shallow) (collect tcx fuel' inst shallow) := by
  apply (extendsLift growsRefl _).bind growsTrans
  intro body
  apply (extendsLift growsRefl _).bind growsTrans
  intro argTys
  apply (extendsLift growsRefl _).bind growsTrans
  intro collector
  apply (runMore tcx fuel' fuel le collector).bind growsTrans
  exact fun results => extendsModify growsRefl (growsInsert _)

theorem collectedMore (le : fuel ≤ fuel') {inst : Instance} {shallow : Bool} {session : Session}
    (ends : collected tcx fuel inst shallow = some session) :
    collected tcx fuel' inst shallow = some session := by
  unfold collected at ends ⊢
  cases ran : collect tcx fuel inst shallow (startSession inst) with
  | mk result t =>
    rw [ran] at ends
    cases result with
    | none => contradiction
    | some done =>
      rw [(collectMore tcx le inst shallow).same _ done t ran]
      exact ends

theorem logMore (le : fuel ≤ fuel') (inst : Instance) (shallow : Bool) :
    (collect tcx fuel inst shallow (startSession inst)).2.log <+:
      (collect tcx fuel' inst shallow (startSession inst)).2.log :=
  ((collectMore tcx le inst shallow).final growsRefl (startSession inst)).log

theorem collectedLog {inst : Instance} {shallow : Bool} {session : Session}
    (ends : collected tcx fuel inst shallow = some session) :
    (collect tcx fuel inst shallow (startSession inst)).2 = session := by
  unfold collected at ends
  cases ran : collect tcx fuel inst shallow (startSession inst) with
  | mk result t =>
    rw [ran] at ends
    cases result with
    | none => contradiction
    | some done => exact Option.some.inj ends

theorem logComplete {inst : Instance} {shallow : Bool} {session : Session}
    (ends : collected tcx fuel inst shallow = some session) (fuel' : Nat) :
    (collect tcx fuel' inst shallow (startSession inst)).2.log <+: session.log := by
  cases Nat.le_total fuel' fuel with
  | inl le =>
    rw [← collectedLog tcx ends]
    exact logMore tcx le inst shallow
  | inr le => rw [collectedLog tcx (collectedMore tcx le ends)]

end
end Collector
end Scrutinizer
