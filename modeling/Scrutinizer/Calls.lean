import Scrutinizer.Collector

/-! The calls that the analysis of a call adds to the state: one for each plausible function
that is not on the stack, whatever the descents do. -/
namespace Scrutinizer

namespace Collector

def calleeKey (callee : PartialFunctionInfo) : FunctionInfo.Key :=
  match callee.inst.kind with
  | .intrinsic | .virtual => .withoutBody callee.inst.defId
  | _ => .withBody callee.inst

def calleeCall (callee : PartialFunctionInfo) (args : List Operand) : FunctionCall :=
  match callee.inst.kind with
  | .intrinsic | .virtual => .withoutBody callee.inst.defId args
  | _ => .withBody callee.inst args

theorem calleeCallWithoutBody {callee : PartialFunctionInfo} {args : List Operand} {did : DefId} :
    calleeCall callee args = .withoutBody did args ↔
      (callee.inst.kind = .intrinsic ∨ callee.inst.kind = .virtual) ∧ callee.inst.defId = did := by
  unfold calleeCall
  cases callee.inst.kind <;> simp

variable {tcx : TyCtxt} {descend : Collector → Exec Session CollectorDomain} {c : Collector}
  {s : Session} {state : CollectorDomain}

theorem assignResultUpdates {destination : Option Place} {ty : TrackedTy} {state' : CollectorDomain}
    (h : assignResult tcx c destination ty state = some state') :
    state'.calls = state.calls ∧ state'.unhandled = state.unhandled := by
  cases destination with
  | none =>
    cases Option.some.inj h
    exact ⟨rfl, rfl⟩
  | some place =>
    simp only [assignResult, Exec.toOptionSome] at h
    exact CollectorDomain.updateWithCalls h

theorem assignResultCalls {destination : Option Place} {ty : TrackedTy} {state' : CollectorDomain}
    (h : assignResult tcx c destination ty state = some state') : state'.calls = state.calls :=
  (assignResultUpdates h).1

def Quiet (s : Session) (state state' : CollectorDomain) (t : Session) : Prop :=
  t.fns = s.fns ∧ state'.calls = state.calls ∧ state'.unhandled = state.unhandled

theorem wpStatementQuiet (statement : Statement) :
    Exec.wp (applyStatementEffect tcx c state statement) (Quiet s state) (fun _ => True) s := by
  cases statement with
  | other => exact ⟨rfl, rfl, rfl⟩
  | assign place rvalue =>
    simp only [applyStatementEffect, Exec.wpBind, Exec.wpGet, Exec.wpLift, Exec.wpModify,
      implies_true, and_true]
    intro pair _ state' updated
    exact ⟨rfl, @assignResultUpdates tcx c state (some place) _ _ updated⟩

theorem wpStatementsQuiet (statements : List Statement) :
    Exec.wp (statements.foldlM (applyStatementEffect tcx c) state) (Quiet s state) (fun _ => True) s := by
  refine Exec.wpFoldlM (fun _ state' t => Quiet s state state' t) ?_ statements state s ⟨rfl, rfl, rfl⟩
  intro statement rest state' t before
  refine Exec.wpMono (wpStatementQuiet statement) ?_ (fun _ h => h)
  intro state'' u now
  exact ⟨now.1.trans before.1, now.2.1.trans before.2.1, now.2.2.trans before.2.2⟩

/- What is known of a plausible function whose round came back: it has a body, if it is one of
those that are analysed. -/
def Entered (tcx : TyCtxt) (callee : PartialFunctionInfo) : Prop :=
  calleeKey callee = .withBody callee.inst → (tcx.substitutedMir callee.inst).isSome = true

theorem wpInstanceCalls (args : List Operand) (argTys : ArgTys) (callee : PartialFunctionInfo) :
    Exec.wp (processInstance tcx descend c args argTys state callee)
      (fun out _ => out.1.calls = insert (calleeCall callee args) state.calls ∧ Entered tcx callee)
      (fun _ => True) s := by
  have withBody : calleeCall callee args = .withBody callee.inst args →
      Exec.wp (processWithBody tcx descend c args state callee)
        (fun out _ => out.1.calls = insert (calleeCall callee args) state.calls ∧ Entered tcx callee)
        (fun _ => True) s := by
    intro call
    simp only [processWithBody, Exec.wpBind, Exec.wpLift, Exec.wpGet]
    refine ⟨fun body hb => ⟨fun collector _ => ?_, fun _ => trivial⟩, fun _ => trivial⟩
    have entered : Entered tcx callee := fun _ => by rw [hb]; rfl
    refine Exec.wpMono (Exec.wpAny _ _) ?_ (fun _ _ => trivial)
    intro results t _
    simp only [Exec.wpModify, Exec.wpPure, call]
    exact ⟨fun _ _ => ⟨rfl, entered⟩, fun _ => trivial⟩
  unfold processInstance
  cases kind : callee.inst.kind with
  | intrinsic | virtual =>
    simp [processIntrinsic, CollectorDomain.addCall, calleeCall, Entered, calleeKey, kind]
  | item | shim => exact withBody (by simp [calleeCall, kind])

theorem wpCalleeCalls (args : List Operand) (argTys : ArgTys) (destination : Option Place)
    (callee : PartialFunctionInfo) :
    Exec.wp (processCallee tcx descend c args argTys destination state callee)
      (fun state' _ =>
        (callee.stackItem ∈ c.virtualStack → state'.calls = state.calls) ∧
        (callee.stackItem ∉ c.virtualStack →
          state'.calls = insert (calleeCall callee args) state.calls ∧ Entered tcx callee))
      (fun _ => True) s := by
  simp only [processCallee, Exec.wpBind, Exec.wpModify]
  by_cases on : callee.stackItem ∈ c.virtualStack
  · simp [on]
  · rw [if_neg (by simpa using on), Exec.wpBind]
    refine Exec.wpMono (wpInstanceCalls args argTys callee) ?_ (fun _ _ => trivial)
    intro out t h
    rw [Exec.wpLift]
    refine ⟨fun state' ha => ⟨fun mem => absurd mem on, fun _ => ?_⟩, fun _ => trivial⟩
    exact ⟨(assignResultCalls ha).trans h.1, h.2⟩

structure CallsAfter (tcx : TyCtxt) (c : Collector) (args : List Operand)
    (plausibleFns : List PartialFunctionInfo) (before after : Finset FunctionCall) : Prop where
  calls : ∀ call, call ∈ after ↔ call ∈ before ∨
    ∃ callee ∈ plausibleFns, callee.stackItem ∉ c.virtualStack ∧ call = calleeCall callee args
  entered : ∀ callee ∈ plausibleFns, callee.stackItem ∉ c.virtualStack → Entered tcx callee

theorem wpCalleesCalls (args : List Operand) (argTys : ArgTys) (destination : Option Place)
    (plausibleFns : List PartialFunctionInfo) : ∀ (state : CollectorDomain) (s : Session),
    Exec.wp (plausibleFns.foldlM (processCallee tcx descend c args argTys destination) state)
      (fun state' _ => CallsAfter tcx c args plausibleFns state.calls state'.calls)
      (fun _ => True) s := by
  induction plausibleFns with
  | nil =>
    intro state s
    rw [List.foldlM_nil, Exec.wpPure]
    exact ⟨by simp, by simp⟩
  | cons callee rest ih =>
    intro state s
    rw [List.foldlM_cons, Exec.wpBind]
    refine Exec.wpMono (wpCalleeCalls args argTys destination callee) ?_ (fun _ _ => trivial)
    intro state1 t first
    refine Exec.wpMono (ih state1 t) ?_ (fun _ _ => trivial)
    intro state2 u later
    by_cases on : callee.stackItem ∈ c.virtualStack
    · have calls1 := first.1 on
      constructor
      · intro call
        rw [later.calls call, calls1]
        simp [on]
      · intro other mem off
        cases List.mem_cons.mp mem with
        | inl head => exact absurd on (head ▸ off)
        | inr tail => exact later.entered other tail off
    · obtain ⟨calls1, entered⟩ := first.2 on
      constructor
      · intro call
        rw [later.calls call, calls1, Finset.mem_insert]
        simp only [List.mem_cons, exists_eq_or_imp, on, not_false_eq_true, true_and]
        tauto
      · intro other mem off
        cases List.mem_cons.mp mem with
        | inl head => exact head ▸ entered
        | inr tail => exact later.entered other tail off

theorem wpProcessCallCalls {functionTy : Ty} {defId : DefId} {substs : List Ty}
    (called : c.currentFunction.substitute functionTy = .fnDef defId substs)
    (followed : tcx.isLocal defId = true ∨ c.shallow = false) (args : List Operand) (argTys : ArgTys)
    (destination : Option Place) :
    Exec.wp (processCall tcx descend c functionTy args argTys state destination)
      (fun state' _ => ∃ resolved,
        c.currentFunction.resolve tcx s.closures defId substs argTys = some resolved ∧
        ((∃ callee callees, resolved = .ok (callee :: callees) ∧
          CallsAfter tcx c args (callee :: callees) state.calls state'.calls) ∨
        ((∀ callee callees, resolved ≠ .ok (callee :: callees)) ∧
          state'.calls = insert (.withoutBody defId args) state.calls))) (fun _ => True) s := by
  have kept : (!tcx.isLocal defId && c.shallow) = false := by
    cases followed with
    | inl local_ => simp [local_]
    | inr deep => simp [deep]
  simp only [processCall, called, kept, Bool.false_eq_true, if_false, Exec.wpBind, Exec.wpGet, Exec.wpLift]
  refine ⟨fun resolved h => ?_, fun _ => trivial⟩
  split
  · rename_i callee callees
    simp only [Exec.wpBind, Exec.wpGet, Exec.wpModify, Exec.wpPure]
    refine Exec.wpMono (wpCalleesCalls args argTys destination (callee :: callees) state s) ?_
      (fun _ _ => trivial)
    intro state' t after
    exact ⟨_, h, .inl ⟨callee, callees, rfl, after⟩⟩
  · simp only [processOpaque, Exec.wpBind, Exec.wpModify, Exec.wpPure]
    exact ⟨_, h, .inr ⟨by simp, rfl⟩⟩
  · simp only [processOpaque, Exec.wpBind, Exec.wpModify, Exec.wpPure]
    exact ⟨_, h, .inr ⟨by simp, rfl⟩⟩

end Collector
end Scrutinizer
