import Scrutinizer.Collector

/-! The rule for the analysis of one body: what every change of the session keeps and what every
change of the state keeps holds of the state that the fixpoint engine returns. -/
namespace Scrutinizer
namespace Collector

def TakesFunction (tcx : TyCtxt) (body : Body) : Terminator → Ty → Prop
  | .call func _ _ _ _, functionTy => func.ty tcx body = .ok functionTy
  | .drop place _ _, functionTy => ∃ placeTy, place.ty tcx body = .ok placeTy ∧
      dropCallee tcx placeTy.ty = some functionTy
  | .other _, _ => False

def RecordedAs (tcx : TyCtxt) (c : Collector) (Good : Session → Prop) (defId : DefId)
    (substs : List Ty) (call : FunctionCall) : Prop :=
  call.defId = defId ∨ ∃ (s : Session) (argTys : ArgTys) (fns : List PartialFunctionInfo),
    Good s ∧ c.currentFunction.resolve tcx s.closures defId substs argTys = some (.ok fns) ∧
      ∃ callee ∈ fns, call.defId = callee.inst.defId

/- `Good` speaks of the session and `Held` of the state. -/
structure BodyRule (tcx : TyCtxt) (descend : Collector → Exec Session CollectorDomain)
    (c : Collector) (Good : Session → Prop) (Held : CollectorDomain → Prop) : Prop where
  rvalue : ∀ s state (rvalue : Rvalue) ty closures, Good s →
    rvalue.trackedTy tcx c.substitutedBody c.currentFunction.inst state s.closures =
      some (ty, closures) → Good (s.setClosures closures)
  note : ∀ s event, Good s → Good (s.note event)
  insert : ∀ s info, Good s → Good (s.insert info)
  descend : ∀ callee collector s, Good s →
    new tcx callee c.virtualStack c.inProgress c.shallow = some collector →
      Exec.wp (descend collector) (fun _ t => Good t) (fun _ => True) s
  assign : ∀ state place ty state', Held state →
    state.updateWith tcx c.substitutedBody c.defId place ty = .ok state' → Held state'
  called : ∀ state, Held state → ∀ data ∈ c.substitutedBody.basicBlocks, ∀ functionTy defId substs,
    TakesFunction tcx c.substitutedBody data.terminator functionTy →
      c.currentFunction.substitute functionTy = .fnDef defId substs →
        ∀ call, RecordedAs tcx c Good defId substs call → Held (state.addCall call)
  unhandled : ∀ state ty, Held state → Held (state.addUnhandled ty)
  join : ∀ state other joined changed, Held state → Held other →
    state.join other = some (joined, changed) → Held joined

section
variable {tcx : TyCtxt} {descend : Collector → Exec Session CollectorDomain} {c : Collector}
  {Good : Session → Prop} {Held : CollectorDomain → Prop} {s : Session} {state : CollectorDomain}

def Leaves (Good : Session → Prop) (Held : CollectorDomain → Prop) (state : CollectorDomain)
    (t : Session) : Prop := Good t ∧ Held state

theorem BodyRule.wpStatement (rule : BodyRule tcx descend c Good Held) (good : Good s)
    (held : Held state) (statement : Statement) :
    Exec.wp (applyStatementEffect tcx c state statement) (Leaves Good Held) (fun _ => True) s := by
  cases statement with
  | other => exact ⟨good, held⟩
  | assign place rvalue =>
    simp only [applyStatementEffect, Exec.wpBind, Exec.wpGet, Exec.wpLift, Exec.wpModify,
      implies_true, and_true]
    intro tracked known state' ok
    exact ⟨rule.rvalue s state rvalue tracked.1 tracked.2 good known,
      rule.assign state _ _ state' held (Exec.toOptionSome.mp ok)⟩

theorem BodyRule.wpAssignResult (rule : BodyRule tcx descend c Good Held) (good : Good s)
    (held : Held state) (destination : Option Place) (ty : TrackedTy) :
    Exec.wp (Exec.lift (assignResult tcx c destination ty state)) (Leaves Good Held)
      (fun _ => True) s := by
  rw [Exec.wpLift]
  refine ⟨fun state' ok => ⟨good, ?_⟩, fun _ => trivial⟩
  cases destination with
  | none =>
    cases Option.some.inj ok
    exact held
  | some place =>
    simp only [assignResult, Exec.toOptionSome] at ok
    exact rule.assign state _ _ state' held ok

theorem BodyRule.wpInstance (rule : BodyRule tcx descend c Good Held) (good : Good s)
    (args : List Operand) (argTys : ArgTys) {callee : PartialFunctionInfo}
    (adds : ∀ call : FunctionCall, call.defId = callee.inst.defId → Held (state.addCall call)) :
    Exec.wp (processInstance tcx descend c args argTys state callee)
      (fun processed t => Leaves Good Held processed.1 t) (fun _ => True) s := by
  have withBody : Exec.wp (processWithBody tcx descend c args state callee)
      (fun processed t => Leaves Good Held processed.1 t) (fun _ => True) s := by
    simp only [processWithBody, Exec.wpBind, Exec.wpGet, Exec.wpLift, Exec.wpModify, Exec.wpPure,
      implies_true, and_true]
    intro body _ collector made
    refine Exec.wpMono (rule.descend callee collector s good made) ?_ (fun _ h => h)
    intro results t after returned _
    exact ⟨rule.insert _ _ (rule.note _ _ after), adds _ rfl⟩
  unfold processInstance
  split
  · exact ⟨rule.insert _ _ good, adds _ rfl⟩
  · exact ⟨rule.insert _ _ good, adds _ rfl⟩
  · exact withBody

theorem BodyRule.wpCallee (rule : BodyRule tcx descend c Good Held) (good : Good s)
    (held : Held state) (args : List Operand) (argTys : ArgTys) (destination : Option Place)
    {callee : PartialFunctionInfo}
    (adds : ∀ call : FunctionCall, call.defId = callee.inst.defId → Held (state.addCall call)) :
    Exec.wp (processCallee tcx descend c args argTys destination state callee) (Leaves Good Held)
      (fun _ => True) s := by
  unfold processCallee
  simp only [Exec.wpBind, Exec.wpModify]
  split
  · exact ⟨rule.note _ _ good, held⟩
  · rw [Exec.wpBind]
    refine Exec.wpMono (rule.wpInstance (rule.note _ _ good) args argTys adds) ?_ (fun _ h => h)
    intro processed t after
    exact rule.wpAssignResult after.1 after.2 destination processed.2

theorem BodyRule.wpProcessCall (rule : BodyRule tcx descend c Good Held) (good : Good s)
    (held : Held state) {functionTy : Ty} (args : List Operand) (argTys : ArgTys)
    (destination : Option Place)
    (adds : ∀ state, Held state → ∀ defId substs,
      c.currentFunction.substitute functionTy = .fnDef defId substs →
        ∀ call, RecordedAs tcx c Good defId substs call → Held (state.addCall call)) :
    Exec.wp (processCall tcx descend c functionTy args argTys state destination)
      (Leaves Good Held) (fun _ => True) s := by
  unfold processCall
  split
  · rename_i defId substs function
    have itself : ∀ call : FunctionCall, call.defId = defId → Held (state.addCall call) :=
      fun call same => adds state held defId substs function call (.inl same)
    split
    · exact ⟨good, held⟩
    · simp only [Exec.wpBind, Exec.wpGet, Exec.wpLift, implies_true, and_true]
      intro plausibleFns resolved
      split
      · rename_i callee callees
        rw [Exec.wpBind]
        refine Exec.wpMono (Exec.wpFoldlM (fun rest state' t => (∀ f ∈ rest, f ∈ callee :: callees) ∧
          Leaves Good Held state' t) ?_ (callee :: callees) state s ⟨fun _ mem => mem, good, held⟩)
          ?_ (fun _ h => h)
        · -- one round: the plausible function is one of those that were resolved
          intro f rest state' t before
          obtain ⟨within, good', held'⟩ := before
          refine Exec.wpMono (rule.wpCallee good' held' args argTys destination ?_) ?_ (fun _ h => h)
          · intro call same
            exact adds state' held' defId substs function call
              (.inr ⟨s, argTys, _, good, resolved, f, within f List.mem_cons_self, same⟩)
          · intro state'' u after
            exact ⟨fun g mem => within g (List.mem_cons_of_mem _ mem), after⟩
        · intro state' t after
          exact ⟨rule.note _ _ after.2.1, after.2.2⟩
      · exact ⟨rule.insert _ _ good, itself _ rfl⟩
      · exact ⟨rule.insert _ _ (rule.note _ _ good), itself _ rfl⟩
  · exact ⟨good, rule.unhandled state _ held⟩

theorem BodyRule.wpTerminator (rule : BodyRule tcx descend c Good Held) (good : Good s)
    (held : Held state) {data : BasicBlockData} (mem : data ∈ c.substitutedBody.basicBlocks) :
    Exec.wp (applyTerminatorEffect tcx descend c state data.terminator) (Leaves Good Held)
      (fun _ => True) s := by
  have called := fun state held => rule.called state held data mem
  unfold applyTerminatorEffect
  split
  · rename_i func args destination target unwind same
    simp only [Exec.wpBind, Exec.wpLift, Exec.toOptionSome, implies_true, and_true]
    intro functionTy typed argTys _
    refine rule.wpProcessCall good held args argTys (some destination) ?_
    intro state' held' defId substs function
    exact called state' held' functionTy defId substs (same ▸ typed) function
  · rename_i place target unwind same
    simp only [Exec.wpBind, Exec.wpLift, Exec.toOptionSome, implies_true, and_true]
    intro placeTy typed
    split
    · rename_i functionTy dropped
      refine rule.wpProcessCall good held _ _ none ?_
      intro state' held' defId substs function
      exact called state' held' functionTy defId substs (same ▸ ⟨placeTy, typed, dropped⟩) function
    · exact ⟨good, held⟩
  · exact ⟨good, held⟩

theorem BodyRule.wpBlock (rule : BodyRule tcx descend c Good Held) (good : Good s)
    (held : Held state) (bb : Nat) :
    Exec.wp (applyBlock tcx descend c bb state) (Leaves Good Held) (fun _ => True) s := by
  unfold applyBlock
  rw [Exec.wpBind, Exec.wpLift]
  refine ⟨fun data listed => ?_, fun _ => trivial⟩
  rw [Exec.wpBind]
  refine Exec.wpMono (Exec.wpFoldlM (fun _ state' t => Leaves Good Held state' t)
    (fun statement rest state' t before => rule.wpStatement before.1 before.2 statement)
    data.statements state s ⟨good, held⟩) ?_ (fun _ h => h)
  intro state' t after
  exact rule.wpTerminator after.1 after.2 (List.mem_of_getElem? listed)

theorem BodyRule.wpAnalysis (rule : BodyRule tcx descend c Good Held) (good : Good s)
    {bottom : CollectorDomain} (held : Held bottom) (fuel blocks : Nat) (order : List Nat) :
    Exec.wp ((analysis tcx descend c).run fuel bottom blocks order) (Leaves Good Held)
      (fun _ => True) s := by
  have invariant : (analysis tcx descend c).Invariant (fun _ t => Good t)
      (fun _ state => Held state) (fun _ _ _ => True) (fun _ _ => True) (fun _ _ => True)
      (fun _ => True) :=
    { refl := fun _ => trivial
      trans := fun _ _ _ _ _ => trivial
      goodMono := fun _ _ _ _ held => held
      outMono := fun _ _ _ _ _ _ => trivial
      goodJoin := fun _ a b joined changed left right ok => rule.join a b joined changed left right ok
      outLeft := fun _ _ _ _ _ _ _ _ => trivial
      outRight := fun _ _ _ _ _ _ _ _ => trivial
      stops := fun _ _ _ => trivial
      step := fun _ bb _ t good held _ => Exec.wpMono (rule.wpBlock good held bb)
        (fun _ _ after => ⟨after.1, after.2, trivial, trivial⟩) (fun _ h => h) }
  have result := Analysis.wpRun invariant Analysis.anySchedule fuel bottom blocks order s good
    held trivial (fun visited _ => Analysis.anyReadySeq (List.range blocks) visited)
  refine Exec.wpMono result ?_ (fun _ h => h)
  intro results t after
  obtain ⟨⟨_, good'⟩, held', _⟩ := after
  exact ⟨good', held'⟩

theorem BodyRule.wpAnalyzeBody (rule : BodyRule tcx descend c Good Held) (good : Good s)
    (closures : ∀ s closures, Good s → c.collectClosures tcx s.closures = some closures →
      Good (s.setClosures closures)) (fresh : ∀ places, Held (.new places)) (fuel : Nat) :
    Exec.wp (analyzeBody tcx descend fuel c) (Leaves Good Held) (fun _ => True) s := by
  simp only [analyzeBody, bottomValue, Exec.wpBind, Exec.wpGet, Exec.wpLift, Exec.wpModify,
    Exec.wpPure, implies_true, and_true]
  intro collected known places _
  exact rule.wpAnalysis (closures s collected good known) (fresh places) fuel _ _

theorem stateRule
    (assign : ∀ {state place ty state'}, Held state →
      state.updateWith tcx c.substitutedBody c.defId place ty = .ok state' → Held state')
    (called : ∀ {state} call, Held state → Held (state.addCall call))
    (unhandled : ∀ {state} ty, Held state → Held (state.addUnhandled ty))
    (join : ∀ {state other joined changed}, Held state → Held other →
      state.join other = some (joined, changed) → Held joined) :
    BodyRule tcx descend c (fun _ => True) Held where
  rvalue _ _ _ _ _ _ _ := trivial
  note _ _ _ := trivial
  insert _ _ _ := trivial
  descend _ collector s _ _ := Exec.wpMono (Exec.wpAny (descend collector) s)
    (fun _ _ _ => trivial) (fun _ h => h)
  assign _ _ _ _ held ok := assign held ok
  called _ held _ _ _ _ _ _ _ call _ := called call held
  unhandled _ ty held := unhandled ty held
  join _ _ _ _ left right ok := join left right ok

theorem BodyRule.blockHeld {bb : Nat} {out : CollectorDomain} {t : Session}
    (rule : BodyRule tcx descend c (fun _ => True) Held) (held : Held state)
    (ran : applyBlock tcx descend c bb state s = (some out, t)) : Held out :=
  (Exec.wpResult (rule.wpBlock trivial held bb) ran).2

theorem BodyRule.analysisHeld {bottom results : CollectorDomain} {fuel blocks : Nat} {order : List Nat}
    {t : Session} (rule : BodyRule tcx descend c (fun _ => True) Held) (held : Held bottom)
    (ran : (analysis tcx descend c).run fuel bottom blocks order s = (some results, t)) : Held results :=
  (Exec.wpResult (rule.wpAnalysis trivial held fuel blocks order) ran).2

end

end Collector
end Scrutinizer
