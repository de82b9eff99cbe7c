import Scrutinizer.Descent

/-! A run of the collector on a program of direct calls, from the effects of one block up to the
whole collection. -/
namespace Scrutinizer

open FunctionInfoStorage
namespace Collector

structure At (tcx : TyCtxt) (c : Collector) (stack : List DefId) (did : DefId) (body : Body) :
    Prop where
  stack : c.virtualStack = stack.reverse.map (fun d => ⟨d, argsOf tcx d⟩)
  current : c.currentFunction = .function (itemOf did) (argsOf tcx did)
  body : c.substitutedBody = body
  deep : c.shallow = false

section
variable {tcx : TyCtxt} {c collector : Collector} {stack : List DefId} {did callee : DefId}
  {body : Body}

theorem At.pushed (at_ : At tcx c stack did body) : At tcx c.push (did :: stack) did body where
  stack := by simp [push, at_.stack, at_.current, PartialFunctionInfo.stackItem,
    PartialFunctionInfo.inst, PartialFunctionInfo.trackedArgs, itemOf]
  current := at_.current
  body := at_.body
  deep := at_.deep

theorem At.onStack (at_ : At tcx c stack did body) :
    (PartialFunctionInfo.function (itemOf callee) (argsOf tcx callee)).stackItem ∈ c.virtualStack ↔
      callee ∈ stack := by
  rw [at_.stack]
  simp only [PartialFunctionInfo.stackItem, PartialFunctionInfo.inst,
    PartialFunctionInfo.trackedArgs, itemOf, List.mem_map, List.mem_reverse]
  constructor
  · intro h
    obtain ⟨d, mem, same⟩ := h
    exact (VirtualStackItem.mk.inj same).1 ▸ mem
  · exact fun mem => ⟨callee, mem, rfl⟩

theorem At.next (at_ : At tcx c stack did body) (available : tcx.isMirAvailable callee = true)
    (new : new tcx (.function (itemOf callee) (argsOf tcx callee)) c.virtualStack c.inProgress
      c.shallow = some collector) :
    ∃ body', functionBody tcx callee = some body' ∧ At tcx collector stack callee body' := by
  obtain ⟨body', has, rfl⟩ := Option.map_eq_some_iff.mp new
  exact ⟨body', by rw [functionBody, if_pos available]; exact has, at_.stack, rfl, rfl, at_.deep⟩

end

/- What a run of a collector leaves: a storage that stands again once the record of the function
is inserted. -/
def Searched (tcx : TyCtxt) (origin : DefId) (above : List DefId) (did : DefId) (body : Body)
    (s : Session) (results : CollectorDomain) (t : Session) : Prop :=
  Standing tcx origin (t.fns.insert (recordOf (itemOf did) body results)) above ∧
    ∀ other, s.fns.Analysed other → t.fns.Analysed other

def Descends (tcx : TyCtxt) (member : DefId → Prop) (origin : DefId)
    (descend : Collector → Exec Session CollectorDomain) : Prop :=
  ∀ c above did body s, member did → functionBody tcx did = some body → At tcx c above did body →
    FirstPath.Ready (callees tcx) origin s.fns.Analysed (did :: above) →
    Standing tcx origin s.fns above →
    Exec.wp (descend c) (Searched tcx origin above did body s) (fun _ => True) s

structure Between (tcx : TyCtxt) (origin did : DefId) (above : List DefId) (body : Body)
    (visited : List Nat) (s : Session) : Prop where
  standing : Standing tcx origin s.fns (did :: above)
  ready : FirstPath.Ready (callees tcx) origin s.fns.Analysed (did :: above)
  seen : ∀ bb ∈ visited, ∀ args callee, body.callAt bb = some (args, callee) →
    tcx.isMirAvailable callee = true → s.fns.Analysed callee ∨ callee ∈ did :: above

def Holds (tcx : TyCtxt) (did : DefId) (stack : List DefId) (state : CollectorDomain) : Prop :=
  state.unhandled = ∅ ∧ ∀ call ∈ state.calls, KeptCall tcx (· ∈ stack) did call

def Covered (tcx : TyCtxt) (body : Body) (stack : List DefId) (bb : Nat) (s : Session)
    (state : CollectorDomain) : Prop :=
  ∀ args callee, body.callAt bb = some (args, callee) →
    (callee ∉ stack → recordedCall tcx callee args ∈ state.calls) ∧
    (tcx.isMirAvailable callee = true → s.fns.Analysed callee ∨ callee ∈ stack)

section
variable {tcx : TyCtxt} {member : DefId → Prop} {origin did callee : DefId} {above : List DefId}
  {body : Body} {visited : List Nat} {bb : Nat} {c : Collector} {s : Session}
  {args : List Operand} {state : CollectorDomain}

theorem calleesSplit (hasBody : functionBody tcx did = some body)
    (turn : Analysis.InTurn (visitOrder tcx body) visited bb)
    (calls : body.callAt bb = some (args, callee)) (available : tcx.isMirAvailable callee = true) :
    ∃ before after, callees tcx did = before ++ callee :: after ∧
      ∀ b ∈ before, ∃ bb' ∈ visited, ∃ args', body.callAt bb' = some (args', b) ∧
        tcx.isMirAvailable b = true := by
  obtain ⟨first, last, split, seen⟩ := turn
  let calleesOf : List Nat → List DefId := fun blocks =>
    (blocks.filterMap (fun bb => (body.callAt bb).map Prod.snd)).filter
      (fun callee => tcx.isMirAvailable callee)
  refine ⟨calleesOf first, calleesOf last, ?_, ?_⟩
  · simp [callees, hasBody, split, calleesOf, List.filterMap_append, calls, available]
  · intro b mem
    obtain ⟨there, available'⟩ := List.mem_filter.mp mem
    obtain ⟨bb', inside, callee'⟩ := List.mem_filterMap.mp there
    obtain ⟨pair, found, rfl⟩ := Option.map_eq_some_iff.mp callee'
    exact ⟨bb', seen bb' inside, pair.1, found, available'⟩

theorem Between.readyNext (between : Between tcx origin did above body visited s)
    (hasBody : functionBody tcx did = some body)
    (turn : Analysis.InTurn (visitOrder tcx body) visited bb)
    (calls : body.callAt bb = some (args, callee)) (available : tcx.isMirAvailable callee = true)
    (off : callee ∉ did :: above) :
    FirstPath.Ready (callees tcx) origin s.fns.Analysed (callee :: did :: above) := by
  obtain ⟨before, after, split, earlier⟩ := calleesSplit hasBody turn calls available
  refine .push split off ?_ between.ready
  intro b mem v leads
  obtain ⟨bb', inside, args', calls', available'⟩ := earlier b mem
  cases between.seen bb' inside args' b calls' available' with
  | inl known => exact between.standing.closed.reaches leads known
  | inr on => exact absurd on leads.fresh.1

theorem Between.withoutBody (between : Between tcx origin did above body visited s)
    (start : tcx.isMirAvailable origin = true) (missing : tcx.isMirAvailable callee = false) :
    callee ∉ did :: above := by
  intro mem
  have available : tcx.isMirAvailable callee = true := by
    cases between.ready.entered callee mem with
    | inl root => exact root ▸ start
    | inr called =>
      obtain ⟨caller, edge⟩ := called
      unfold callees at edge
      split at edge
      · exact of_decide_eq_true (by simpa using (List.mem_filter.mp edge).2)
      · cases edge
  rw [missing] at available
  contradiction

theorem Between.onward (between : Between tcx origin did above body visited s) {t : Session}
    (standing : Standing tcx origin t.fns (did :: above))
    (grows : ∀ other, s.fns.Analysed other → t.fns.Analysed other)
    (now : ∀ args callee, body.callAt bb = some (args, callee) → tcx.isMirAvailable callee = true →
      t.fns.Analysed callee ∨ callee ∈ did :: above) :
    Between tcx origin did above body (bb :: visited) t := by
  refine ⟨standing, between.ready.mono grows, ?_⟩
  intro bb' mem args callee calls available
  cases List.mem_cons.mp mem with
  | inl here => exact now args callee (here ▸ calls) available
  | inr earlier => exact (between.seen bb' earlier args callee calls available).imp_left (grows callee)

structure CallDone (tcx : TyCtxt) (origin : DefId) (stack : List DefId) (callee : DefId)
    (args : List Operand) (s : Session) (state state' : CollectorDomain) (t : Session) : Prop where
  standing : Standing tcx origin t.fns stack
  grows : ∀ other, s.fns.Analysed other → t.fns.Analysed other
  reached : tcx.isMirAvailable callee = true → t.fns.Analysed callee ∨ callee ∈ stack
  calls : ∀ call, call ∈ state'.calls ↔
    call ∈ state.calls ∨ callee ∉ stack ∧ call = recordedCall tcx callee args
  unhandled : state'.unhandled = state.unhandled

def BlockDone (tcx : TyCtxt) (origin did : DefId) (above : List DefId) (body : Body) (visited : List Nat)
    (bb : Nat) (s : Session) (state : CollectorDomain) (t : Session) : Prop :=
  Between tcx origin did above body (bb :: visited) t ∧ Holds tcx did (did :: above) state ∧
    Covered tcx body (did :: above) bb t state ∧ ∀ other, s.fns.Analysed other → t.fns.Analysed other

theorem CallDone.assigned {stack : List DefId} {state state' state'' : CollectorDomain} {t : Session}
    (call_ : CallDone tcx origin stack callee args s state state' t)
    (same : state''.calls = state'.calls ∧ state''.unhandled = state'.unhandled) :
    CallDone tcx origin stack callee args s state state'' t where
  standing := call_.standing
  grows := call_.grows
  reached := call_.reached
  calls call := by rw [same.1]; exact call_.calls call
  unhandled := same.2.trans call_.unhandled

section
variable {descend : Collector → Exec Session CollectorDomain}
  (program : DirectProgram tcx member) (start : tcx.isMirAvailable origin = true)
  (descends : Descends tcx member origin descend) (inside : member callee) (at_ : At tcx c (did :: above) did body)
  (between : Between tcx origin did above body visited s)
  (hasBody : functionBody tcx did = some body)
  (turn : Analysis.InTurn (visitOrder tcx body) visited bb)
  (calls : body.callAt bb = some (args, callee))

include descends inside at_ between hasBody turn calls in
theorem wpDescent (available : tcx.isMirAvailable callee = true) (off : callee ∉ did :: above) :
    Exec.wp (processWithBody tcx descend c args state (.function (itemOf callee) (argsOf tcx callee)))
      (fun out t => CallDone tcx origin (did :: above) callee args s state out.1 t)
      (fun _ => True) s := by
  simp only [processWithBody, Exec.wpBind, Exec.wpLift, Exec.wpGet, Exec.wpModify, Exec.wpPure,
    implies_true, and_true]
  intro calleeBody has collector new
  obtain ⟨body', hasBody', there⟩ := at_.next available new
  have same : body' = calleeBody := by
    rw [functionBody, if_pos available] at hasBody'
    exact Option.some.inj (hasBody'.symm.trans has)
  subst same
  have ready := between.readyNext hasBody turn calls available off
  refine Exec.wpMono (descends collector _ callee body' s inside hasBody' there ready between.standing)
    ?_ (fun _ _ => trivial)
  intro results t searched
  obtain ⟨standing, grows⟩ := searched
  have analysed : (t.fns.insert (recordOf (itemOf callee) body' results)).Analysed callee :=
    analysedInsert.mpr (.inr rfl)
  intro returnTy _
  refine ⟨standing, fun other known => analysedInsert.mpr (.inl (grows other known)),
    fun _ => .inl analysed, ?_, rfl⟩
  intro call
  have recorded : recordedCall tcx callee args = .withBody (itemOf callee) args := if_pos available
  simp [CollectorDomain.addCall, off, recorded, PartialFunctionInfo.inst, or_comm]

include program start descends inside at_ between hasBody turn calls in
theorem wpDirectCall {argTys : ArgTys} (destination : Option Place)
    (length : argTys.argTys.length = (argsOf tcx callee).argTys.length) :
    Exec.wp (processCall tcx descend c (.fnDef callee []) args argTys state destination)
      (CallDone tcx origin (did :: above) callee args s state) (fun _ => True) s := by
  have fixed : c.currentFunction.substitute (.fnDef callee []) = .fnDef callee [] := by
    simp [at_.current, PartialFunctionInfo.substitute, PartialFunctionInfo.inst, Instance.substMirFnDef]
  simp only [processCall, fixed, at_.deep, Bool.and_false, Bool.false_eq_true, if_false, Exec.wpBind,
    Exec.wpGet]
  rw [at_.current]
  cases available : tcx.isMirAvailable callee with
  | false =>
    rw [program.resolveNothing inside _ _ available]
    simp only [Exec.wpLiftSome, processOpaque, Exec.wpBind, Exec.wpModify, Exec.wpPure]
    have other : ∀ d, (FunctionInfo.withoutBody callee argTys.argTys).key = .withBody (itemOf d) →
        s.fns.Analysed d := fun _ same => by cases same
    refine ⟨between.standing.insertKnown other, fun d known => analysedInsert.mpr (.inl known),
      fun h => absurd (available.symm.trans h) (by simp), ?_, rfl⟩
    intro call
    have off : callee ∉ did :: above := between.withoutBody start available
    have recorded : recordedCall tcx callee args = .withoutBody callee args := by
      simp [recordedCall, available]
    simp [CollectorDomain.addCall, off, recorded, or_comm]
  | true =>
    rw [program.resolveBody inside _ _ length available]
    simp only [Exec.wpLiftSome, List.foldlM_cons, List.foldlM_nil, Exec.wpBind, Exec.wpGet,
      Exec.wpModify, Exec.wpPure, processCallee]
    by_cases on : callee ∈ did :: above
    · rw [if_pos (by simpa using at_.onStack.mpr on)]
      refine ⟨between.standing, fun _ known => known, fun _ => .inr on, ?_, rfl⟩
      simp [on]
    · rw [if_neg (by simpa using fun h => on (at_.onStack.mp h)), Exec.wpBind]
      have noted : ∀ event, Between tcx origin did above body visited (s.note event) :=
        fun _ => ⟨between.standing, between.ready, between.seen⟩
      have item : processInstance tcx descend c args argTys state
          (.function (itemOf callee) (argsOf tcx callee)) =
            processWithBody tcx descend c args state (.function (itemOf callee) (argsOf tcx callee)) := rfl
      rw [item]
      refine Exec.wpMono (wpDescent descends inside at_ (noted _) hasBody turn calls available on) ?_
        (fun _ _ => trivial)
      intro out t done
      rw [Exec.wpLift]
      refine ⟨fun state' assigned => ?_, fun _ => trivial⟩
      have last := done.assigned (assignResultUpdates assigned)
      exact ⟨last.standing, last.grows, last.reached, last.calls, last.unhandled⟩

include between in
theorem Between.quiet (quiet : body.callAt bb = none) (holds : Holds tcx did (did :: above) state) :
    BlockDone tcx origin did above body visited bb s state s := by
  have noCall : ∀ args callee, body.callAt bb ≠ some (args, callee) := by simp [quiet]
  exact ⟨between.onward between.standing (fun _ known => known)
      (fun args callee calls => absurd calls (noCall args callee)), holds,
    fun args callee calls => absurd calls (noCall args callee), fun _ known => known⟩

include between hasBody calls in
theorem Between.called {state' : CollectorDomain} {t : Session} (holds : Holds tcx did (did :: above) state)
    (done : CallDone tcx origin (did :: above) callee args s state state' t) :
    BlockDone tcx origin did above body visited bb s state' t := by
  have only : ∀ args' callee', body.callAt bb = some (args', callee') → args' = args ∧ callee' = callee := by
    intro args' callee' calls'
    cases Option.some.inj (calls.symm.trans calls')
    exact ⟨rfl, rfl⟩
  refine ⟨between.onward done.standing done.grows ?_, ⟨done.unhandled.trans holds.1, ?_⟩, ?_, done.grows⟩
  · intro args' callee' calls'
    obtain ⟨rfl, rfl⟩ := only args' callee' calls'
    exact done.reached
  · intro call mem
    cases (done.calls call).mp mem with
    | inl earlier => exact holds.2 call earlier
    | inr now => exact ⟨args, callee, ⟨body, bb, hasBody, calls⟩, now.1, now.2⟩
  · intro args' callee' calls'
    obtain ⟨rfl, rfl⟩ := only args' callee' calls'
    exact ⟨fun off => (done.calls _).mpr (.inr ⟨off, rfl⟩), done.reached⟩

include program start descends at_ between hasBody turn in
theorem wpDirectTerminator (itself : member did) (holds : Holds tcx did (did :: above) state)
    {data : BasicBlockData} (atBlock : body.basicBlocks[bb]? = some data) :
    Exec.wp (applyTerminatorEffect tcx descend c state data.terminator)
      (BlockDone tcx origin did above body visited bb s) (fun _ => True) s := by
  have direct := program.direct did body data itself hasBody (List.mem_of_getElem? atBlock)
  have callAt : body.callAt bb = data.terminator.directCall := by simp [Body.callAt, atBlock]
  cases terminator : data.terminator with
  | other targets =>
    rw [terminator] at callAt
    exact between.quiet callAt holds
  | drop place target unwind =>
    rw [terminator] at direct callAt
    simp only [applyTerminatorEffect, Exec.wpBind, Exec.wpLift, at_.body, implies_true, and_true]
    intro placeTy has
    rw [direct placeTy (Exec.toOptionSome.mp has)]
    exact between.quiet callAt holds
  | call func args destination target unwind =>
    rw [terminator] at direct
    obtain ⟨callee, rfl⟩ := direct
    have calls : body.callAt bb = some (args, callee) := by rw [callAt, terminator]; rfl
    obtain ⟨inside, length⟩ := program.called did args callee itself ⟨body, bb, hasBody, calls⟩
    simp only [applyTerminatorEffect, Exec.wpBind, Operand.ty, Except.toOption, Exec.wpLift,
      implies_true, and_true]
    intro functionTy named argTys passed
    cases Option.some.inj named
    have same : argTys.argTys.length = (argsOf tcx callee).argTys.length := by
      obtain ⟨tys, each, rfl⟩ := Option.map_eq_some_iff.mp passed
      rw [← length]
      exact (MapM.someIff.mp each).length_eq.symm
    exact Exec.wpMono (wpDirectCall program start descends inside at_ between hasBody turn calls
      (some destination) same) (fun _ _ done => between.called hasBody calls holds done) (fun _ _ => trivial)

include program start descends at_ between hasBody turn in
theorem wpDirectBlock (itself : member did) (holds : Holds tcx did (did :: above) state) :
    Exec.wp (applyBlock tcx descend c bb state)
      (BlockDone tcx origin did above body visited bb s) (fun _ => True) s := by
  simp only [applyBlock, Exec.wpBind, Exec.wpLift, at_.body, implies_true, and_true]
  intro data atBlock
  refine Exec.wpMono (wpStatementsQuiet data.statements) ?_ (fun _ _ => trivial)
  intro state1 s1 quiet
  obtain ⟨fns, calls1, unhandled1⟩ := quiet
  have between1 : Between tcx origin did above body visited s1 :=
    ⟨fns ▸ between.standing, fns ▸ between.ready, fns ▸ between.seen⟩
  have holds1 : Holds tcx did (did :: above) state1 := by
    rw [Holds, calls1, unhandled1]
    exact holds
  refine Exec.wpMono (wpDirectTerminator program start descends at_ between1 hasBody turn itself holds1
    atBlock) ?_ (fun _ _ => trivial)
  intro state2 t done
  exact ⟨done.1, done.2.1, done.2.2.1, fun other known => done.2.2.2 other (fns ▸ known)⟩

end
end

section
variable {tcx : TyCtxt} {member : DefId → Prop} {origin did : DefId} {above : List DefId}
  {body : Body} {c : Collector} {s : Session} {descend : Collector → Exec Session CollectorDomain}

theorem directInvariant (program : DirectProgram tcx member) (start : tcx.isMirAvailable origin = true)
    (descends : Descends tcx member origin descend) (itself : member did)
    (at_ : At tcx c (did :: above) did body) (hasBody : functionBody tcx did = some body) :
    (analysis tcx descend c).Invariant (Between tcx origin did above body)
      (fun _ state => Holds tcx did (did :: above) state)
      (fun bb t state => Covered tcx body (did :: above) bb t state)
      (Analysis.InTurn (visitOrder tcx body))
      (fun s t => ∀ other, s.fns.Analysed other → t.fns.Analysed other) (fun _ => True) where
  refl _ _ h := h
  trans _ _ _ first second other h := second other (first other h)
  goodMono _ _ _ _ h := h
  outMono bb s t state grows covered args callee calls := by
    obtain ⟨recorded, reached⟩ := covered args callee calls
    exact ⟨recorded, fun available => (reached available).imp_left (grows callee)⟩
  goodJoin t a b joined ch left right hj := by
    obtain ⟨calls, unhandled⟩ := CollectorDomain.joinCalls hj
    refine ⟨by rw [unhandled, left.1, right.1, Finset.union_empty], ?_⟩
    intro call mem
    rw [calls] at mem
    cases Finset.mem_union.mp mem with
    | inl inLeft => exact left.2 call inLeft
    | inr inRight => exact right.2 call inRight
  outLeft bb t a b joined ch covered hj args callee calls := by
    obtain ⟨recorded, reached⟩ := covered args callee calls
    rw [(CollectorDomain.joinCalls hj).1]
    exact ⟨fun off => Finset.mem_union_left _ (recorded off), reached⟩
  outRight bb t a b joined ch covered hj args callee calls := by
    obtain ⟨recorded, reached⟩ := covered args callee calls
    rw [(CollectorDomain.joinCalls hj).1]
    exact ⟨fun off => Finset.mem_union_right _ (recorded off), reached⟩
  stops _ _ _ := trivial
  step _ _ _ _ between holds turn :=
    wpDirectBlock program start descends at_ between hasBody turn itself holds

structure Explored (tcx : TyCtxt) (origin did : DefId) (above : List DefId) (s : Session)
    (results : CollectorDomain) (t : Session) : Prop where
  standing : Standing tcx origin t.fns (did :: above)
  grows : ∀ other, s.fns.Analysed other → t.fns.Analysed other
  unhandled : results.unhandled = ∅
  calls : ∀ call, call ∈ results.calls ↔ KeptCall tcx (· ∈ did :: above) did call
  searched : ∀ next ∈ callees tcx did, t.fns.Analysed next ∨ next ∈ did :: above

theorem callAtBound {bb : Nat} {found : List Operand × DefId} (h : body.callAt bb = some found) :
    bb < body.basicBlocks.length := by
  obtain ⟨data, there, _⟩ := Option.bind_eq_some_iff.mp h
  exact (List.getElem?_eq_some_iff.mp there).1

theorem wpDirectBody (program : DirectProgram tcx member) (start : tcx.isMirAvailable origin = true)
    (descends : Descends tcx member origin descend) (itself : member did)
    (at_ : At tcx c (did :: above) did body) (hasBody : functionBody tcx did = some body)
    (ready : FirstPath.Ready (callees tcx) origin s.fns.Analysed (did :: above))
    (standing : Standing tcx origin s.fns (did :: above)) (rounds : Nat) :
    Exec.wp (analyzeBody tcx descend rounds c) (Explored tcx origin did above s)
      (fun _ => True) s := by
  simp only [analyzeBody, bottomValue, Exec.wpBind, Exec.wpGet, Exec.wpLift, Exec.wpModify,
    Exec.wpPure, at_.body, implies_true, and_true]
  intro closures _ places _
  have inv := directInvariant program start descends itself at_ hasBody
  have closed : ∀ bb ∈ tcx.reversePostorder body,
      ∀ t ∈ (analysis tcx descend c).edges bb, t ∈ tcx.reversePostorder body := by
    intro bb mem t edge
    simp only [analysis, at_.body] at edge
    cases atBlock : body.basicBlocks[bb]? with
    | none => simp [atBlock] at edge
    | some data =>
      rw [atBlock] at edge
      exact program.edges did body bb data itself hasBody mem atBlock t edge
  have sched := Analysis.orderSchedule closed (List.range body.basicBlocks.length)
  have begin_ : Between tcx origin did above body [] (s.setClosures closures) :=
    ⟨standing, ready, fun _ mem => absurd mem List.not_mem_nil⟩
  have empty : Holds tcx did (did :: above) (.new places) :=
    ⟨rfl, fun call mem => absurd mem (Finset.notMem_empty call)⟩
  have queue : Analysis.Queued (tcx.reversePostorder body) [] (tcx.reversePostorder body) :=
    ⟨[], _, [], rfl, (List.append_nil _).symm, fun _ mem => absurd mem List.not_mem_nil,
      fun _ mem => absurd mem List.not_mem_nil⟩
  refine Exec.wpMono (Analysis.wpRun inv sched rounds (.new places) body.basicBlocks.length _ _
    begin_ empty queue (fun visited => Analysis.queuedReading _)) ?_ (fun _ h => h)
  intro results t outcome
  obtain ⟨⟨visited, between⟩, holds, covered, grows⟩ := outcome
  refine ⟨between.standing, grows, holds.1, ?_, ?_⟩
  · intro call
    constructor
    · exact holds.2 call
    · intro kept
      obtain ⟨args, callee, ⟨body', bb, hasBody', calls⟩, off, rfl⟩ := kept
      cases Option.some.inj (hasBody.symm.trans hasBody')
      exact (covered bb (callAtBound calls) args callee calls).1 off
  · intro next mem
    simp only [callees, hasBody] at mem
    obtain ⟨there, available⟩ := List.mem_filter.mp mem
    obtain ⟨bb, _, callee⟩ := List.mem_filterMap.mp there
    obtain ⟨pair, calls, rfl⟩ := Option.map_eq_some_iff.mp callee
    exact (covered bb (callAtBound calls) pair.1 pair.2 calls).2 available

theorem directRun (program : DirectProgram tcx member) (start : tcx.isMirAvailable origin = true)
    (fuel : Nat) : Descends tcx member origin (run tcx fuel) := by
  induction fuel with
  | zero => intro c above did body s _ _ _ _ _; trivial
  | succ fuel ih =>
    intro c above did body s itself hasBody at_ ready standing
    have current : c.push.currentFunction.inst = itemOf did := by
      simp [push, at_.current, PartialFunctionInfo.inst]
    have lookup : s.fns.getWithBody (itemOf did) = s.fns.firstOf did := by
      rw [getWithBody, isWithBodyKey]
      rfl
    simp only [run, Exec.wpBind, Exec.wpGet, current, lookup]
    cases known : s.fns.firstOf did with
    | some info =>
      simp only [Exec.wpLift, implies_true, and_true]
      intro results _
      refine ⟨standing.insertKnown ?_, fun _ h => h⟩
      intro other key
      have same : did = other := by simpa [recordOf, FunctionInfo.key, itemOf] using key
      exact same ▸ analysedFirst.mpr ⟨info, known⟩
    | none =>
      have new : ¬ s.fns.Analysed did := by
        intro h
        obtain ⟨f, first⟩ := analysedFirst.mp h
        rw [known] at first
        contradiction
      have deeper : Standing tcx origin s.fns (did :: above) := by
        refine ⟨standing.records, ?_, List.forall_mem_cons.mpr ⟨new, standing.fresh⟩⟩
        intro node h next edge
        exact (standing.closed node h next edge).imp_right (List.mem_cons_of_mem _)
      refine Exec.wpMono (wpDirectBody program start ih itself at_.pushed hasBody ready deeper fuel) ?_
        (fun _ h => h)
      intro results t explored
      exact ⟨explored.standing.insertTop ready new hasBody explored.calls explored.unhandled
        explored.searched, explored.grows⟩

theorem directCollected (program : DirectProgram tcx member) {origin : DefId} (itself : member origin)
    (start : tcx.isMirAvailable origin = true) {fuel : Nat} {session : Session}
    (ends : collected tcx fuel (itemOf origin) false = some session) :
    Standing tcx origin session.fns [] := by
  have wp : Exec.wp (collect tcx fuel (itemOf origin) false)
      (fun _ t => Standing tcx origin t.fns []) (fun _ => True) (startSession (itemOf origin)) := by
    simp only [collect, Exec.wpBind, Exec.wpLift, Exec.wpModify, implies_true, and_true]
    intro body has argTys declares collector new
    have hasBody : functionBody tcx origin = some body := by
      rw [functionBody, if_pos start]
      exact has
    have args : argTys = argsOf tcx origin :=
      Option.some.inj (declares.symm.trans (program.declared origin body itself hasBody))
    subst args
    obtain ⟨body', has', rfl⟩ := Option.map_eq_some_iff.mp new
    cases Option.some.inj (has.symm.trans has')
    have at_ : At tcx ⟨[], [], .function (itemOf origin) (argsOf tcx origin), body, false⟩ [] origin body :=
      ⟨rfl, rfl, rfl, rfl⟩
    have none : ∀ did, ¬ (FunctionInfoStorage.new (itemOf origin)).Analysed did := by
      intro did h
      obtain ⟨f, mem, _⟩ := h
      cases mem
    have standing : Standing tcx origin (startSession (itemOf origin)).fns [] :=
      ⟨fun did f first => absurd (analysedFirst.mpr ⟨f, first⟩) (none did),
        fun node h => absurd h (none node), fun _ mem => absurd mem List.not_mem_nil⟩
    refine Exec.wpMono (directRun program start fuel _ [] origin body (startSession (itemOf origin))
      itself hasBody at_ .root standing) ?_ (fun _ h => h)
    exact fun results t searched => searched.1
  unfold collected at ends
  split at ends
  · rename_i t hrun
    cases Option.some.inj ends
    have standing := Exec.wpResult wp hrun
    exact standing
  · contradiction

end
end Collector
end Scrutinizer
