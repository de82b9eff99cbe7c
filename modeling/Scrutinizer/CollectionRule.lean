import Scrutinizer.Calls

/-! The rule for a whole collection. What every change of the shared storages keeps, and what
the calls of a state keep, holds in every session that a collection goes through, with its
descents, cache hits, skips and the rounds of the fixpoint engine. -/
namespace Scrutinizer

structure Session.Grows (s t : Session) : Prop where
  fns : s.fns.fns <+: t.fns.fns
  origin : s.fns.origin = t.fns.origin
  log : s.log <+: t.log

namespace Session
variable {s t u : Session}

theorem growsRefl (s : Session) : s.Grows s := ⟨List.prefix_refl _, rfl, List.prefix_refl _⟩

theorem Grows.trans (first : s.Grows t) (second : t.Grows u) : s.Grows u :=
  ⟨first.fns.trans second.fns, first.origin.trans second.origin, first.log.trans second.log⟩

theorem growsInsert (info : FunctionInfo) (s : Session) : s.Grows (s.insert info) :=
  ⟨s.fns.insertPrefix info, (s.fns.insertOrigin info).symm, List.prefix_refl _⟩

theorem growsSetClosures (closures : ClosureInfoStorage) (s : Session) :
    s.Grows (s.setClosures closures) := ⟨List.prefix_refl _, rfl, List.prefix_refl _⟩

theorem growsNote (event : Event) (s : Session) : s.Grows (s.note event) :=
  ⟨List.prefix_refl _, rfl, List.prefix_append _ _⟩

theorem allNoted {P : Event → Prop} (event : Event) (all : ∀ e ∈ s.log, P e) (ok : P event) :
    ∀ e ∈ (s.note event).log, P e := by
  intro e mem
  cases List.mem_append.mp mem with
  | inl old => exact all e old
  | inr last => exact List.mem_singleton.mp last ▸ ok

def HasRecord (s : Session) (key : FunctionInfo.Key) : Prop := ∃ f ∈ s.fns.fns, f.key = key

theorem Grows.hasRecord {key : FunctionInfo.Key} (grows : s.Grows t) (h : s.HasRecord key) :
    t.HasRecord key := by
  obtain ⟨f, hf, same⟩ := h
  exact ⟨f, grows.fns.subset hf, same⟩

theorem hasRecordInsert (info : FunctionInfo) (s : Session) :
    (s.insert info).HasRecord info.key := s.fns.insertHasKey info

end Session

namespace Collector

def Handled (c : Collector) (args : List Operand) (callee : PartialFunctionInfo) (s : Session)
    (state : CollectorDomain) : Prop :=
  callee.stackItem ∈ c.virtualStack ∨
    ∃ call ∈ state.calls, call.args = args ∧ call.key = calleeKey callee ∧ s.HasRecord call.key

theorem Handled.mono {c : Collector} {args : List Operand} {callee : PartialFunctionInfo}
    {s t : Session} {state state' : CollectorDomain} (grows : s.Grows t)
    (more : state.calls ⊆ state'.calls) (h : Handled c args callee s state) :
    Handled c args callee t state' := by
  rcases h with h | ⟨call, mem, hargs, key, record⟩
  · exact .inl h
  · exact .inr ⟨call, more mem, hargs, key, grows.hasRecord record⟩

/- `Fine` speaks of a collector that has pushed its item, `Good` of the session between two
steps and `Fit` of the calls of a state. -/
structure Invariant (tcx : TyCtxt) (Fine : Collector → Prop) (Good : Session → Prop)
    (Fit : Session → Finset FunctionCall → Prop) : Prop where
  fitEmpty : ∀ s, Fit s ∅
  fitMono : ∀ s t calls, s.Grows t → Fit s calls → Fit t calls
  fitUnion : ∀ s a b, Fit s a → Fit s b → Fit s (a ∪ b)
  fitInsert : ∀ s calls call, Fit s calls → s.HasRecord call.key → Fit s (insert call calls)
  fitCached : ∀ s f calls, Good s → f ∈ s.fns.fns → f.calls = some calls → Fit s calls
  enter : ∀ c callee collector, Fine c → callee.stackItem ∉ c.virtualStack →
    new tcx callee c.virtualStack c.inProgress c.shallow = some collector → Fine collector.push
  closures : ∀ c s closures, Fine c → Good s → c.collectClosures tcx s.closures = some closures →
    Good (s.setClosures closures)
  rvalue : ∀ c s state (rvalue : Rvalue) ty closures, Fine c → Good s →
    rvalue.trackedTy tcx c.substitutedBody c.currentFunction.inst state s.closures =
      some (ty, closures) → Good (s.setClosures closures)
  unresolved : ∀ c s error, Fine c → Good s → Good (s.note (.unresolved c error))
  round : ∀ c s callee, Fine c → Good s →
    Good (s.note (.round c callee (decide (callee.stackItem ∈ c.virtualStack))))
  withoutBody : ∀ s defId args, Good s → Good (s.insert (.withoutBody defId args))
  descended : ∀ c callee collector body before s results fuel, Fine c → Good before → Good s →
    callee.stackItem ∉ c.virtualStack →
    new tcx callee c.virtualStack c.inProgress c.shallow = some collector →
    run tcx fuel collector before = (some results, s) → Fit s results.calls →
    Good ((s.note (.descended collector before.fns before.closures results)).insert
      (recordOf callee.inst body results))
  processed : ∀ c s args plausibleFns state, Fine c → Good s →
    (∀ callee ∈ plausibleFns, Handled c args callee s state) →
    Good (s.note (.processed c plausibleFns state s.fns))

def Kept (Good : Session → Prop) (Fit : Session → Finset FunctionCall → Prop) (s : Session)
    (state : CollectorDomain) (t : Session) : Prop :=
  Good t ∧ s.Grows t ∧ Fit t state.calls

section
variable {tcx : TyCtxt} {Fine : Collector → Prop} {Good : Session → Prop}
  {Fit : Session → Finset FunctionCall → Prop} {c : Collector} {s : Session}
  {state : CollectorDomain}

theorem wpStatement (inv : Invariant tcx Fine Good Fit) (fine : Fine c) (good : Good s)
    (fit : Fit s state.calls) (statement : Statement) :
    Exec.wp (applyStatementEffect tcx c state statement) (Kept Good Fit s)
      (fun t => Good t ∧ s.Grows t) s := by
  cases statement with
  | other => exact ⟨good, s.growsRefl, fit⟩
  | assign place rvalue =>
    simp only [applyStatementEffect, Exec.wpBind, Exec.wpGet, Exec.wpLift, Exec.wpModify]
    refine ⟨?_, fun _ => ⟨good, s.growsRefl⟩⟩
    rintro ⟨rvalueTy, closures⟩ hr
    have grows := s.growsSetClosures closures
    have good' := inv.rvalue c s state rvalue rvalueTy closures fine good hr
    refine ⟨fun state' hu => ⟨good', grows, ?_⟩, fun _ => ⟨good', grows⟩⟩
    have calls : state'.calls = state.calls := @assignResultCalls tcx c state (some place) _ _ hu
    rw [calls]
    exact inv.fitMono s _ _ grows fit

theorem wpStatements (inv : Invariant tcx Fine Good Fit) (fine : Fine c) (good : Good s)
    (fit : Fit s state.calls) (statements : List Statement) :
    Exec.wp (statements.foldlM (applyStatementEffect tcx c) state) (Kept Good Fit s)
      (fun t => Good t ∧ s.Grows t) s := by
  refine Exec.wpFoldlM (fun _ state t => Kept Good Fit s state t) ?_ statements state s
    ⟨good, s.growsRefl, fit⟩
  rintro statement rest state t ⟨good, grows, fit⟩
  refine Exec.wpMono (wpStatement inv fine good fit statement) ?_ ?_
  · rintro state' u ⟨good', grows', fit'⟩
    exact ⟨good', grows.trans grows', fit'⟩
  · rintro u ⟨good', grows'⟩
    exact ⟨good', grows.trans grows'⟩

/- The round of one callee, in a form that the loop over the callees can use. -/
def Round (Good : Session → Prop) (Fit : Session → Finset FunctionCall → Prop) (c : Collector)
    (args : List Operand) (callee : PartialFunctionInfo) (s : Session) (state state' : CollectorDomain)
    (t : Session) : Prop :=
  Kept Good Fit s state' t ∧ state.calls ⊆ state'.calls ∧ Handled c args callee t state'

theorem wpIntrinsic (inv : Invariant tcx Fine Good Fit) (good : Good s) (fit : Fit s state.calls)
    {callee : PartialFunctionInfo} {args : List Operand} {argTys : ArgTys}
    (key : calleeKey callee = .withoutBody callee.inst.defId) :
    Exec.wp (processIntrinsic tcx args argTys state callee)
      (fun out t => Round Good Fit c args callee s state out.1 t)
      (fun t => Good t ∧ s.Grows t) s := by
  simp only [processIntrinsic, Exec.wpBind, Exec.wpModify, Exec.wpPure]
  have record := s.hasRecordInsert (.withoutBody callee.inst.defId argTys.argTys)
  have grows := s.growsInsert (.withoutBody callee.inst.defId argTys.argTys)
  refine ⟨⟨inv.withoutBody s _ _ good, grows, ?_⟩, Finset.subset_insert _ _, .inr ?_⟩
  · exact inv.fitInsert _ _ _ (inv.fitMono s _ _ grows fit) record
  · exact ⟨_, Finset.mem_insert_self _ _, rfl, key.symm, record⟩

theorem wpWithBody (inv : Invariant tcx Fine Good Fit) (fine : Fine c) (good : Good s)
    (fit : Fit s state.calls) {callee : PartialFunctionInfo} {args : List Operand} {fuel : Nat}
    (off : callee.stackItem ∉ c.virtualStack) (key : calleeKey callee = .withBody callee.inst)
    (descend : ∀ c s, Fine c.push → Good s → Exec.wp (run tcx fuel c) (Kept Good Fit s)
      (fun t => Good t ∧ s.Grows t) s) :
    Exec.wp (processWithBody tcx (run tcx fuel) c args state callee)
      (fun out t => Round Good Fit c args callee s state out.1 t)
      (fun t => Good t ∧ s.Grows t) s := by
  simp only [processWithBody, Exec.wpBind, Exec.wpLift, Exec.wpGet, Exec.wpModify, Exec.wpPure]
  refine ⟨fun body hb => ⟨fun collector hc => ?_, fun _ => ⟨good, s.growsRefl⟩⟩,
    fun _ => ⟨good, s.growsRefl⟩⟩
  have below := descend collector s (inv.enter c callee collector fine off hc) good
  unfold Exec.wp at below ⊢
  cases hr : run tcx fuel collector s with
  | mk result t =>
    rw [hr] at below
    cases result with
    | none => exact below
    | some results =>
      obtain ⟨good', grows, fit'⟩ := below
      have good'' := inv.descended c callee collector body s t results fuel fine good good' off hc hr fit'
      have record := (t.note (.descended collector s.fns s.closures results)).hasRecordInsert
        (recordOf callee.inst body results)
      have grows' := (grows.trans (t.growsNote (.descended collector s.fns s.closures results))).trans
        (Session.growsInsert (recordOf callee.inst body results) _)
      refine ⟨fun returnTy _ => ⟨⟨good'', grows', ?_⟩, Finset.subset_insert _ _, .inr ?_⟩,
        fun _ => ⟨good'', grows'⟩⟩
      · exact inv.fitInsert _ _ _ (inv.fitMono s _ _ grows' fit) record
      · exact ⟨_, Finset.mem_insert_self _ _, rfl, key.symm, record⟩

theorem wpInstance (inv : Invariant tcx Fine Good Fit) (fine : Fine c) (good : Good s)
    (fit : Fit s state.calls) {callee : PartialFunctionInfo} {args : List Operand}
    {argTys : ArgTys} {fuel : Nat} (off : callee.stackItem ∉ c.virtualStack)
    (descend : ∀ c s, Fine c.push → Good s → Exec.wp (run tcx fuel c) (Kept Good Fit s)
      (fun t => Good t ∧ s.Grows t) s) :
    Exec.wp (processInstance tcx (run tcx fuel) c args argTys state callee)
      (fun out t => Round Good Fit c args callee s state out.1 t)
      (fun t => Good t ∧ s.Grows t) s := by
  unfold processInstance
  cases kind : callee.inst.kind with
  | intrinsic | virtual => exact wpIntrinsic inv good fit (by simp [calleeKey, kind])
  | item | shim => exact wpWithBody inv fine good fit off (by simp [calleeKey, kind]) descend

theorem wpCallee (inv : Invariant tcx Fine Good Fit) (fine : Fine c) (good : Good s)
    (fit : Fit s state.calls) {args : List Operand} {argTys : ArgTys} {destination : Option Place}
    {fuel : Nat}
    (descend : ∀ c s, Fine c.push → Good s → Exec.wp (run tcx fuel c) (Kept Good Fit s)
      (fun t => Good t ∧ s.Grows t) s) (callee : PartialFunctionInfo) :
    Exec.wp (processCallee tcx (run tcx fuel) c args argTys destination state callee)
      (Round Good Fit c args callee s state) (fun t => Good t ∧ s.Grows t) s := by
  have noted := s.growsNote (.round c callee (decide (callee.stackItem ∈ c.virtualStack)))
  have good := inv.round c s callee fine good
  have fit := inv.fitMono s _ _ noted fit
  simp only [processCallee, Exec.wpBind, Exec.wpModify]
  by_cases on : callee.stackItem ∈ c.virtualStack
  · rw [if_pos (by simpa using on), Exec.wpPure]
    exact ⟨⟨good, noted, fit⟩, Finset.Subset.refl _, .inl on⟩
  · rw [if_neg (by simpa using on), Exec.wpBind]
    refine Exec.wpMono (wpInstance inv fine good fit on descend) ?_ (fun _ h => ⟨h.1, noted.trans h.2⟩)
    intro out t kept
    obtain ⟨⟨good', grows, fit'⟩, more, handled⟩ := kept
    rw [Exec.wpLift]
    refine ⟨fun state' ha => ?_, fun _ => ⟨good', noted.trans grows⟩⟩
    have calls := assignResultCalls ha
    have still : Handled c args callee t state' := handled.mono t.growsRefl (subset_of_eq calls.symm)
    exact ⟨⟨good', noted.trans grows, calls ▸ fit'⟩, calls ▸ more, still⟩

theorem wpCallees (inv : Invariant tcx Fine Good Fit) (fine : Fine c) (good : Good s)
    (fit : Fit s state.calls) {args : List Operand} {argTys : ArgTys} {destination : Option Place}
    {fuel : Nat}
    (descend : ∀ c s, Fine c.push → Good s → Exec.wp (run tcx fuel c) (Kept Good Fit s)
      (fun t => Good t ∧ s.Grows t) s) (plausibleFns : List PartialFunctionInfo) :
    Exec.wp (plausibleFns.foldlM (processCallee tcx (run tcx fuel) c args argTys destination) state)
      (fun state' t => Kept Good Fit s state' t ∧
        ∀ callee ∈ plausibleFns, Handled c args callee t state')
      (fun t => Good t ∧ s.Grows t) s := by
  have round : ∀ callee rest state1 t, (Kept Good Fit s state1 t ∧
      ∀ other ∈ plausibleFns, other ∉ callee :: rest → Handled c args other t state1) →
      Exec.wp (processCallee tcx (run tcx fuel) c args argTys destination state1 callee)
        (fun state2 u => Kept Good Fit s state2 u ∧
          ∀ other ∈ plausibleFns, other ∉ rest → Handled c args other u state2)
        (fun t => Good t ∧ s.Grows t) t := by
    rintro callee rest state1 t ⟨⟨good1, grows1, fit1⟩, handled⟩
    refine Exec.wpMono (wpCallee inv fine good1 fit1 descend callee) ?_ ?_
    · rintro state2 u ⟨⟨good2, grows2, fit2⟩, more, now⟩
      refine ⟨⟨good2, grows1.trans grows2, fit2⟩, fun other mem absent => ?_⟩
      by_cases same : other = callee
      · exact same ▸ now
      · exact (handled other mem (by simp [same, absent])).mono grows2 more
    · rintro u ⟨good2, grows2⟩
      exact ⟨good2, grows1.trans grows2⟩
  refine Exec.wpMono (Exec.wpFoldlM (fun rest state' t => Kept Good Fit s state' t ∧
    ∀ callee ∈ plausibleFns, callee ∉ rest → Handled c args callee t state') round plausibleFns
    state s ⟨⟨good, s.growsRefl, fit⟩, fun callee mem absent => absurd mem absent⟩) ?_ (fun _ h => h)
  rintro state' t ⟨kept, handled⟩
  exact ⟨kept, fun callee mem => handled callee mem (by simp)⟩

theorem wpProcessCall (inv : Invariant tcx Fine Good Fit) (fine : Fine c) (good : Good s)
    (fit : Fit s state.calls) {functionTy : Ty} {args : List Operand} {argTys : ArgTys}
    {destination : Option Place} {fuel : Nat}
    (descend : ∀ c s, Fine c.push → Good s → Exec.wp (run tcx fuel c) (Kept Good Fit s)
      (fun t => Good t ∧ s.Grows t) s) :
    Exec.wp (processCall tcx (run tcx fuel) c functionTy args argTys state destination)
      (Kept Good Fit s) (fun t => Good t ∧ s.Grows t) s := by
  have opaqueCase : ∀ defId t, Good t → s.Grows t → Exec.wp (processOpaque defId args argTys state)
      (Kept Good Fit s) (fun t => Good t ∧ s.Grows t) t := by
    intro defId t good' grown
    simp only [processOpaque, Exec.wpBind, Exec.wpModify, Exec.wpPure]
    have grows := grown.trans (t.growsInsert (.withoutBody defId argTys.argTys))
    have record := t.hasRecordInsert (.withoutBody defId argTys.argTys)
    exact ⟨inv.withoutBody t _ _ good', grows,
      inv.fitInsert _ _ _ (inv.fitMono s _ _ grows fit) record⟩
  unfold processCall
  split
  · rename_i defId substs _
    split
    · exact ⟨good, s.growsRefl, fit⟩
    · simp only [Exec.wpBind, Exec.wpGet, Exec.wpLift]
      refine ⟨fun plausibleFns _ => ?_, fun _ => ⟨good, s.growsRefl⟩⟩
      split
      · rename_i callee callees _
        simp only [Exec.wpBind, Exec.wpGet, Exec.wpModify, Exec.wpPure]
        refine Exec.wpMono (wpCallees inv fine good fit descend (callee :: callees)) ?_ (fun _ h => h)
        rintro state' t ⟨⟨good', grows, fit'⟩, handled⟩
        have grows' := t.growsNote (.processed c (callee :: callees) state' t.fns)
        exact ⟨inv.processed c t args _ state' fine good' handled, grows.trans grows',
          inv.fitMono t _ _ grows' fit'⟩
      · exact opaqueCase defId s good s.growsRefl
      · rename_i error _
        rw [Exec.wpBind, Exec.wpModify]
        exact opaqueCase defId _ (inv.unresolved c s error fine good) (s.growsNote _)
  · exact ⟨good, s.growsRefl, fit⟩

theorem wpTerminator (inv : Invariant tcx Fine Good Fit) (fine : Fine c) (good : Good s)
    (fit : Fit s state.calls) {fuel : Nat}
    (descend : ∀ c s, Fine c.push → Good s → Exec.wp (run tcx fuel c) (Kept Good Fit s)
      (fun t => Good t ∧ s.Grows t) s) (terminator : Terminator) :
    Exec.wp (applyTerminatorEffect tcx (run tcx fuel) c state terminator) (Kept Good Fit s)
      (fun t => Good t ∧ s.Grows t) s := by
  have stop : Good s ∧ s.Grows s := ⟨good, s.growsRefl⟩
  cases terminator with
  | call func args destination target unwind =>
    simp only [applyTerminatorEffect, Exec.wpBind, Exec.wpLift]
    exact ⟨fun functionTy _ => ⟨fun argTys _ => wpProcessCall inv fine good fit descend,
      fun _ => stop⟩, fun _ => stop⟩
  | drop place target unwind =>
    simp only [applyTerminatorEffect, Exec.wpBind, Exec.wpLift]
    refine ⟨fun placeTy _ => ?_, fun _ => stop⟩
    split
    · exact wpProcessCall inv fine good fit descend
    · exact ⟨good, s.growsRefl, fit⟩
  | other targets => exact ⟨good, s.growsRefl, fit⟩

theorem wpBlock (inv : Invariant tcx Fine Good Fit) (fine : Fine c) (good : Good s)
    (fit : Fit s state.calls) {fuel : Nat}
    (descend : ∀ c s, Fine c.push → Good s → Exec.wp (run tcx fuel c) (Kept Good Fit s)
      (fun t => Good t ∧ s.Grows t) s) (bb : Nat) :
    Exec.wp (applyBlock tcx (run tcx fuel) c bb state) (Kept Good Fit s)
      (fun t => Good t ∧ s.Grows t) s := by
  simp only [applyBlock, Exec.wpBind, Exec.wpLift]
  refine ⟨fun data _ => ?_, fun _ => ⟨good, s.growsRefl⟩⟩
  refine Exec.wpMono (wpStatements inv fine good fit data.statements) ?_ (fun _ h => h)
  rintro state' t ⟨good', grows, fit'⟩
  refine Exec.wpMono (wpTerminator inv fine good' fit' descend data.terminator) ?_ ?_
  · rintro state'' u ⟨good'', grows', fit''⟩
    exact ⟨good'', grows.trans grows', fit''⟩
  · rintro u ⟨good'', grows'⟩
    exact ⟨good'', grows.trans grows'⟩

theorem engineInvariant (inv : Invariant tcx Fine Good Fit) (fine : Fine c) {fuel : Nat}
    (descend : ∀ c s, Fine c.push → Good s → Exec.wp (run tcx fuel c) (Kept Good Fit s)
      (fun t => Good t ∧ s.Grows t) s) (s : Session) :
    (analysis tcx (run tcx fuel) c).Invariant (fun _ t => Good t ∧ s.Grows t)
      (fun t state => Fit t state.calls) (fun _ _ _ => True) (fun _ _ => True) Session.Grows
      (fun t => Good t ∧ s.Grows t) where
  refl := Session.growsRefl
  trans _ _ _ := Session.Grows.trans
  goodMono s t state grows fit := inv.fitMono s t state.calls grows fit
  outMono _ _ _ _ _ _ := trivial
  goodJoin t a b joined ch fitA fitB hj := by
    rw [(CollectorDomain.joinCalls hj).1]
    exact inv.fitUnion t _ _ fitA fitB
  outLeft _ _ _ _ _ _ _ _ := trivial
  outRight _ _ _ _ _ _ _ _ := trivial
  stops _ _ h := h
  step visited bb state t h fit _ := by
    refine Exec.wpMono (wpBlock inv fine h.1 fit descend bb) ?_ ?_
    · rintro state' u ⟨good, grows, fit'⟩
      exact ⟨⟨good, h.2.trans grows⟩, fit', trivial, grows⟩
    · rintro u ⟨good, grows⟩
      exact ⟨good, h.2.trans grows⟩

theorem wpAnalyzeBody (inv : Invariant tcx Fine Good Fit) (fine : Fine c) (good : Good s)
    {fuel : Nat} (descend : ∀ c s, Fine c.push → Good s → Exec.wp (run tcx fuel c) (Kept Good Fit s)
      (fun t => Good t ∧ s.Grows t) s) (rounds : Nat) :
    Exec.wp (analyzeBody tcx (run tcx fuel) rounds c) (Kept Good Fit s)
      (fun t => Good t ∧ s.Grows t) s := by
  simp only [analyzeBody, bottomValue, Exec.wpBind, Exec.wpGet, Exec.wpLift, Exec.wpModify,
    Exec.wpPure]
  refine ⟨fun closures hc => ?_, fun _ => ⟨good, s.growsRefl⟩⟩
  have good' := inv.closures c s closures fine good hc
  have grows := s.growsSetClosures closures
  refine ⟨fun places _ => ?_, fun _ => ⟨good', grows⟩⟩
  have loop := Analysis.wpRun (engineInvariant inv fine descend s) Analysis.anySchedule rounds
    (.new places) c.substitutedBody.basicBlocks.length (tcx.reversePostorder c.substitutedBody)
    (s.setClosures closures) ⟨good', grows⟩ (inv.fitEmpty _) trivial
    (fun visited _ => Analysis.anyReadySeq _ visited)
  refine Exec.wpMono loop ?_ (fun _ h => h)
  rintro state t ⟨⟨_, good'', grows'⟩, fit, _, _⟩
  exact ⟨good'', grows', fit⟩

theorem wpRunCollector (inv : Invariant tcx Fine Good Fit) (fuel : Nat) : ∀ (c : Collector)
    (s : Session), Fine c.push → Good s → Exec.wp (run tcx fuel c) (Kept Good Fit s)
      (fun t => Good t ∧ s.Grows t) s := by
  induction fuel with
  | zero => intro c s _ good; exact ⟨good, s.growsRefl⟩
  | succ fuel ih =>
    intro c s fine good
    simp only [run, Exec.wpBind, Exec.wpGet]
    cases hg : s.fns.getWithBody c.push.currentFunction.inst with
    | some info =>
      rw [Exec.wpLift]
      refine ⟨fun state hf => ⟨good, s.growsRefl, ?_⟩, fun _ => ⟨good, s.growsRefl⟩⟩
      have mem : info ∈ s.fns.fns := List.mem_of_find?_eq_some hg
      cases info with
      | withBody inst places calls body span unhandled =>
        cases Option.some.inj hf
        exact inv.fitCached s _ calls good mem rfl
      | withoutBody => contradiction
    | none => exact wpAnalyzeBody inv fine good ih fuel

theorem wpCollect (inv : Invariant tcx Fine Good Fit) (fuel : Nat) (inst : Instance)
    (shallow : Bool) (start : Good (startSession inst))
    (fine : ∀ argTys body, Fine (push ⟨[], [], .function inst argTys, body, shallow⟩))
    (origin : ∀ s body results, Good s → Fit s results.calls →
      Good (s.insert (recordOf inst body results))) :
    Exec.wp (collect tcx fuel inst shallow)
      (fun _ t => Good t ∧ (startSession inst).Grows t ∧ t.HasRecord (.withBody inst))
      (fun t => Good t ∧ (startSession inst).Grows t) (startSession inst) := by
  have stop := And.intro start (startSession inst).growsRefl
  simp only [collect, Exec.wpBind, Exec.wpLift, Exec.wpModify, new]
  refine ⟨fun body _ => ⟨fun argTys _ => ⟨fun collector hc => ?_, fun _ => stop⟩, fun _ => stop⟩,
    fun _ => stop⟩
  obtain ⟨body', _, rfl⟩ := Option.map_eq_some_iff.mp hc
  refine Exec.wpMono (wpRunCollector inv fuel _ _ (fine argTys body') start) ?_ (fun _ h => h)
  rintro results t ⟨good, grows, fit⟩
  exact ⟨origin t body results good fit, grows.trans (t.growsInsert _), t.hasRecordInsert _⟩

end

/- The rule for what the log says. `Fine` speaks of the collectors that make the steps, `Logged` of
each event. -/
structure LogRule (Fine : Collector → Prop) (Logged : Event → Prop) : Prop where
  start : ∀ inst argTys body shallow, Fine (push ⟨[], [], .function inst argTys, body, shallow⟩)
  enter : ∀ c callee body, Fine c → callee.stackItem ∉ c.virtualStack →
    Fine (push ⟨c.virtualStack, c.inProgress, callee, body, c.shallow⟩)
  unresolved : ∀ c error, Fine c → Logged (.unresolved c error)
  round : ∀ c callee, Fine c →
    Logged (.round c callee (decide (callee.stackItem ∈ c.virtualStack)))
  descended : ∀ c fns closures results, Logged (.descended c fns closures results)
  processed : ∀ c s args plausibleFns state, Fine c →
    (∀ callee ∈ plausibleFns, Handled c args callee s state) →
      Logged (.processed c plausibleFns state s.fns)

section
variable {Fine : Collector → Prop} {Logged : Event → Prop}

theorem LogRule.invariant (rule : LogRule Fine Logged) (tcx : TyCtxt) :
    Invariant tcx Fine (fun s => ∀ e ∈ s.log, Logged e) (fun _ _ => True) where
  fitEmpty _ := trivial
  fitMono _ _ _ _ _ := trivial
  fitUnion _ _ _ _ _ := trivial
  fitInsert _ _ _ _ _ := trivial
  fitCached _ _ _ _ _ _ := trivial
  enter c callee collector fine off made := by
    obtain ⟨body, _, same⟩ := Option.map_eq_some_iff.mp made
    subst same
    exact rule.enter c callee body fine off
  closures _ _ _ _ all _ := all
  rvalue _ _ _ _ _ _ _ all _ := all
  unresolved _ _ _ fine all := Session.allNoted _ all (rule.unresolved _ _ fine)
  round _ _ _ fine all := Session.allNoted _ all (rule.round _ _ fine)
  withoutBody _ _ _ all := all
  descended _ _ _ _ _ _ _ _ _ _ all _ _ _ _ := Session.allNoted _ all (rule.descended _ _ _ _)
  processed _ _ _ _ _ fine all handled := Session.allNoted _ all (rule.processed _ _ _ _ _ fine handled)

theorem LogRule.collect (rule : LogRule Fine Logged) (tcx : TyCtxt) (fuel : Nat) (inst : Instance)
    (shallow : Bool) :
    ∀ e ∈ (Collector.collect tcx fuel inst shallow (startSession inst)).2.log, Logged e := by
  have run := wpCollect (rule.invariant tcx) fuel inst shallow (fun _ mem => by cases mem)
    (fun argTys body => rule.start inst argTys body shallow) (fun _ _ _ all _ => all)
  exact Exec.wpState (Exec.wpMono run (fun _ _ h => h.1) (fun _ h => h.1))

end
end Collector
end Scrutinizer
