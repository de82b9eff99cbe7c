import Scrutinizer.Coupling
import Scrutinizer.PlainCrate
import Scrutinizer.RecordOrigins

/-! Whether a record found for an instance says as much as a new analysis of its body would.
The look-up compares the instance alone; the record says as much when the descents into the
instance come from one context. -/
namespace Scrutinizer

def Event.SameStack (c c' : Collector) : Event → Prop
  | .round caller callee _ => caller = c.push →
      (callee.stackItem ∈ c.push.virtualStack ↔ callee.stackItem ∈ c'.push.virtualStack)
  | _ => True

def Event.StillMissing (c : Collector) (closures : ClosureInfoStorage) : Event → Prop
  | .unresolved caller error => caller = c.push → closures.get error.defId = none
  | _ => True

/- Two descents into one instance come from the same context: the tracked arguments and what is
known of the closure are the same, and so is what the analysis of the body asks of the stack
and of the closures. -/
structure SameContext (log : List Event) (c c' : Collector) (closures' : ClosureInfoStorage) : Prop where
  function : c'.currentFunction = c.currentFunction
  stack : ∀ e ∈ log, e.SameStack c c'
  closures : ∀ e ∈ log, e.StillMissing c closures'

def Event.Agrees (log : List Event) : Event → Event → Prop
  | .descended c _ _ _, .descended c' _ closures' _ =>
      c.currentFunction.inst = c'.currentFunction.inst → SameContext log c c' closures'
  | _, _ => True

def Steady (log : List Event) : Prop := ∀ e ∈ log, ∀ e' ∈ log, e.Agrees log e'

namespace Collector

structure Contains (tcx : TyCtxt) (c : Collector) (results fresh : CollectorDomain) : Prop where
  calls : fresh.calls ⊆ results.calls
  unhandled : fresh.unhandled ⊆ results.unhandled
  returned : ∀ tracked, fresh.get (tcx.normalize c.defId .returnPlace) = some tracked →
    ∃ kept, results.get (tcx.normalize c.defId .returnPlace) = some kept ∧ tracked.types ⊆ kept.types

theorem containsSelf (tcx : TyCtxt) (c : Collector) (results : CollectorDomain) :
    Contains tcx c results results :=
  ⟨Finset.Subset.refl _, Finset.Subset.refl _,
    fun tracked known => ⟨tracked, known, Finset.Subset.refl _⟩⟩

def SameStorages (s s' : Session) : Prop := s'.fns = s.fns ∧ s'.closures = s.closures

section
variable {tcx : TyCtxt}

theorem sameCoupling (c : Collector) (fuel fuel' : Nat)
    (below : ∀ collector, Exec.Coupled (fun _ => True) SameStorages (run tcx fuel collector)
      (run tcx fuel' collector) Eq) :
    Coupling tcx c c fuel fuel' (fun _ => True) SameStorages Eq where
  function := rfl
  body := rfl
  shallow := rfl
  before _ _ _ _ := trivial
  note _ _ _ _ same := same
  withoutBody s s' did args same := by
    refine ⟨?_, same.2⟩
    simp only [Session.insert, same.1]
  closures s s' closures closures' same h h' := by
    rw [same.2, h] at h'
    exact ⟨same.1, (Option.some.inj h').symm⟩
  rvalue s s' state rvalue ty ty' closures closures' same h h' := by
    rw [same.2, h] at h'
    exact ⟨same.1, (Prod.mk.inj (Option.some.inj h')).2.symm⟩
  alike callee callee' same := by
    subst same
    exact ⟨rfl, rfl⟩
  skip _ _ _ _ := Iff.rfl
  resolved s s' did substs argTys fns r' _ same h h' := by
    rw [same.2, h] at h'
    exact ⟨fns, (Option.some.inj h').symm, List.forall₂_same.mpr (fun _ _ => rfl)⟩
  failed s s' did substs argTys error r' _ same h h' := by
    rw [same.2, h] at h'
    exact ⟨error, (Option.some.inj h').symm⟩
  descends callee callee' args state equal := by
    subst equal
    intro s s' a t b t' h h' _ same
    obtain ⟨body, own, results, u, returned, hb, ho, ran, hr, rfl, rfl⟩ := withBodyRan h
    obtain ⟨body', own', results', u', returned', hb', ho', ran', hr', rfl, rfl⟩ := withBodyRan h'
    cases Option.some.inj (hb.symm.trans hb')
    cases Option.some.inj (ho.symm.trans ho')
    obtain ⟨⟨fns, closures⟩, rfl⟩ := below _ _ _ _ _ _ _ ran ran' trivial same
    cases Option.some.inj (hr.symm.trans hr')
    refine ⟨⟨?_, closures⟩, rfl⟩
    simp only [stored, Session.insert, Session.note, fns]

theorem runSame (fuel : Nat) : ∀ fuel' collector, Exec.Coupled (fun _ => True) SameStorages
    (run tcx fuel collector) (run tcx fuel' collector) Eq := by
  induction fuel with
  | zero => intro fuel' collector s s' a t b t' h; cases h
  | succ fuel ih =>
    intro fuel' collector s s' a t b t' h h' _ same
    cases fuel' with
    | zero => cases h'
    | succ fuel' =>
      simp only [run, Exec.bindSome, Exec.getSome] at h h'
      obtain ⟨_, _, ⟨rfl, rfl⟩, h⟩ := h
      obtain ⟨_, _, ⟨rfl, rfl⟩, h'⟩ := h'
      rw [same.1] at h'
      cases known : s.fns.getWithBody collector.push.currentFunction.inst with
      | some info =>
        rw [known] at h h'
        obtain ⟨hi, rfl⟩ := Exec.liftSome.mp h
        obtain ⟨hi', rfl⟩ := Exec.liftSome.mp h'
        exact ⟨same, Option.some.inj (hi.symm.trans hi')⟩
      | none =>
        rw [known] at h h'
        exact coupledBody (sameCoupling collector.push fuel fuel' (ih fuel')) fuel fuel'
          s s' a t b t' h h' trivial same

/- A session of the analysis that made a record, seen from a later descent. -/
structure Past (fns : FunctionInfoStorage) (closures : ClosureInfoStorage) (log : List Event)
    (s : Session) : Prop where
  fns : s.fns.fns <+: fns.fns
  closures : s.closures.Within closures
  log : s.log <+: log

theorem Past.earlier {fns : FunctionInfoStorage} {closures : ClosureInfoStorage} {log : List Event}
    {s t : Session} (past : Past fns closures log t) (extends_ : s.Extends t) : Past fns closures log s :=
  ⟨extends_.grows.fns.trans past.fns, extends_.closures.trans past.closures,
    extends_.grows.log.trans past.log⟩

/- A session of a new analysis from that descent on. A closure that it knows was known to the
first analysis or at the descent. -/
structure Ahead (fns : FunctionInfoStorage) (closures : ClosureInfoStorage) (s s' : Session) : Prop where
  records : fns.fns <+: s'.fns.fns
  known : closures.Within s'.closures
  missing : ∀ did, closures.get did = none → s.closures.get did = none → s'.closures.get did = none

section
variable {fns : FunctionInfoStorage} {closures : ClosureInfoStorage} {log : List Event}
  {c : Collector} {s t : Session} {results : CollectorDomain} {fuel : Nat}

theorem storedRecord (c : Collector) (before after : Session) (results : CollectorDomain) (body : Body) :
    (stored c before after results body).HasRecord (.withBody c.currentFunction.inst) :=
  Session.hasRecordInsert (recordOf c.currentFunction.inst body results) _

theorem runFound {f : FunctionInfo} (ran : run tcx fuel c s = (some results, t))
    (found : s.fns.getWithBody c.currentFunction.inst = some f) :
    CollectorDomain.fromRegularFnInfo f = some results ∧ s = t := by
  cases fuel with
  | zero => cases ran
  | succ fuel =>
    have pushed : s.fns.getWithBody c.push.currentFunction.inst = some f := found
    simp only [run, Exec.bindSome, Exec.getSome] at ran
    obtain ⟨_, _, ⟨rfl, rfl⟩, ran⟩ := ran
    rw [pushed] at ran
    exact Exec.liftSome.mp ran

theorem runMissing (ran : run tcx fuel c s = (some results, t))
    (missing : s.fns.getWithBody c.currentFunction.inst = none) :
    ∃ k, analyzeBody tcx (run tcx k) k c.push s = (some results, t) := by
  cases fuel with
  | zero => cases ran
  | succ fuel =>
    have pushed : s.fns.getWithBody c.push.currentFunction.inst = none := missing
    simp only [run, Exec.bindSome, Exec.getSome] at ran
    obtain ⟨_, _, ⟨rfl, rfl⟩, ran⟩ := ran
    rw [pushed] at ran
    exact ⟨fuel, ran⟩

/- In a steady run, the first record of an instance is from the descent that found none, also
when that descent leads to others into the same instance. -/
theorem firstIsOwn (steady : Steady log) (ran : run tcx fuel c s = (some results, t))
    {body : Body} (past : (stored c s t results body).log <+: log) {f : FunctionInfo}
    (found : (stored c s t results body).fns.getWithBody c.currentFunction.inst = some f) :
    CollectorDomain.fromRegularFnInfo f = some results := by
  have grows := runExtends ran
  have later := (extendsStored c s t results body).grows.fns
  cases start : s.fns.getWithBody c.currentFunction.inst with
  | some g =>
    -- the run found the record itself
    have stays := Session.Extends.found (grows.grows.fns.trans later) start
    cases Option.some.inj (found.symm.trans stays)
    exact (runFound ran start).1
  | none =>
    cases ended : t.fns.getWithBody c.currentFunction.inst with
    | none =>
      rw [FunctionInfoStorage.getWithBodyKey] at ended found
      obtain ⟨rfl, _⟩ := FunctionInfoStorage.insertNew ended found
      rfl
    | some g =>
      -- a descent inside would be from another context
      obtain ⟨inner, fns', closures', results', mem, same, off, above⟩ := madeInside ran start ended
      have outerMem : .descended c s.fns s.closures results ∈ log :=
        past.subset (storedLogged c s t results body)
      have innerMem : .descended inner fns' closures' results' ∈ log :=
        past.subset (List.mem_append_left _ mem)
      have context := steady _ outerMem _ innerMem same.symm
      have item : c.currentFunction.stackItem ∈ c.push.virtualStack :=
        List.mem_append_right _ (List.mem_singleton_self _)
      rw [context.function] at off
      exact absurd (above item) off

theorem cachedCall (steady : Steady log) {c' : Collector} {callee callee' : PartialFunctionInfo}
    {args : List Operand} {state : CollectorDomain} {fuel' : Nat} {out out' : CollectorDomain × TrackedTy}
    {s s' t t' : Session} (same : callee.Alike callee')
    (h : processWithBody tcx (run tcx fuel) c args state callee s = (some out, t))
    (h' : processWithBody tcx (run tcx fuel') c' args state callee' s' = (some out', t'))
    (past : Past fns closures log t) (ahead : Ahead fns closures s s') :
    Ahead fns closures t t' ∧ out = out' := by
  obtain ⟨body, own, results, u, returned, hb, _, ran, hr, rfl, rfl⟩ := withBodyRan h
  obtain ⟨body', own', results', u', returned', hb', _, ran', hr', rfl, rfl⟩ := withBodyRan h'
  obtain ⟨inst, trackedArgs⟩ := same
  obtain ⟨f, found⟩ := Session.recordFound (storedRecord _ s u results body)
  have first := firstIsOwn steady ran past.log found
  have there : s'.fns.getWithBody callee'.inst = some f :=
    inst ▸ Session.Extends.found (past.fns.trans ahead.records) found
  obtain ⟨again, rfl⟩ := runFound ran' there
  cases Option.some.inj (first.symm.trans again)
  rw [inst] at hb' hr'
  cases Option.some.inj (hb.symm.trans hb')
  cases Option.some.inj (hr.symm.trans hr')
  rw [inst]
  refine ⟨⟨ahead.records.trans (Session.growsInsert _ _).fns, ahead.known, ?_⟩, rfl⟩
  intro did unknown absent
  apply ahead.missing did unknown
  cases before : s.closures.get did with
  | none => rfl
  | some info =>
    obtain ⟨info', after, _⟩ := (runExtends ran).closures did info before
    exact absurd (absent.symm.trans after) (by simp)

/- The analysis that made the record and a new one at a later descent. All the callees of the
new one are found, and their records say what the first analysis was told. -/
theorem cachedCoupling (steady : Steady log) {c' : Collector} (fuel fuel' : Nat)
    (context : SameContext log c c' closures) (body : c'.substitutedBody = c.substitutedBody)
    (shallow : c'.shallow = c.shallow) :
    Coupling tcx c.push c'.push fuel fuel' (Past fns closures log) (Ahead fns closures)
      PartialFunctionInfo.Alike where
  function := context.function
  body := body
  shallow := shallow
  before _ _ extends_ past := past.earlier extends_
  note _ _ _ _ ahead := ⟨ahead.records, ahead.known, ahead.missing⟩
  withoutBody s s' did args ahead :=
    ⟨ahead.records.trans (s'.fns.insertPrefix _), ahead.known, ahead.missing⟩
  closures s s' u u' ahead h h' := by
    have function : c'.push.currentFunction = c.push.currentFunction := context.function
    have own : c.push.collectClosures tcx s'.closures = some u' := by
      have bodies : c'.push.substitutedBody = c.push.substitutedBody := body
      rw [collectClosures, bodies, function] at h'
      exact h'
    refine ⟨ahead.records, ahead.known.trans (withinCollect h'), ?_⟩
    exact fun did missing => missingCollect (ahead.missing did missing) h own
  rvalue s s' state rvalue ty ty' u u' ahead h h' := by
    have function : c'.push.currentFunction = c.push.currentFunction := context.function
    have bodies : c'.push.substitutedBody = c.push.substitutedBody := body
    refine ⟨ahead.records, ahead.known.trans (withinRvalue h'), ?_⟩
    rw [bodies, function] at h'
    exact fun did missing => missingRvalue (ahead.missing did missing) h h'
  alike _ _ same := same
  skip s callee skipped past := by
    have mem : .round c.push callee skipped ∈ log :=
      past.log.subset (List.mem_append_right _ (List.mem_singleton_self _))
    exact context.stack _ mem rfl
  resolved s s' did substs argTys found r' past ahead h h' := by
    have function : c'.push.currentFunction = c.push.currentFunction := context.function
    rw [function] at h'
    exact PartialFunctionInfo.resolvedLater (past.closures.trans ahead.known) h h'
  failed s s' did substs argTys error r' past ahead h h' := by
    have function : c'.push.currentFunction = c.push.currentFunction := context.function
    rw [function] at h'
    have mem : .unresolved c.push error ∈ log :=
      past.log.subset (List.mem_append_right _ (List.mem_singleton_self _))
    have unknown := context.closures _ mem rfl
    obtain ⟨absent, again⟩ := PartialFunctionInfo.failedLater h
    exact again r' (ahead.missing error.defId unknown absent) h'
  descends _ _ _ _ same _ _ _ _ _ _ h h' past ahead := cachedCall steady same h h' past ahead

end

theorem freshIsCached {log : List Event} {shallow : Bool} (steady : Steady log) {t before after : Session}
    {c : Collector} {results : CollectorDomain} (recent : t.log = log)
    (descended : Descended tcx shallow t c before after results) (made : Made tcx shallow before)
    (started : before.Extends t) {rounds : Nat} {other : List Event} {fresh : CollectorDomain}
    {ended : Session} (again : analyzeBody tcx (run tcx rounds) rounds c.push
      ⟨before.fns, before.closures, other⟩ = (some fresh, ended)) : fresh = results := by
  obtain ⟨fuel, ran⟩ := descended.ran
  cases known : before.fns.getWithBody c.currentFunction.inst with
  | none =>
    have analysed := runMissing ran known
    obtain ⟨k, analysed⟩ := analysed
    exact (coupledBody (sameCoupling c.push k rounds (runSame k rounds)) k rounds before _ results after
      fresh ended analysed again trivial ⟨rfl, rfl⟩).2.symm
  | some f =>
    obtain ⟨c1, before1, after1, results1, first, inst, absent, record⟩ := made _ f known
    obtain ⟨fuel1, ran1⟩ := first.ran
    obtain ⟨k, analysed⟩ := runMissing ran1 (inst ▸ absent)
    cases Option.some.inj (record.symm.trans (runFound ran known).1)
    have agrees := steady _ (recent ▸ started.grows.log.subset first.logged) _ (recent ▸ descended.logged)
    have context : SameContext log c1 c before.closures := agrees inst
    have body : c.substitutedBody = c1.substitutedBody := by
      have own := first.body
      rw [inst, descended.body] at own
      exact Option.some.inj own
    have shallow := descended.shallow.trans first.shallow.symm
    have coupling := @cachedCoupling tcx before.fns before.closures log c1 steady c k rounds context body shallow
    have past : Past before.fns before.closures log after1 :=
      ⟨first.later.grows.fns, first.later.closures,
        first.later.grows.log.trans (recent ▸ started.grows.log)⟩
    have ahead : Ahead before.fns before.closures before1 ⟨before.fns, before.closures, other⟩ :=
      ⟨List.prefix_refl _, .refl _, fun _ unknown _ => unknown⟩
    exact (coupledBody coupling k rounds before1 _ results after1 fresh ended analysed again past ahead).2.symm

theorem cachedContainsFresh {tcx : TyCtxt} {fuel : Nat} {inst : Instance} {shallow : Bool}
    (steady : Steady (collect tcx fuel inst shallow (startSession inst)).2.log) :
    ∀ c fns closures results, .descended c fns closures results ∈
        (collect tcx fuel inst shallow (startSession inst)).2.log →
      (∀ rounds log fresh ended, analyzeBody tcx (run tcx rounds) rounds c.push ⟨fns, closures, log⟩ =
        (some fresh, ended) → Contains tcx c results fresh) ∧
      ∃ f kept, (collect tcx fuel inst shallow (startSession inst)).2.fns.getWithBody
          c.currentFunction.inst = some f ∧
        CollectorDomain.fromRegularFnInfo f = some kept ∧ Contains tcx c kept results := by
  intro c fns closures results mem
  obtain ⟨t, known, sameLog, more⟩ := collectKnown tcx fuel inst shallow
  obtain ⟨before, after, rfl, rfl, descended, made, started⟩ :=
    known.descents c fns closures results (sameLog ▸ mem)
  constructor
  · intro rounds log fresh ended again
    rw [freshIsCached steady sameLog.symm descended made started again]
    exact containsSelf tcx c results
  · obtain ⟨body, ended⟩ := descended.ended
    obtain ⟨fuel', ran⟩ := descended.ran
    obtain ⟨f, found⟩ := Session.recordFound (storedRecord c before after results body)
    have first := firstIsOwn steady ran (sameLog ▸ ended.grows.log) found
    exact ⟨f, results, Session.Extends.found (ended.grows.fns.trans more) found, first,
      containsSelf tcx c results⟩

end

instance : DecidableEq Collector := fun a b => decidable_of_iff (a.virtualStack = b.virtualStack ∧
    a.inProgress = b.inProgress ∧ a.currentFunction = b.currentFunction ∧
    a.substitutedBody = b.substitutedBody ∧ a.shallow = b.shallow) (by cases a; cases b; simp)

instance (c c' : Collector) : DecidablePred (Event.SameStack c c')
  | .round caller callee _ => inferInstanceAs (Decidable (caller = c.push →
      (callee.stackItem ∈ c.push.virtualStack ↔ callee.stackItem ∈ c'.push.virtualStack)))
  | .unresolved _ _ | .descended _ _ _ _ | .processed _ _ _ _ => .isTrue trivial

instance (c : Collector) (closures : ClosureInfoStorage) : DecidablePred (Event.StillMissing c closures)
  | .unresolved caller error =>
      inferInstanceAs (Decidable (caller = c.push → closures.get error.defId = none))
  | .round _ _ _ | .descended _ _ _ _ | .processed _ _ _ _ => .isTrue trivial

instance (log : List Event) (c c' : Collector) (closures' : ClosureInfoStorage) :
    Decidable (SameContext log c c' closures') :=
  decidable_of_iff (c'.currentFunction = c.currentFunction ∧ (∀ e ∈ log, e.SameStack c c') ∧
    ∀ e ∈ log, e.StillMissing c closures') ⟨fun h => ⟨h.1, h.2.1, h.2.2⟩, fun h => ⟨h.1, h.2, h.3⟩⟩

instance (log : List Event) (e e' : Event) : Decidable (e.Agrees log e') :=
  match e, e' with
  | .descended c _ _ _, .descended c' _ closures' _ => inferInstanceAs (Decidable
      (c.currentFunction.inst = c'.currentFunction.inst → SameContext log c c' closures'))
  | .unresolved _ _, _ | .round _ _ _, _ | .processed _ _ _ _, _ => .isTrue trivial
  | .descended _ _ _ _, .unresolved _ _ | .descended _ _ _ _, .round _ _ _
  | .descended _ _ _ _, .processed _ _ _ _ => .isTrue trivial

instance (log : List Event) : Decidable (Steady log) :=
  inferInstanceAs (Decidable (∀ e ∈ log, ∀ e' ∈ log, e.Agrees log e'))

def concrete (did : DefId) : Ty := .ref (.adt did []) .not

def traitObject : Ty := .ref (.dynamic 2 []) .not

def dispatching : Body :=
  ⟨1, [Ty.unit, traitObject], [⟨[], .call (.constant (.fnDef 7 [.dynamic 2 []])) [.copy (.fromLocal 1)]
    .returnPlace (some 1) none⟩, .returning], [], 0⟩

def twice (first second : DefId) : Body :=
  ⟨0, [Ty.unit, traitObject, traitObject],
    [⟨[.assign (.fromLocal 1) (.cast .unsize (.constant (concrete first)) traitObject)],
        .call (.constant (.fnDef 1 [])) [.move (.fromLocal 1)] .returnPlace (some 1) none⟩,
     ⟨[.assign (.fromLocal 2) (.cast .unsize (.constant (concrete second)) traitObject)],
        .call (.constant (.fnDef 1 [])) [.move (.fromLocal 2)] .returnPlace (some 2) none⟩,
     .returning], [], 0⟩

noncomputable def dispatchCrate (first second : DefId) : TyCtxt :=
  {TyCtxt.plain (.listed [concrete 3, concrete 4, .adt 3 [], .adt 4 []] (by decide)) with
    fnSig := fun did => match did with
      | 7 => ⟨[.ref 0 (.param 0) .not], .unit⟩
      | 1 => ⟨[.ref 0 (.dynamic 2 [] 0) .not], .unit⟩
      | 8 => ⟨[.ref 0 (.adt 3 []) .not], .unit⟩
      | 9 => ⟨[.ref 0 (.adt 4 []) .not], .unit⟩
      | _ => ⟨[], .unit⟩
    loadBodyAndFacts := fun did => match did with
      | 0 => some (twice first second)
      | 1 => some dispatching
      | 8 => some ⟨1, [Ty.unit, concrete 3], [.returning], [], 0⟩
      | 9 => some ⟨1, [Ty.unit, concrete 4], [.returning], [], 0⟩
      | _ => none
    allPlaces := fun _ body => body.localDecls.zipIdx.flatMap (fun decl =>
      if decl.1.isRef then [.fromLocal decl.2, ⟨decl.2, [.deref]⟩] else [.fromLocal decl.2])
    resolve := fun did args => match did, args with
      | 7, [.adt 3 []] => some ⟨.item, 8, []⟩
      | 7, [.adt 4 []] => some ⟨.item, 9, []⟩
      | 7, args => some ⟨.virtual, 7, args⟩
      | did, args => some ⟨.item, did, args⟩}

def dispatchOrigin : Instance := ⟨.item, 0, []⟩

def losesCall (tcx : TyCtxt) : Event → Bool
  | .descended c fns closures results =>
      match analyzeBody tcx (run tcx 20) 20 c.push ⟨fns, closures, []⟩ with
      | (some fresh, _) => decide (¬ fresh.calls ⊆ results.calls)
      | (none, _) => false
  | _ => false

theorem otherContextLost : ¬ ∀ c fns closures results,
    .descended c fns closures results ∈
        (collect (dispatchCrate 3 4) 20 dispatchOrigin false (startSession dispatchOrigin)).2.log →
      ∀ rounds log fresh ended,
        analyzeBody (dispatchCrate 3 4) (run (dispatchCrate 3 4) rounds) rounds c.push ⟨fns, closures, log⟩ =
          (some fresh, ended) → Contains (dispatchCrate 3 4) c results fresh := by
  intro kept
  have lost : (collect (dispatchCrate 3 4) 20 dispatchOrigin false (startSession dispatchOrigin)).2.log.any
      (losesCall (dispatchCrate 3 4)) = true := by decide +kernel
  obtain ⟨event, mem, loses⟩ := List.any_eq_true.mp lost
  unfold losesCall at loses
  split at loses
  case h_1 c fns closures results =>
    split at loses
    case h_1 fresh ended again =>
      exact of_decide_eq_true loses (kept c fns closures results mem 20 [] fresh ended again).calls
    case h_2 => cases loses
  case h_2 => cases loses

def Event.enters (inst : Instance) : Event → Bool
  | .descended c _ _ _ => c.currentFunction.inst == inst
  | _ => false

theorem oneContextKept : ∃ c fns closures results,
    .descended c fns closures results ∈
        (collect (dispatchCrate 3 3) 20 dispatchOrigin false (startSession dispatchOrigin)).2.log ∧
      c.currentFunction.inst = ⟨.item, 1, []⟩ ∧
      ∀ rounds log fresh ended,
        analyzeBody (dispatchCrate 3 3) (run (dispatchCrate 3 3) rounds) rounds c.push ⟨fns, closures, log⟩ =
          (some fresh, ended) → Contains (dispatchCrate 3 3) c results fresh := by
  have entered : (collect (dispatchCrate 3 3) 20 dispatchOrigin false (startSession dispatchOrigin)).2.log.any
      (Event.enters ⟨.item, 1, []⟩) = true := by decide +kernel
  obtain ⟨event, mem, enters⟩ := List.any_eq_true.mp entered
  unfold Event.enters at enters
  split at enters
  case h_1 c fns closures results =>
    exact ⟨c, fns, closures, results, mem, eq_of_beq enters,
      (cachedContainsFresh (by decide +kernel) c fns closures results mem).1⟩
  case h_2 => cases enters

end Collector
end Scrutinizer
