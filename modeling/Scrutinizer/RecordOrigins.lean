import Scrutinizer.Library.Coupled
import Scrutinizer.SessionGrowth

/-! Where the records of a collection come from. The first record of an instance is what its
first descent returned, and every later descent returns the same. -/
namespace Scrutinizer

namespace FunctionInfoStorage

theorem getWithBodyKey (fns : FunctionInfoStorage) (inst : Instance) :
    fns.getWithBody inst = fns.fns.find? (fun f => decide (f.key = .withBody inst)) := by
  rw [getWithBody, isWithBodyKey]

theorem foundBefore {fns : FunctionInfoStorage} {info f : FunctionInfo} {inst : Instance}
    (other : info.key ≠ .withBody inst) (found : (fns.insert info).getWithBody inst = some f) :
    fns.getWithBody inst = some f := by
  rw [getWithBodyKey] at found ⊢
  cases known : fns.fns.find? (fun f => decide (f.key = .withBody inst)) with
  | none => exact absurd (insertNew known found).2 other
  | some g => exact (insertFirst known info).symm.trans found

end FunctionInfoStorage

open FunctionInfoStorage

theorem Session.recordFound {s : Session} {inst : Instance} (h : s.HasRecord (.withBody inst)) :
    ∃ f, s.fns.getWithBody inst = some f := by
  rw [getWithBodyKey, ← Option.isSome_iff_exists, List.find?_isSome]
  obtain ⟨f, mem, key⟩ := h
  exact ⟨f, mem, by simpa using key⟩

namespace Collector

def stored (c : Collector) (before after : Session) (results : CollectorDomain) (body : Body) : Session :=
  (after.note (.descended c before.fns before.closures results)).insert
    (recordOf c.currentFunction.inst body results)

theorem withBodyRan {tcx : TyCtxt} {descend : Collector → Exec Session CollectorDomain} {c : Collector}
    {args : List Operand} {state : CollectorDomain} {callee : PartialFunctionInfo}
    {out : CollectorDomain × TrackedTy} {s t : Session}
    (h : processWithBody tcx descend c args state callee s = (some out, t)) :
    ∃ body own results u returnTy, tcx.substitutedMir callee.inst = some body ∧
      tcx.substitutedMir callee.inst = some own ∧
      descend ⟨c.virtualStack, c.inProgress, callee, own, c.shallow⟩ s = (some results, u) ∧
      results.returnType tcx body callee.inst.defId = some returnTy ∧
      out = (state.addCall (.withBody callee.inst args), returnTy) ∧
      t = stored ⟨c.virtualStack, c.inProgress, callee, own, c.shallow⟩ s u results body := by
  simp only [processWithBody, Exec.bindSome, Exec.liftSome, Exec.getSome, Exec.modifySome,
    Exec.pureSome] at h
  obtain ⟨body, _, ⟨hb, rfl⟩, collector, _, ⟨hc, rfl⟩, _, _, ⟨rfl, rfl⟩, results, u, ran, _, _, rfl, _,
    _, rfl, returned, _, ⟨hr, rfl⟩, rfl, rfl⟩ := h
  obtain ⟨own, ho, rfl⟩ := Option.map_eq_some_iff.mp hc
  exact ⟨body, own, results, u, returned, hb, ho, ran, hr, rfl, rfl⟩

theorem extendsStored (c : Collector) (before after : Session) (results : CollectorDomain)
    (body : Body) : after.Extends (stored c before after results body) :=
  (after.extendsNote _).trans (Session.extendsInsert _ _)

theorem storedLogged (c : Collector) (before after : Session) (results : CollectorDomain) (body : Body) :
    .descended c before.fns before.closures results ∈ (stored c before after results body).log :=
  List.mem_append_right _ (List.mem_singleton_self _)

structure Descended (tcx : TyCtxt) (shallow : Bool) (s : Session) (c : Collector)
    (before after : Session) (results : CollectorDomain) : Prop where
  ran : ∃ fuel, run tcx fuel c before = (some results, after)
  ended : ∃ body, (stored c before after results body).Extends s
  body : tcx.substitutedMir c.currentFunction.inst = some c.substitutedBody
  shallow : c.shallow = shallow

def Made (tcx : TyCtxt) (shallow : Bool) (s : Session) : Prop :=
  ∀ inst f, s.fns.getWithBody inst = some f → ∃ c before after results,
    Descended tcx shallow s c before after results ∧ c.currentFunction.inst = inst ∧
    before.fns.getWithBody inst = none ∧ CollectorDomain.fromRegularFnInfo f = some results

structure Known (tcx : TyCtxt) (shallow : Bool) (s : Session) : Prop where
  made : Made tcx shallow s
  descents : ∀ c fns closures results, .descended c fns closures results ∈ s.log →
    ∃ before after, before.fns = fns ∧ before.closures = closures ∧
      Descended tcx shallow s c before after results ∧ Made tcx shallow before ∧ before.Extends s

section
variable {tcx : TyCtxt} {shallow : Bool} {s t : Session}

theorem Descended.mono {c : Collector} {before after : Session} {results : CollectorDomain}
    (h : Descended tcx shallow s c before after results) (extends_ : s.Extends t) :
    Descended tcx shallow t c before after results :=
  ⟨h.ran, h.ended.imp (fun _ ended => ended.trans extends_), h.body, h.shallow⟩

theorem Descended.logged {c : Collector} {before after : Session} {results : CollectorDomain}
    (h : Descended tcx shallow s c before after results) :
    .descended c before.fns before.closures results ∈ s.log := by
  obtain ⟨body, ended⟩ := h.ended
  exact ended.grows.log.subset (storedLogged c before after results body)

theorem Descended.later {c : Collector} {before after : Session} {results : CollectorDomain}
    (h : Descended tcx shallow s c before after results) : after.Extends s := by
  obtain ⟨body, ended⟩ := h.ended
  exact (extendsStored c before after results body).trans ended

theorem Known.step (known : Known tcx shallow s) (extends_ : s.Extends t)
    (records : ∀ inst f, t.fns.getWithBody inst = some f → s.fns.getWithBody inst = some f)
    (events : ∀ c fns closures results, .descended c fns closures results ∈ t.log →
      .descended c fns closures results ∈ s.log) : Known tcx shallow t := by
  constructor
  · intro inst f found
    obtain ⟨c, before, after, results, descended, rest⟩ := known.made inst f (records inst f found)
    exact ⟨c, before, after, results, descended.mono extends_, rest⟩
  · intro c fns closures results mem
    obtain ⟨before, after, hf, hc, descended, made, started⟩ :=
      known.descents c fns closures results (events c fns closures results mem)
    exact ⟨before, after, hf, hc, descended.mono extends_, made, started.trans extends_⟩

theorem Known.note {event : Event} (known : Known tcx shallow s)
    (other : ∀ c fns closures results, event ≠ .descended c fns closures results) :
    Known tcx shallow (s.note event) := by
  refine known.step (s.extendsNote event) (fun _ _ found => found) ?_
  intro c fns closures results mem
  cases List.mem_append.mp mem with
  | inl old => exact old
  | inr last => exact absurd (List.mem_singleton.mp last).symm (other c fns closures results)

theorem Known.descend {collector : Collector} {before after : Session} {results : CollectorDomain}
    {body : Body} {fuel : Nat} (known : Known tcx shallow after) (start : Made tcx shallow before)
    (ran : run tcx fuel collector before = (some results, after))
    (hasBody : tcx.substitutedMir collector.currentFunction.inst = some collector.substitutedBody)
    (deep : collector.shallow = shallow) :
    Known tcx shallow (stored collector before after results body) := by
  have extends_ := extendsStored collector before after results body
  have begun := runExtends ran
  have descended : Descended tcx shallow (stored collector before after results body) collector
      before after results := ⟨⟨fuel, ran⟩, ⟨body, Session.extendsRefl _⟩, hasBody, deep⟩
  constructor
  · intro inst f found
    cases old : after.fns.getWithBody inst with
    | some g =>
      have stays := Session.Extends.found extends_.grows.fns old
      cases Option.some.inj (found.symm.trans stays)
      obtain ⟨c, before', after', results', descended', rest⟩ := known.made inst f old
      exact ⟨c, before', after', results', descended'.mono extends_, rest⟩
    | none =>
      rw [getWithBodyKey] at old
      have first : (after.fns.insert (recordOf collector.currentFunction.inst body results)).fns.find?
          (fun f => decide (f.key = .withBody inst)) = some f := by
        rw [← getWithBodyKey]
        exact found
      obtain ⟨rfl, key⟩ := insertNew old first
      have same : collector.currentFunction.inst = inst := FunctionInfo.Key.withBody.inj key
      refine ⟨collector, before, after, results, descended, same, ?_, rfl⟩
      cases earlier : before.fns.getWithBody inst with
      | none => rfl
      | some g =>
        have stays := Session.Extends.found begun.grows.fns earlier
        rw [getWithBodyKey, old] at stays
        cases stays
  · intro c fns closures results' mem
    cases List.mem_append.mp mem with
    | inl old =>
      obtain ⟨before', after', hf, hc, descended', made, started⟩ :=
        known.descents c fns closures results' old
      exact ⟨before', after', hf, hc, descended'.mono extends_, made, started.trans extends_⟩
    | inr last =>
      cases List.mem_singleton.mp last
      exact ⟨before, after, rfl, rfl, descended, start, begun.trans extends_⟩

theorem knownInvariant (tcx : TyCtxt) (shallow : Bool) :
    Invariant tcx (fun c => c.shallow = shallow) (Known tcx shallow) (fun _ _ => True) where
  fitEmpty _ := trivial
  fitMono _ _ _ _ _ := trivial
  fitUnion _ _ _ _ _ := trivial
  fitInsert _ _ _ _ _ := trivial
  fitCached _ _ _ _ _ _ := trivial
  enter c callee collector fine _ made := by
    obtain ⟨body, _, same⟩ := Option.map_eq_some_iff.mp made
    subst same
    exact fine
  closures _ _ _ _ known h := known.step (Session.extendsClosures (withinCollect h))
    (fun _ _ found => found) (fun _ _ _ _ mem => mem)
  rvalue _ _ _ _ _ _ _ known h := known.step (Session.extendsClosures (withinRvalue h))
    (fun _ _ found => found) (fun _ _ _ _ mem => mem)
  unresolved _ _ _ _ known := known.note (by simp)
  round _ _ _ _ known := known.note (by simp)
  withoutBody s did args known := known.step (s.extendsInsert _)
    (fun _ _ found => foundBefore (by simp [FunctionInfo.key]) found) (fun _ _ _ _ mem => mem)
  descended c callee collector body before s results fuel fine start known _ made ran _ := by
    obtain ⟨own, hb, same⟩ := Option.map_eq_some_iff.mp made
    subst same
    exact known.descend start.made ran hb fine
  processed _ _ _ _ _ _ known _ := known.note (by simp)

theorem knownStart (tcx : TyCtxt) (shallow : Bool) (inst : Instance) :
    Known tcx shallow (startSession inst) := by
  constructor
  · intro inst f found
    cases found
  · intro c fns closures results mem
    cases mem

theorem collectKnown (tcx : TyCtxt) (fuel : Nat) (inst : Instance) (shallow : Bool) :
    ∃ t, Known tcx shallow t ∧
      (collect tcx fuel inst shallow (startSession inst)).2.log = t.log ∧
      t.fns.fns <+: (collect tcx fuel inst shallow (startSession inst)).2.fns.fns := by
  have start := knownStart tcx shallow inst
  have run : Exec.wp (collect tcx fuel inst shallow)
      (fun _ u => ∃ t, Known tcx shallow t ∧ u.log = t.log ∧ t.fns.fns <+: u.fns.fns)
      (fun u => ∃ t, Known tcx shallow t ∧ u.log = t.log ∧ t.fns.fns <+: u.fns.fns)
      (startSession inst) := by
    have stop : ∃ t, Known tcx shallow t ∧ (startSession inst).log = t.log ∧
        t.fns.fns <+: (startSession inst).fns.fns := ⟨_, start, rfl, List.prefix_refl _⟩
    simp only [collect, Exec.wpBind, Exec.wpLift, Exec.wpModify, new]
    refine ⟨fun body _ => ⟨fun argTys _ => ⟨fun collector hc => ?_, fun _ => stop⟩, fun _ => stop⟩,
      fun _ => stop⟩
    obtain ⟨body', _, rfl⟩ := Option.map_eq_some_iff.mp hc
    refine Exec.wpMono (wpRunCollector (knownInvariant tcx shallow) fuel _ _ rfl start) ?_ ?_
    · intro results t kept
      exact ⟨t, kept.1, rfl, (t.growsInsert _).fns⟩
    · intro t kept
      exact ⟨t, kept.1, rfl, List.prefix_refl _⟩
  exact Exec.wpState run

def Inside (base : List VirtualStackItem) (inst : Instance) (s : Session) : Prop :=
  ∃ inner fns closures results, .descended inner fns closures results ∈ s.log ∧
    inner.currentFunction.inst = inst ∧ inner.currentFunction.stackItem ∉ inner.virtualStack ∧
    base ⊆ inner.virtualStack

theorem Inside.mono {base : List VirtualStackItem} {inst : Instance} (h : Inside base inst s)
    (grows : s.Grows t) : Inside base inst t := by
  obtain ⟨inner, fns, closures, results, mem, rest⟩ := h
  exact ⟨inner, fns, closures, results, grows.log.subset mem, rest⟩

theorem insideInvariant (tcx : TyCtxt) (base : List VirtualStackItem) (inst : Instance) :
    Invariant tcx (fun c => base ⊆ c.virtualStack)
      (fun s => s.fns.getWithBody inst = none ∨ Inside base inst s) (fun _ _ => True) where
  fitEmpty _ := trivial
  fitMono _ _ _ _ _ := trivial
  fitUnion _ _ _ _ _ := trivial
  fitInsert _ _ _ _ _ := trivial
  fitCached _ _ _ _ _ _ := trivial
  enter c callee collector fine _ made := by
    obtain ⟨body, _, same⟩ := Option.map_eq_some_iff.mp made
    subst same
    exact fun item mem => List.mem_append_left _ (fine mem)
  closures _ s _ _ good _ := good.imp id (fun inside => inside.mono (s.growsSetClosures _))
  rvalue _ s _ _ _ _ _ good _ := good.imp id (fun inside => inside.mono (s.growsSetClosures _))
  unresolved _ s _ _ good := good.imp id (fun inside => inside.mono (s.growsNote _))
  round _ s _ _ good := good.imp id (fun inside => inside.mono (s.growsNote _))
  withoutBody s did args good := by
    refine good.imp (fun absent => ?_) (fun inside => inside.mono (s.growsInsert _))
    cases found : (s.fns.insert (.withoutBody did args)).getWithBody inst with
    | none => exact found
    | some f =>
      have before := foundBefore (by simp [FunctionInfo.key]) found
      rw [absent] at before
      cases before
  descended c callee collector body before s results fuel fine _ good off made _ _ := by
    obtain ⟨own, _, same⟩ := Option.map_eq_some_iff.mp made
    subst same
    have grows := (s.growsNote (.descended ⟨c.virtualStack, c.inProgress, callee, own, c.shallow⟩
      before.fns before.closures results)).trans (Session.growsInsert (recordOf callee.inst body results) _)
    cases good with
    | inr inside => exact .inr (inside.mono grows)
    | inl absent =>
      by_cases here : callee.inst = inst
      · exact .inr ⟨_, _, _, _, List.mem_append_right _ (List.mem_singleton_self _), here, off, fine⟩
      · left
        cases found : (s.fns.insert (recordOf callee.inst body results)).getWithBody inst with
        | none => exact found
        | some f =>
          have other : (recordOf callee.inst body results).key ≠ .withBody inst :=
            fun key => here (FunctionInfo.Key.withBody.inj key)
          rw [foundBefore other found] at absent
          cases absent
  processed _ s _ _ _ _ good _ := good.imp id (fun inside => inside.mono (s.growsNote _))

theorem madeInside {fuel : Nat} {c : Collector} {results : CollectorDomain} {f : FunctionInfo}
    {inst : Instance} (ran : run tcx fuel c s = (some results, t))
    (absent : s.fns.getWithBody inst = none) (found : t.fns.getWithBody inst = some f) :
    Inside c.push.virtualStack inst t := by
  have kept := wpRunCollector (insideInvariant tcx c.push.virtualStack inst) fuel c s
    (List.Subset.refl _) (.inl absent)
  cases (Exec.wpResult kept ran).1 with
  | inl none => exact absurd (none.symm.trans found) (by simp)
  | inr inside => exact inside

end
end Collector
end Scrutinizer
