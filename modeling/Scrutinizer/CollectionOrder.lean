import Scrutinizer.CollectionRule
import Scrutinizer.PlainCrate
import Scrutinizer.Verdict

/-! A collection inserts a record after the records of everything it calls. The storage it
leaves is ordered, and the walk over it ends. -/
namespace Scrutinizer

namespace Collector
open FunctionInfoStorage

theorem orderedInvariant (tcx : TyCtxt) : Invariant tcx (fun _ => True)
    (fun s => Ordered s.fns.fns) (fun s calls => Covers s.fns.fns calls) where
  fitEmpty _ _ h := absurd h (Finset.notMem_empty _)
  fitMono _ _ _ grows covers := covers.mono grows.fns.subset
  fitUnion _ _ _ := Covers.union
  fitInsert s calls call covers record := by
    intro other mem
    rcases Finset.mem_insert.mp mem with rfl | mem
    · exact record
    · exact covers other mem
  fitCached _ _ _ ordered mem hc := ordered.covers mem hc
  enter _ _ _ _ _ _ := trivial
  closures _ _ _ _ ordered _ := ordered
  rvalue _ _ _ _ _ _ _ ordered _ := ordered
  unresolved _ _ _ _ ordered := ordered
  round _ _ _ _ ordered := ordered
  withoutBody _ _ _ ordered := ordered.insert (fun _ h => by contradiction)
  descended _ _ _ _ _ _ _ _ _ _ ordered _ _ _ covers :=
    ordered.insert (fun _ h => Option.some.inj h ▸ covers)
  processed _ _ _ _ _ _ ordered _ := ordered

theorem collectedOrdered {tcx : TyCtxt} {fuel : Nat} {inst : Instance} {shallow : Bool}
    {session : Session} (ends : collected tcx fuel inst shallow = some session) :
    Ordered session.fns.fns ∧ session.fns.origin = inst ∧ session.HasRecord (.withBody inst) := by
  have run := wpCollect (orderedInvariant tcx) fuel inst shallow orderedNil (fun _ _ => trivial)
    (fun s body results ordered covers => ordered.insert (fun _ h => Option.some.inj h ▸ covers))
  unfold collected at ends
  split at ends
  · rename_i t hrun
    cases Option.some.inj ends
    obtain ⟨ordered, grows, record⟩ := Exec.wpResult run hrun
    exact ⟨ordered, grows.origin.symm, record⟩
  · contradiction

theorem storageClosedWellFounded {tcx : TyCtxt} {fuel : Nat} {inst : Instance} {shallow : Bool}
    {session : Session} (ends : collected tcx fuel inst shallow = some session) :
    (∀ f ∈ session.fns.fns, ∀ calls, f.calls = some calls → ∀ call ∈ calls,
      session.HasRecord call.key) ∧
    (∀ f, session.fns.FirstRecord f → ∀ calls, f.calls = some calls → ∀ call ∈ calls,
      firstIndex session.fns.fns call.key < firstIndex session.fns.fns f.key) ∧
    (∀ cfg : Setup, cfg.storage = session.fns → ∃ enough, ∀ depth ≥ enough,
      ∀ closures importantLocals annotatedPure fault,
        runAnalysis tcx cfg depth closures importantLocals annotatedPure = .error fault →
          Verdict.CheckFault fault) := by
  obtain ⟨ordered, origin, record⟩ := collectedOrdered ends
  refine ⟨fun f hf calls hc => ordered.covers hf hc,
    fun f first calls hc call mem => firstIndexDecreases ordered first hc mem, ?_⟩
  rintro cfg storage
  have found : ∃ item, cfg.storage.getWithBody cfg.storage.origin = some item ∧
      item ∈ cfg.storage.fns := by
    obtain ⟨f, hf, key⟩ := record
    rw [storage, origin]
    have some : (session.fns.getWithBody inst).isSome = true := by
      rw [getWithBody, isWithBodyKey, List.find?_isSome]
      exact ⟨f, hf, by simpa using key⟩
    obtain ⟨item, hitem⟩ := Option.isSome_iff_exists.mp some
    exact ⟨item, hitem, List.mem_of_find?_eq_some hitem⟩
  obtain ⟨item, hitem, mem⟩ := found
  rw [← storage] at ordered
  have meets := Verdict.itemEventually tcx (ordered.resolves mem)
    (fun calls hc call hcall callee hcallee =>
      Verdict.recordEventually (fun f hf => ordered.resolves hf) ordered.wellFounded callee
        ⟨(getByCallSpec hcallee).1, (getByCallSpec hcallee).2.2⟩)
  obtain ⟨enough, h⟩ := Filter.eventually_atTop.mp meets
  refine ⟨enough, fun depth hd closures importantLocals annotatedPure fault hfault => ?_⟩
  have outcome := h depth hd importantLocals .empty
  simp only [runAnalysis, hitem] at hfault
  cases hr : analyzeItem tcx cfg depth item importantLocals .empty with
  | error f =>
    rw [hr] at outcome hfault
    cases Except.error.inj hfault
    exact outcome.1
  | ok result =>
    rw [hr] at hfault
    contradiction

def pingBody : Body :=
  ⟨1, [Ty.unit, Ty.usize], [.calling 1 [.copy (.fromLocal 1)] 1, .returning], [], 0⟩

def pongBody : Body :=
  ⟨1, [Ty.unit, Ty.usize], [.calling 0 [.copy (.fromLocal 1)] 1,
    .calling 2 [.copy (.fromLocal 1)] 2, .returning], [], 0⟩

noncomputable def pingPong : TyCtxt := {TyCtxt.plain (.listed [] List.nodup_nil) with
  loadBodyAndFacts := fun did => if did = 0 then some pingBody else if did = 1 then some pongBody else none
  fnSig := fun _ => ⟨[.usize], .unit⟩}

theorem pingPongEnds : (collected pingPong 8 ⟨.item, 0, []⟩ false).isSome = true := by
  decide +kernel

theorem pingPongClosed :
    let fns := ((collected pingPong 8 ⟨.item, 0, []⟩ false).get pingPongEnds).fns
    (∀ f ∈ fns.fns, ∀ calls, f.calls = some calls → ∀ call ∈ calls,
      ∃ g ∈ fns.fns, g.key = call.key) ∧
    (∀ f, fns.FirstRecord f → ∀ calls, f.calls = some calls → ∀ call ∈ calls,
      firstIndex fns.fns call.key < firstIndex fns.fns f.key) ∧
    (∀ cfg : Setup, cfg.storage = fns → ∃ enough, ∀ depth ≥ enough,
      ∀ closures importantLocals annotatedPure fault,
        runAnalysis pingPong cfg depth closures importantLocals annotatedPure = .error fault →
          Verdict.CheckFault fault) :=
  storageClosedWellFounded (Option.some_get pingPongEnds).symm

end Collector
end Scrutinizer
