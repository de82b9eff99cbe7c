import Mathlib.Order.Filter.AtTopBot.Basic
import Mathlib.Order.Filter.Finite
import Scrutinizer.Library.Reach
import Scrutinizer.Analyzer
import Scrutinizer.PlainCrate
import Scrutinizer.StorageOrder

/-! What the walk over the records decides. A node is a record with the locals that are
important in it. The walk goes from a node that is not exempt to the records its calls find;
its verdict is negative exactly when it can reach a node that is bad in itself. -/
namespace Scrutinizer

namespace Verdict

structure Node where
  item : FunctionInfo
  locals : ImportantLocals

/- The faults of a check on one node. The others are faults of the walk. -/
def CheckFault : Fault → Prop
  | .noBody | .closureArgs | .check => True
  | .depth | .unresolved | .noOrigin => False

variable (tcx : TyCtxt) (cfg : Setup)

def Exempt (n : Node) : Prop := cfg.exempt tcx n.item n.locals = true

/- A record without a body has no calls to look at and counts as leaking. -/
def Bad (n : Node) : Prop :=
  n.item.calls = none ∨ Setup.hasUnhandledCalls n.item = true ∨
    Setup.rawPointerDeref tcx n.item = .ok true ∨ cfg.transmute tcx n.item = .ok true

def Passes (locals : ImportantLocals) (call : FunctionCall) (m : Node) : Prop :=
  cfg.storage.getByCall call = some m.item ∧
    locals.transition tcx call.args call.defId = .ok m.locals

def Child (n m : Node) : Prop :=
  ∃ calls, n.item.calls = some calls ∧ ∃ call ∈ calls, Passes tcx cfg n.locals call m

def Step (n m : Node) : Prop := ¬ Exempt tcx cfg n ∧ Child tcx cfg n m

def Leaks (n : Node) : Prop :=
  Reach.Reaches (Step tcx cfg) (fun m => ¬ Exempt tcx cfg m ∧ Bad tcx cfg m) n

def Stuck (n : Node) : Prop :=
  (∃ f, Setup.itemDeps tcx n.item = .error f) ∨
    (¬ Exempt tcx cfg n ∧
      ((∃ f, Setup.rawPointerDeref tcx n.item = .error f) ∨
        (∃ f, cfg.transmute tcx n.item = .error f) ∨
        ∃ calls, n.item.calls = some calls ∧
          ∃ call ∈ calls, ∃ f, n.locals.transition tcx call.args call.defId = .error f))

def Meets (n : Node) (outcome : Except Fault (Bool × Report)) : Prop :=
  match outcome with
  | .ok result => ¬ Reach.Reaches (Step tcx cfg) (Stuck tcx cfg) n ∧
      (result.1 = false ↔ Leaks tcx cfg n)
  | .error f => CheckFault f ∧ Reach.Reaches (Step tcx cfg) (Stuck tcx cfg) n

variable {tcx cfg}

theorem transitionFault {locals : ImportantLocals} {args : List Operand} {defId : DefId} {f : Fault}
    (h : locals.transition tcx args defId = .error f) : CheckFault f := by
  simp only [ImportantLocals.transition, ImportantLocals.targets] at h
  split at h
  · contradiction
  · split at h
    · split at h
      · cases hn : tcx.numArgsInBody defId with
        | none =>
          simp only [hn, bind, Except.bind] at h
          cases h
          trivial
        | some n =>
          simp only [hn, bind, Except.bind] at h
          split at h <;> contradiction
      · split at h
        · simp only [bind, Except.bind] at h
          split at h <;> contradiction
        · cases h
          trivial
    · simp only [bind, Except.bind] at h
      split at h <;> contradiction

theorem rawFault {item : FunctionInfo} {f : Fault} (h : Setup.rawPointerDeref tcx item = .error f) :
    CheckFault f := by
  cases item with
  | withBody inst places calls body span unhandled =>
    simp only [Setup.rawPointerDeref] at h
    split at h
    · contradiction
    · cases h; trivial
  | withoutBody => contradiction

theorem transmuteFault {item : FunctionInfo} {f : Fault} (h : cfg.transmute tcx item = .error f) :
    CheckFault f := by
  cases item with
  | withBody inst places calls body span unhandled =>
    simp only [Setup.transmute] at h
    split at h
    · contradiction
    · cases h; trivial
  | withoutBody => contradiction

theorem depsFault {item : FunctionInfo} {f : Fault} (h : Setup.itemDeps tcx item = .error f) :
    CheckFault f := by
  simp only [Setup.itemDeps] at h
  split at h
  · contradiction
  · split at h
    · contradiction
    · cases h; trivial

theorem childOutcome (tcx : TyCtxt)
    (recurse : FunctionInfo → ImportantLocals → Report → Except Fault (Bool × Report))
    (locals : ImportantLocals) {call : FunctionCall} {callee : FunctionInfo}
    (found : cfg.storage.getByCall call = some callee) (acc : List Bool × Report) :
    (∃ f, locals.transition tcx call.args call.defId = .error f ∧
      analyzeChild tcx cfg recurse locals acc call = .error f) ∨
    ∃ passed, locals.transition tcx call.args call.defId = .ok passed ∧
      analyzeChild tcx cfg recurse locals acc call =
        (recurse callee passed acc.2).map (fun result => (acc.1 ++ [result.1], result.2)) := by
  cases ht : locals.transition tcx call.args call.defId with
  | error f => exact .inl ⟨f, rfl, by simp [analyzeChild, ht, bind, Except.bind]⟩
  | ok passed =>
    refine .inr ⟨passed, rfl, ?_⟩
    simp only [analyzeChild, ht, found, bind, Except.bind]
    cases recurse callee passed acc.2 <;> rfl

theorem passesUnique {locals : ImportantLocals} {call : FunctionCall} {m m' : Node}
    (here : Passes tcx cfg locals call m) (there : Passes tcx cfg locals call m') : m = m' := by
  obtain ⟨item, passed⟩ := m
  obtain ⟨item', passed'⟩ := m'
  cases Option.some.inj (here.1.symm.trans there.1)
  cases Except.ok.inj (here.2.symm.trans there.2)
  rfl

theorem leaksCons {locals : ImportantLocals} {call : FunctionCall} {rest : List FunctionCall} {m : Node}
    (here : Passes tcx cfg locals call m) :
    (∃ c ∈ call :: rest, ∃ n, Passes tcx cfg locals c n ∧ Leaks tcx cfg n) ↔
      Leaks tcx cfg m ∨ ∃ c ∈ rest, ∃ n, Passes tcx cfg locals c n ∧ Leaks tcx cfg n := by
  have first : (∃ n, Passes tcx cfg locals call n ∧ Leaks tcx cfg n) ↔ Leaks tcx cfg m :=
    ⟨fun ⟨_, passes, leaks⟩ => passesUnique passes here ▸ leaks, fun leaks => ⟨m, here, leaks⟩⟩
  simp only [List.mem_cons, or_and_right, exists_or, exists_eq_left, first]

theorem childrenOutcome
    (recurse : FunctionInfo → ImportantLocals → Report → Except Fault (Bool × Report))
    (locals : ImportantLocals) :
    ∀ (calls : List FunctionCall) (acc : List Bool × Report),
      (∀ call ∈ calls, ∃ callee, cfg.storage.getByCall call = some callee ∧
        ∀ passed report, Meets tcx cfg ⟨callee, passed⟩ (recurse callee passed report)) →
      match calls.foldlM (analyzeChild tcx cfg recurse locals) acc with
      | .ok out =>
          (∀ call ∈ calls, ∀ f, locals.transition tcx call.args call.defId ≠ .error f) ∧
          (∀ call ∈ calls, ∀ m, Passes tcx cfg locals call m →
            ¬ Reach.Reaches (Step tcx cfg) (Stuck tcx cfg) m) ∧
          (out.1.all id = false ↔ acc.1.all id = false ∨
            ∃ call ∈ calls, ∃ m, Passes tcx cfg locals call m ∧ Leaks tcx cfg m)
      | .error f => CheckFault f ∧
          ((∃ call ∈ calls, ∃ f, locals.transition tcx call.args call.defId = .error f) ∨
            ∃ call ∈ calls, ∃ m, Passes tcx cfg locals call m ∧
              Reach.Reaches (Step tcx cfg) (Stuck tcx cfg) m) := by
  intro calls
  induction calls with
  | nil =>
    intro acc _
    simp [pure, Except.pure]
  | cons call rest ih =>
    intro acc meets
    obtain ⟨callee, found, below⟩ := meets call List.mem_cons_self
    have later := fun c hc => meets c (List.mem_cons_of_mem _ hc)
    rw [List.foldlM_cons]
    rcases childOutcome tcx recurse locals found acc with
      ⟨f, failed, outcome⟩ | ⟨passed, ok, outcome⟩
    · simp only [outcome, bind, Except.bind]
      exact ⟨transitionFault failed, .inl ⟨call, List.mem_cons_self, f, failed⟩⟩
    · have here : Passes tcx cfg locals call ⟨callee, passed⟩ := ⟨found, ok⟩
      have first := below passed acc.2
      cases hr : recurse callee passed acc.2 with
      | error f =>
        rw [hr] at first
        simp only [outcome, hr, Except.map, bind, Except.bind]
        exact ⟨first.1, .inr ⟨call, List.mem_cons_self, _, here, first.2⟩⟩
      | ok result =>
        rw [hr] at first
        obtain ⟨unstuck, verdict⟩ := first
        simp only [outcome, hr, Except.map, bind, Except.bind]
        have tail := ih (acc.1 ++ [result.1], result.2) later
        cases hf : rest.foldlM (analyzeChild tcx cfg recurse locals)
            (acc.1 ++ [result.1], result.2) with
        | error f =>
          rw [hf] at tail
          refine ⟨tail.1, tail.2.imp ?_ ?_⟩
          · rintro ⟨c, hc, failed⟩
            exact ⟨c, List.mem_cons_of_mem _ hc, failed⟩
          · rintro ⟨c, hc, stuck⟩
            exact ⟨c, List.mem_cons_of_mem _ hc, stuck⟩
        | ok out =>
          rw [hf] at tail
          obtain ⟨passes, unstuckRest, verdictRest⟩ := tail
          refine ⟨?_, ?_, ?_⟩
          · intro c hc f
            rcases List.mem_cons.mp hc with rfl | hc
            · rw [ok]; exact nofun
            · exact passes c hc f
          · intro c hc m hm
            rcases List.mem_cons.mp hc with rfl | hc
            · rw [passesUnique hm here]; exact unstuck
            · exact unstuckRest c hc m hm
          · have joined : (acc.1 ++ [result.1]).all id = false ↔
                acc.1.all id = false ∨ result.1 = false := by
              have last : [result.1].all id = result.1 := by simp
              rw [List.all_append, last, Bool.and_eq_false_iff]
            simp only at verdictRest
            rw [verdictRest, joined, verdict, or_assoc, leaksCons here]

theorem leaksIff {n : Node} : Leaks tcx cfg n ↔
    ¬ Exempt tcx cfg n ∧ (Bad tcx cfg n ∨ ∃ m, Child tcx cfg n m ∧ Leaks tcx cfg m) := by
  unfold Leaks
  rw [Reach.reachesIff]
  constructor
  · rintro (⟨live, bad⟩ | ⟨m, ⟨live, child⟩, leak⟩)
    · exact ⟨live, .inl bad⟩
    · exact ⟨live, .inr ⟨m, child, leak⟩⟩
  · rintro ⟨live, bad | ⟨m, child, leak⟩⟩
    · exact .inl ⟨live, bad⟩
    · exact .inr ⟨m, ⟨live, child⟩, leak⟩

theorem childLeaksIff {n : Node} {calls : Finset FunctionCall} (hc : n.item.calls = some calls) :
    (∃ m, Child tcx cfg n m ∧ Leaks tcx cfg m) ↔
      ∃ call ∈ calls, ∃ m, Passes tcx cfg n.locals call m ∧ Leaks tcx cfg m := by
  constructor
  · intro child
    obtain ⟨m, ⟨calls', hc', call, mem, passes⟩, leaks⟩ := child
    cases Option.some.inj (hc.symm.trans hc')
    exact ⟨call, mem, m, passes, leaks⟩
  · intro child
    obtain ⟨call, mem, m, passes, leaks⟩ := child
    exact ⟨m, ⟨calls, hc, call, mem, passes⟩, leaks⟩

theorem badIff {item : FunctionInfo} {locals : ImportantLocals} {raw transmute : Bool}
    {calls : Finset FunctionCall} (hc : item.calls = some calls)
    (hr : Setup.rawPointerDeref tcx item = .ok raw) (ht : cfg.transmute tcx item = .ok transmute) :
    Bad tcx cfg ⟨item, locals⟩ ↔
      (!Setup.hasUnhandledCalls item && !raw && !transmute) = false := by
  simp only [Bad, hc, hr, ht, reduceCtorEq, false_or, Except.ok.injEq]
  cases Setup.hasUnhandledCalls item <;> cases raw <;> cases transmute <;> simp

theorem stuckIff {item : FunctionInfo} {locals : ImportantLocals} {deps : Finset String}
    {raw transmute : Bool} (live : ¬ Exempt tcx cfg ⟨item, locals⟩)
    (hd : Setup.itemDeps tcx item = .ok deps) (hr : Setup.rawPointerDeref tcx item = .ok raw)
    (ht : cfg.transmute tcx item = .ok transmute) :
    Stuck tcx cfg ⟨item, locals⟩ ↔ ∃ calls, item.calls = some calls ∧
      ∃ call ∈ calls, ∃ f, locals.transition tcx call.args call.defId = .error f := by
  simp [Stuck, hd, hr, ht, live]

theorem liveMeets {fuel : Nat} {item : FunctionInfo} {locals : ImportantLocals}
    {report : Report} {deps : Finset String} {raw transmute : Bool}
    (below : ∀ calls, item.calls = some calls → ∀ call ∈ calls, ∃ callee,
      cfg.storage.getByCall call = some callee ∧
        ∀ locals report, Meets tcx cfg ⟨callee, locals⟩ (analyzeItem tcx cfg fuel callee locals report))
    (live : ¬ Exempt tcx cfg ⟨item, locals⟩) (hd : Setup.itemDeps tcx item = .ok deps)
    (hr : Setup.rawPointerDeref tcx item = .ok raw) (ht : cfg.transmute tcx item = .ok transmute) :
    Meets tcx cfg ⟨item, locals⟩ (analyzeItem tcx cfg (fuel + 1) item locals report) := by
  have notExempt : ¬ cfg.exempt tcx item locals = true := live
  have stuck := stuckIff live hd hr ht
  simp only [analyzeItem, hd, if_neg notExempt, hr, ht, bind, Except.bind]
  cases hc : item.calls with
  | none =>
    simp only [analyzeChildren, hc, Bool.and_false, Bool.false_eq_true, if_false]
    refine ⟨?_, fun _ => leaksIff.mpr ⟨live, .inl (.inl hc)⟩, fun _ => rfl⟩
    rw [Reach.reachesIff, stuck]
    rintro (⟨calls, hf, _⟩ | ⟨m, ⟨_, calls, hf, _⟩, _⟩) <;> rw [hc] at hf <;> contradiction
  | some calls =>
    have members : ∀ call, call ∈ (cfg.callOrder item).iter calls ↔ call ∈ calls :=
      (cfg.callOrder item).mem calls
    have children := childrenOutcome (analyzeItem tcx cfg fuel) locals ((cfg.callOrder item).iter calls)
      ([], report.addDeps deps) (fun call h => below calls hc call ((members call).mp h))
    simp only [analyzeChildren, hc, bind, Except.bind]
    cases hf : ((cfg.callOrder item).iter calls).foldlM
        (analyzeChild tcx cfg (analyzeItem tcx cfg fuel) locals) ([], report.addDeps deps) with
    | error f =>
      rw [hf] at children
      refine ⟨children.1, ?_⟩
      rcases children.2 with ⟨call, hcall, failed⟩ | ⟨call, hcall, m, hm, reaches⟩
      · exact Reach.here (stuck.mpr ⟨calls, hc, call, (members call).mp hcall, failed⟩)
      · exact Reach.further ⟨live, calls, hc, call, (members call).mp hcall, hm⟩ reaches
    | ok out =>
      rw [hf] at children
      obtain ⟨passes, unstuck, verdict⟩ := children
      have noStuck : ¬ Reach.Reaches (Step tcx cfg) (Stuck tcx cfg) ⟨item, locals⟩ := by
        rw [Reach.reachesIff, stuck]
        rintro (⟨calls', hf, call, hcall, f, failed⟩ | ⟨m, ⟨_, calls', hf, call, hcall, hm⟩, reaches⟩)
        all_goals cases Option.some.inj (hc.symm.trans hf)
        · exact passes call ((members call).mpr hcall) f failed
        · exact unstuck call ((members call).mpr hcall) m hm reaches
      have childLeaks : out.1.all id = false ↔ ∃ m, Child tcx cfg ⟨item, locals⟩ m ∧ Leaks tcx cfg m := by
        rw [verdict, childLeaksIff hc]
        simp only [members, List.all_nil, Bool.true_eq_false, false_or]
      have verdict : (!Setup.hasUnhandledCalls item && !raw && !transmute && out.1.all id) = false ↔
          Leaks tcx cfg ⟨item, locals⟩ := by
        rw [leaksIff, badIff hc hr ht, ← childLeaks, Bool.and_eq_false_iff]
        exact ⟨fun h => ⟨live, h⟩, And.right⟩
      simp only
      split
      · rename_i passing
        exact ⟨noStuck, by rw [← verdict, passing]⟩
      · rename_i failing
        exact ⟨noStuck, fun _ => verdict.mp (Bool.eq_false_iff.mpr failing), fun _ => rfl⟩

theorem itemMeets {fuel : Nat} {item : FunctionInfo}
    (below : ∀ calls, item.calls = some calls → ∀ call ∈ calls, ∃ callee,
      cfg.storage.getByCall call = some callee ∧
        ∀ locals report, Meets tcx cfg ⟨callee, locals⟩ (analyzeItem tcx cfg fuel callee locals report))
    (locals : ImportantLocals) (report : Report) :
    Meets tcx cfg ⟨item, locals⟩ (analyzeItem tcx cfg (fuel + 1) item locals report) := by
  cases hd : Setup.itemDeps tcx item with
  | error f =>
    simp only [analyzeItem, hd, bind, Except.bind]
    exact ⟨depsFault hd, Reach.here (.inl ⟨f, hd⟩)⟩
  | ok deps =>
    by_cases exempt : cfg.exempt tcx item locals = true
    · have dead : ¬ ¬ Exempt tcx cfg ⟨item, locals⟩ := fun live => live exempt
      simp only [analyzeItem, hd, if_pos exempt, bind, Except.bind]
      refine ⟨?_, fun h => by contradiction, fun h => False.elim (dead (leaksIff.mp h).1)⟩
      rw [Reach.reachesIff]
      rintro ((⟨f, hf⟩ | ⟨live, _⟩) | ⟨m, ⟨live, _⟩, _⟩)
      · rw [hd] at hf; contradiction
      · exact dead live
      · exact dead live
    · have live : ¬ Exempt tcx cfg ⟨item, locals⟩ := exempt
      cases hr : Setup.rawPointerDeref tcx item with
      | error f =>
        simp only [analyzeItem, hd, if_neg exempt, hr, bind, Except.bind]
        exact ⟨rawFault hr, Reach.here (.inr ⟨live, .inl ⟨f, hr⟩⟩)⟩
      | ok raw =>
        cases ht : cfg.transmute tcx item with
        | error f =>
          simp only [analyzeItem, hd, if_neg exempt, hr, ht, bind, Except.bind]
          exact ⟨transmuteFault ht, Reach.here (.inr ⟨live, .inr (.inl ⟨f, ht⟩)⟩)⟩
        | ok transmute => exact liveMeets below live hd hr ht

theorem itemEventually (tcx : TyCtxt) {item : FunctionInfo} (start : cfg.storage.Resolves item)
    (below : ∀ calls, item.calls = some calls → ∀ call ∈ calls, ∀ callee,
      cfg.storage.getByCall call = some callee → ∀ᶠ fuel in Filter.atTop, ∀ locals report,
        Meets tcx cfg ⟨callee, locals⟩ (analyzeItem tcx cfg fuel callee locals report)) :
    ∀ᶠ fuel in Filter.atTop, ∀ locals report,
      Meets tcx cfg ⟨item, locals⟩ (analyzeItem tcx cfg fuel item locals report) := by
  have together : ∀ᶠ fuel in Filter.atTop, ∀ calls, item.calls = some calls → ∀ call ∈ calls,
      ∃ callee, cfg.storage.getByCall call = some callee ∧ ∀ locals report,
        Meets tcx cfg ⟨callee, locals⟩ (analyzeItem tcx cfg fuel callee locals report) := by
    cases hc : item.calls with
    | none => exact .of_forall (fun _ _ h => by contradiction)
    | some calls =>
      have each : ∀ call ∈ calls, ∀ᶠ fuel in Filter.atTop, ∃ callee,
          cfg.storage.getByCall call = some callee ∧ ∀ locals report,
            Meets tcx cfg ⟨callee, locals⟩ (analyzeItem tcx cfg fuel callee locals report) := by
        intro call hcall
        obtain ⟨callee, found⟩ := start calls hc call hcall
        exact (below calls hc call hcall callee found).mono (fun _ h => ⟨callee, found, h⟩)
      refine ((Filter.eventually_all_finset calls).mpr each).mono ?_
      rintro fuel all calls' h
      cases Option.some.inj h
      exact all
  obtain ⟨enough, h⟩ := Filter.eventually_atTop.mp together
  refine Filter.eventually_atTop.mpr ⟨enough + 1, fun fuel hfuel => ?_⟩
  obtain ⟨fuel, rfl⟩ := Nat.exists_eq_add_of_le' (Nat.le_of_add_left_le hfuel)
  exact fun locals report => itemMeets (h fuel (by omega)) locals report

/- The induction on the call relation. -/
theorem recordEventually (resolves : ∀ f ∈ cfg.storage.fns, cfg.storage.Resolves f)
    (wellFounded : WellFounded cfg.storage.FirstCall) (item : FunctionInfo)
    (first : item ∈ cfg.storage.fns ∧ cfg.storage.FirstRecord item) :
    ∀ᶠ fuel in Filter.atTop, ∀ locals report,
      Meets tcx cfg ⟨item, locals⟩ (analyzeItem tcx cfg fuel item locals report) := by
  induction item using wellFounded.induction with
  | h item ih =>
    refine itemEventually tcx (resolves item first.1) ?_
    intro calls hc call hcall callee found
    obtain ⟨member, _, firstCallee⟩ := FunctionInfoStorage.getByCallSpec found
    exact ih callee ⟨first.2, calls, hc, call, hcall, found⟩ ⟨member, firstCallee⟩

theorem walkEnds (tcx : TyCtxt) (resolves : ∀ f ∈ cfg.storage.fns, cfg.storage.Resolves f)
    (wellFounded : WellFounded cfg.storage.FirstCall) {item : FunctionInfo}
    (start : cfg.storage.Resolves item) :
    ∃ enough, ∀ fuel ≥ enough, ∀ locals report,
      Meets tcx cfg ⟨item, locals⟩ (analyzeItem tcx cfg fuel item locals report) := by
  have eventually := itemEventually tcx start (fun calls hc call hcall callee found =>
    recordEventually resolves wellFounded callee
      ⟨(FunctionInfoStorage.getByCallSpec found).1, (FunctionInfoStorage.getByCallSpec found).2.2⟩)
  exact Filter.eventually_atTop.mp eventually

theorem verdictIffLeak (resolves : ∀ f ∈ cfg.storage.fns, cfg.storage.Resolves f)
    (wellFounded : WellFounded cfg.storage.FirstCall) (item : FunctionInfo)
    (start : cfg.storage.Resolves item) :
    ∃ enough, ∀ fuel ≥ enough, ∀ (locals : ImportantLocals) (report : Report),
      match analyzeItem tcx cfg fuel item locals report with
      | .ok (verdict, _) => verdict = false ↔ Leaks tcx cfg ⟨item, locals⟩
      | .error f => CheckFault f ∧ Reach.Reaches (Step tcx cfg) (Stuck tcx cfg) ⟨item, locals⟩ := by
  obtain ⟨enough, h⟩ := walkEnds tcx resolves wellFounded start
  refine ⟨enough, fun fuel hfuel locals report => ?_⟩
  have meets := h fuel hfuel locals report
  cases hr : analyzeItem tcx cfg fuel item locals report with
  | error f => rw [hr] at meets; exact meets
  | ok result => rw [hr] at meets; exact meets.2

def opaqueCallee : FunctionCall := .withoutBody 1 [.copy (.fromLocal 1)]

def opaqueCaller : FunctionInfo :=
  .withBody ⟨.item, 0, []⟩ .empty {opaqueCallee} ⟨1, [Ty.unit, Ty.usize], [], [], 0⟩ 0 ∅

noncomputable def opaqueSetup : Setup :=
  ⟨⟨⟨.item, 0, []⟩, [.withoutBody 1 [], opaqueCaller]⟩, [], [],
    fun _ => .listed [opaqueCallee] (List.nodup_singleton _), 3⟩

theorem opaqueOrdered : FunctionInfoStorage.Ordered opaqueSetup.storage.fns := by
  have leaf : FunctionInfoStorage.Ordered [.withoutBody 1 []] :=
    FunctionInfoStorage.orderedNil.append nofun
  have caller : FunctionInfoStorage.Ordered ([.withoutBody 1 []] ++ [opaqueCaller]) := by
    apply leaf.append
    intro calls hc call mem
    cases Option.some.inj hc
    cases Finset.mem_singleton.mp mem
    exact ⟨_, List.mem_cons_self, rfl⟩
  exact caller

noncomputable def opaqueCrate : TyCtxt := {TyCtxt.plain (.listed [] List.nodup_nil) with
  loadBodyAndFacts := fun did => if did = 0 then some ⟨1, [Ty.unit, Ty.usize], [], [], 0⟩ else none}

theorem opaqueVerdict : ∃ fuel report report',
    analyzeItem opaqueCrate opaqueSetup fuel opaqueCaller ⟨{1}⟩ .empty = .ok (false, report) ∧
    Leaks opaqueCrate opaqueSetup ⟨opaqueCaller, ⟨{1}⟩⟩ ∧
    analyzeItem opaqueCrate opaqueSetup fuel opaqueCaller ⟨∅⟩ .empty = .ok (true, report') ∧
    ¬ Leaks opaqueCrate opaqueSetup ⟨opaqueCaller, ⟨∅⟩⟩ := by
  obtain ⟨enough, meets⟩ := @verdictIffLeak opaqueCrate opaqueSetup (fun _ => opaqueOrdered.resolves)
    opaqueOrdered.wellFounded opaqueCaller (opaqueOrdered.resolves (by simp [opaqueSetup]))
  obtain ⟨report, leaking⟩ : ∃ report, analyzeItem opaqueCrate opaqueSetup (enough + 2) opaqueCaller
      ⟨{1}⟩ .empty = .ok (false, report) := ⟨_, rfl⟩
  obtain ⟨report', harmless⟩ : ∃ report, analyzeItem opaqueCrate opaqueSetup (enough + 2) opaqueCaller
      ⟨∅⟩ .empty = .ok (true, report) := ⟨_, rfl⟩
  have first := meets (enough + 2) (by omega) ⟨{1}⟩ .empty
  have second := meets (enough + 2) (by omega) ⟨∅⟩ .empty
  rw [leaking] at first
  rw [harmless] at second
  exact ⟨enough + 2, report, report', leaking, first.mp rfl, harmless,
    fun leaks => absurd (second.mpr leaks) (by decide)⟩

end Verdict
end Scrutinizer
