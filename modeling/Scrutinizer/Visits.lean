import Scrutinizer.Verdict

/-! The report of a walk accounts for every visit. A visit is a chain of calls from the start,
so the calls of a record can be taken in any order without a change to what is visited. -/
namespace Scrutinizer
namespace Verdict

def At (tcx : TyCtxt) (cfg : Setup) : Node → List FunctionCall → Node → Prop
  | n, [], m => n = m
  | n, call :: rest, m => ¬ Exempt tcx cfg n ∧ ∃ calls child, n.item.calls = some calls ∧
      call ∈ calls ∧ Passes tcx cfg n.locals call child ∧ At tcx cfg child rest m

def Under (tcx : TyCtxt) (cfg : Setup) (locals : ImportantLocals) (calls : List FunctionCall)
    (path : List FunctionCall) (m : Node) : Prop :=
  ∃ call rest child, path = call :: rest ∧ call ∈ calls ∧ Passes tcx cfg locals call child ∧
    At tcx cfg child rest m

def entryOf (tcx : TyCtxt) (cfg : Setup) (n : Node) : Except Fault FunctionWithMetadata :=
  if cfg.exempt tcx n.item n.locals then
    .ok ⟨n.item, n.locals, false, cfg.isAllowlisted tcx n.item, false⟩
  else do
    let rawPointerDeref ← Setup.rawPointerDeref tcx n.item
    let hasTransmute ← cfg.transmute tcx n.item
    .ok ⟨n.item, n.locals, rawPointerDeref, cfg.isAllowlisted tcx n.item, hasTransmute⟩

structure Visit where
  path : List FunctionCall
  node : Node
  entry : FunctionWithMetadata
  result : Bool

def Visit.under (call : FunctionCall) (v : Visit) : Visit := {v with path := call :: v.path}

def Names (tcx : TyCtxt) (item : FunctionInfo) (crate : String) : Prop :=
  ∃ inst body, item.inst = some inst ∧ tcx.substitutedMir inst = some body ∧
    crate ∈ computeDepsForBody tcx body

structure Accounts (tcx : TyCtxt) (cfg : Setup) (reached : List FunctionCall → Node → Prop)
    (visits : List Visit) (before after : Report) : Prop where
  once : (visits.map Visit.path).Nodup
  all : ∀ path m, reached path m ↔ ∃ v ∈ visits, v.path = path ∧ v.node = m
  entries : ∀ v ∈ visits, entryOf tcx cfg v.node = .ok v.entry
  own : ∀ v ∈ visits, ∃ fuel start finish,
    analyzeItem tcx cfg fuel v.node.item v.node.locals start = .ok (v.result, finish)
  passing : after.passing = before.passing ++ (visits.filter Visit.result).map Visit.entry
  failing : after.failing = before.failing ++ (visits.filter (fun v => !v.result)).map Visit.entry
  deps : ∀ crate, crate ∈ after.deps ↔
    crate ∈ before.deps ∨ ∃ v ∈ visits, Names tcx v.node.item crate

section
variable {tcx : TyCtxt} {cfg : Setup} {before mid after : Report} {visits : List Visit}

theorem atReaches {path : List FunctionCall} : ∀ {n m : Node}, At tcx cfg n path m →
    Relation.ReflTransGen (Step tcx cfg) n m := by
  induction path with
  | nil =>
    intro n m here
    cases here
    exact .refl
  | cons call rest ih =>
    intro n m further
    obtain ⟨live, calls, child, hc, mem, passes, below⟩ := further
    exact .head ⟨live, calls, hc, call, mem, passes⟩ (ih below)

theorem reachesAt {n m : Node} (h : Relation.ReflTransGen (Step tcx cfg) n m) :
    ∃ path, At tcx cfg n path m := by
  induction h using Relation.ReflTransGen.head_induction_on with
  | refl => exact ⟨[], rfl⟩
  | head edge _ ih =>
    obtain ⟨path, below⟩ := ih
    obtain ⟨live, calls, hc, call, mem, passes⟩ := edge
    exact ⟨call :: path, live, calls, _, hc, mem, passes, below⟩

theorem namesIff {item : FunctionInfo} {deps : Finset String}
    (known : Setup.itemDeps tcx item = .ok deps) (crate : String) :
    crate ∈ deps ↔ Names tcx item crate := by
  unfold Setup.itemDeps at known
  unfold Names
  split at known
  · rename_i none_
    cases Except.ok.inj known
    simp [none_]
  · rename_i inst some_
    split at known
    · rename_i body loaded
      cases Except.ok.inj known
      simp [some_, loaded]
    · contradiction

theorem accountsNil (report : Report) :
    Accounts tcx cfg (fun _ _ => False) [] report report where
  once := List.nodup_nil
  all := by simp
  entries := by simp
  own := by simp
  passing := by simp
  failing := by simp
  deps := by simp

theorem Accounts.iff {reached reached' : List FunctionCall → Node → Prop}
    (h : Accounts tcx cfg reached visits before after)
    (same : ∀ path m, reached' path m ↔ reached path m) :
    Accounts tcx cfg reached' visits before after :=
  {h with all := fun path m => (same path m).trans (h.all path m)}

theorem Accounts.under {child : Node} (h : Accounts tcx cfg (At tcx cfg child) visits before after)
    (call : FunctionCall) : Accounts tcx cfg
      (fun path m => ∃ rest, path = call :: rest ∧ At tcx cfg child rest m)
      (visits.map (Visit.under call)) before after where
  once := by
    have paths : (visits.map (Visit.under call)).map Visit.path =
        (visits.map Visit.path).map (call :: ·) := by
      rw [List.map_map, List.map_map]
      rfl
    rw [paths]
    exact h.once.map (fun _ _ same => (List.cons.inj same).2)
  all path m := by
    constructor
    · intro reached
      obtain ⟨rest, rfl, below⟩ := reached
      obtain ⟨v, mem, rfl, rfl⟩ := (h.all rest m).mp below
      exact ⟨v.under call, List.mem_map_of_mem mem, rfl, rfl⟩
    · intro found
      obtain ⟨_, moved, rfl, rfl⟩ := found
      obtain ⟨v, mem, rfl⟩ := List.mem_map.mp moved
      exact ⟨v.path, rfl, (h.all v.path v.node).mpr ⟨v, mem, rfl, rfl⟩⟩
  entries _ moved := by
    obtain ⟨v, mem, rfl⟩ := List.mem_map.mp moved
    exact h.entries v mem
  own _ moved := by
    obtain ⟨v, mem, rfl⟩ := List.mem_map.mp moved
    exact h.own v mem
  passing := by
    rw [h.passing, List.filter_map, List.map_map]
    rfl
  failing := by
    rw [h.failing, List.filter_map, List.map_map]
    rfl
  deps crate := by
    simp [h.deps crate, Visit.under]

theorem Accounts.append {reached reached' : List FunctionCall → Node → Prop} {more : List Visit}
    (h : Accounts tcx cfg reached visits before mid)
    (h' : Accounts tcx cfg reached' more mid after)
    (apart : ∀ path m m', reached path m → ¬ reached' path m') :
    Accounts tcx cfg (fun path m => reached path m ∨ reached' path m) (visits ++ more) before after where
  once := by
    rw [List.map_append, List.nodup_append]
    refine ⟨h.once, h'.once, ?_⟩
    intro path left path' right same
    obtain ⟨v, mem, rfl⟩ := List.mem_map.mp left
    obtain ⟨v', mem', rfl⟩ := List.mem_map.mp right
    exact apart v.path v.node v'.node ((h.all _ _).mpr ⟨v, mem, rfl, rfl⟩)
      ((h'.all _ _).mpr ⟨v', mem', same.symm, rfl⟩)
  all path m := by
    simp only [h.all, h'.all, List.mem_append, or_and_right, exists_or]
  entries v mem := (List.mem_append.mp mem).elim (h.entries v) (h'.entries v)
  own v mem := (List.mem_append.mp mem).elim (h.own v) (h'.own v)
  passing := by rw [h'.passing, h.passing, List.filter_append, List.map_append, List.append_assoc]
  failing := by rw [h'.failing, h.failing, List.filter_append, List.map_append, List.append_assoc]
  deps crate := by
    simp only [h'.deps, h.deps, List.mem_append, or_and_right, exists_or, or_assoc]

theorem Accounts.close {n : Node} {deps : Finset String} {entry : FunctionWithMetadata}
    {result : Bool} {below : List FunctionCall → Node → Prop}
    (known : Setup.itemDeps tcx n.item = .ok deps)
    (children : Accounts tcx cfg below visits (before.addDeps deps) mid)
    (split : ∀ path m, At tcx cfg n path m ↔ below path m ∨ (path = [] ∧ n = m))
    (inner : ∀ m, ¬ below [] m) (made : entryOf tcx cfg n = .ok entry)
    (after_ : after = if result then mid.pass entry else mid.fail entry)
    (returned : ∃ fuel, analyzeItem tcx cfg fuel n.item n.locals before = .ok (result, after)) :
    Accounts tcx cfg (At tcx cfg n) (visits ++ [⟨[], n, entry, result⟩]) before after := by
  have root : Accounts tcx cfg (fun path m => path = [] ∧ n = m) [⟨[], n, entry, result⟩] mid
      {after with deps := mid.deps ∪ deps} :=
    { once := by simp
      all := by simp [eq_comm]
      entries := by simpa using made
      own := by
        obtain ⟨fuel, ok⟩ := returned
        simpa using ⟨fuel, before, after, ok⟩
      passing := by cases result <;> simp [after_, Report.pass, Report.fail]
      failing := by cases result <;> simp [after_, Report.pass, Report.fail]
      deps := by simp [namesIff known] }
  have both := children.append root (fun path m m' inside itself => inner m (itself.1 ▸ inside))
  have kept : after.deps = mid.deps := by cases result <;> simp [after_, Report.pass, Report.fail]
  refine {both.iff split with passing := both.passing, failing := both.failing, deps := ?_}
  intro crate
  have started : crate ∈ (before.addDeps deps).deps ↔ crate ∈ before.deps ∨ Names tcx n.item crate := by
    simp [Report.addDeps, namesIff known]
  rw [kept, children.deps, started]
  simp only [List.mem_append, List.mem_singleton, or_and_right, exists_or, exists_eq_left]
  exact or_assoc.trans (or_congr_right or_comm)

theorem childReturned
    {recurse : FunctionInfo → ImportantLocals → Report → Except Fault (Bool × Report)}
    {locals : ImportantLocals} {call : FunctionCall} {acc next : List Bool × Report}
    (h : analyzeChild tcx cfg recurse locals acc call = .ok next) :
    ∃ callee passed verdict report, Passes tcx cfg locals call ⟨callee, passed⟩ ∧
      recurse callee passed acc.2 = .ok (verdict, report) ∧ next = (acc.1 ++ [verdict], report) := by
  obtain ⟨passed, ok, later⟩ := bindOk h
  cases found : cfg.storage.getByCall call with
  | none =>
    rw [found] at later
    cases later
  | some callee =>
    rw [found] at later
    obtain ⟨result, returned, last⟩ := bindOk later
    exact ⟨callee, passed, result.1, result.2, ⟨found, ok⟩, returned, (Except.ok.inj last).symm⟩

theorem underCons {locals : ImportantLocals} {call : FunctionCall} {rest : List FunctionCall}
    {child : Node} (here : Passes tcx cfg locals call child) (path : List FunctionCall) (m : Node) :
    Under tcx cfg locals (call :: rest) path m ↔
      (∃ tail, path = call :: tail ∧ At tcx cfg child tail m) ∨ Under tcx cfg locals rest path m := by
  constructor
  · intro reached
    obtain ⟨other, tail, next, rfl, mem, passes, inside⟩ := reached
    cases List.mem_cons.mp mem with
    | inl same =>
      cases same
      cases passesUnique passes here
      exact .inl ⟨tail, rfl, inside⟩
    | inr later => exact .inr ⟨other, tail, next, rfl, later, passes, inside⟩
  · intro reached
    cases reached with
    | inl inside =>
      obtain ⟨tail, rfl, inside⟩ := inside
      exact ⟨call, tail, _, rfl, List.mem_cons_self, here, inside⟩
    | inr later =>
      obtain ⟨other, tail, next, rfl, mem, passes, inside⟩ := later
      exact ⟨other, tail, next, rfl, List.mem_cons_of_mem _ mem, passes, inside⟩

theorem childrenAccount
    {recurse : FunctionInfo → ImportantLocals → Report → Except Fault (Bool × Report)}
    (below : ∀ callee passed before verdict after,
      recurse callee passed before = .ok (verdict, after) → ∃ visits,
        Accounts tcx cfg (At tcx cfg ⟨callee, passed⟩) visits before after ∧
        verdict = visits.all Visit.result ∧ (verdict = false ↔ Leaks tcx cfg ⟨callee, passed⟩))
    (locals : ImportantLocals) (calls : List FunctionCall) :
    ∀ {acc out : List Bool × Report}, calls.Nodup →
      calls.foldlM (analyzeChild tcx cfg recurse locals) acc = .ok out → ∃ visits,
        Accounts tcx cfg (Under tcx cfg locals calls) visits acc.2 out.2 ∧
        out.1.all id = (acc.1.all id && visits.all Visit.result) ∧
        (visits.all Visit.result = false ↔
          ∃ call ∈ calls, ∃ m, Passes tcx cfg locals call m ∧ Leaks tcx cfg m) := by
  induction calls with
  | nil =>
    intro acc out _ h
    cases Except.ok.inj h
    refine ⟨[], (accountsNil acc.2).iff ?_, by simp, by simp⟩
    simp [Under]
  | cons call rest ih =>
    intro acc out distinct h
    obtain ⟨fresh, distinct⟩ := List.nodup_cons.mp distinct
    rw [List.foldlM_cons] at h
    obtain ⟨next, step, h⟩ := bindOk h
    obtain ⟨callee, passed, verdict, report, here, returned, rfl⟩ := childReturned step
    obtain ⟨first, account, all, leak⟩ := below callee passed acc.2 verdict report returned
    obtain ⟨more, account', all', leak'⟩ := ih distinct h
    have apart : ∀ path m m',
        (∃ tail, path = call :: tail ∧ At tcx cfg ⟨callee, passed⟩ tail m) →
          ¬ Under tcx cfg locals rest path m' := by
      intro path m m' inside outside
      obtain ⟨tail, rfl, _⟩ := inside
      obtain ⟨other, tail', child, same, mem, _⟩ := outside
      exact fresh ((List.cons.inj same).1 ▸ mem)
    have results : (first.map (Visit.under call)).all Visit.result = verdict := by
      rw [all, List.all_map]
      rfl
    refine ⟨_, ((account.under call).append account' apart).iff (underCons here), ?_, ?_⟩
    · rw [all', List.all_append, List.all_append, results]
      simp [Bool.and_assoc]
    · rw [List.all_append, results, Bool.and_eq_false_iff, leak, leak', leaksCons here]

theorem atExempt {n : Node} (exempt : Exempt tcx cfg n) (path : List FunctionCall) (m : Node) :
    At tcx cfg n path m ↔ False ∨ (path = [] ∧ n = m) := by
  cases path with
  | nil => simp [At]
  | cons call rest => simp [At, exempt]

theorem atOpaque {n : Node} (opaque_ : n.item.calls = none) (path : List FunctionCall) (m : Node) :
    At tcx cfg n path m ↔ False ∨ (path = [] ∧ n = m) := by
  cases path with
  | nil => simp [At]
  | cons call rest => simp [At, opaque_]

theorem atLive {n : Node} {calls : Finset FunctionCall} {order : List FunctionCall}
    (live : ¬ Exempt tcx cfg n) (hc : n.item.calls = some calls)
    (members : ∀ call, call ∈ order ↔ call ∈ calls) (path : List FunctionCall) (m : Node) :
    At tcx cfg n path m ↔ Under tcx cfg n.locals order path m ∨ (path = [] ∧ n = m) := by
  cases path with
  | nil => simp [At, Under]
  | cons call rest => simp [At, Under, live, hc, members, and_assoc]

def Closed (tcx : TyCtxt) (cfg : Setup) (n : Node) (verdict : Bool) (mid after : Report) : Prop :=
  ∃ entry, entryOf tcx cfg n = .ok entry ∧ after = if verdict then mid.pass entry else mid.fail entry

theorem itemReturned {fuel : Nat} {item : FunctionInfo} {locals : ImportantLocals} {verdict : Bool}
    (h : analyzeItem tcx cfg (fuel + 1) item locals before = .ok (verdict, after)) :
    ∃ deps, Setup.itemDeps tcx item = .ok deps ∧
      ((Exempt tcx cfg ⟨item, locals⟩ ∧ verdict = true ∧
          Closed tcx cfg ⟨item, locals⟩ true (before.addDeps deps) after) ∨
        (¬ Exempt tcx cfg ⟨item, locals⟩ ∧ item.calls = none ∧ verdict = false ∧
          Closed tcx cfg ⟨item, locals⟩ false (before.addDeps deps) after) ∨
        ∃ calls raw transmute out, ¬ Exempt tcx cfg ⟨item, locals⟩ ∧ item.calls = some calls ∧
          Setup.rawPointerDeref tcx item = .ok raw ∧ cfg.transmute tcx item = .ok transmute ∧
          ((cfg.callOrder item).iter calls).foldlM (analyzeChild tcx cfg (analyzeItem tcx cfg fuel) locals)
            ([], before.addDeps deps) = .ok out ∧
          verdict = (!Setup.hasUnhandledCalls item && !raw && !transmute && out.1.all id) ∧
          Closed tcx cfg ⟨item, locals⟩ verdict out.2 after) := by
  rw [analyzeItem] at h
  obtain ⟨deps, hd, h⟩ := bindOk h
  refine ⟨deps, hd, ?_⟩
  split at h
  · rename_i exempt
    obtain ⟨rfl, rfl⟩ := Prod.mk.inj (Except.ok.inj h)
    exact .inl ⟨exempt, rfl, _, if_pos exempt, rfl⟩
  · rename_i live
    obtain ⟨raw, hr, h⟩ := bindOk h
    obtain ⟨transmute, ht, h⟩ := bindOk h
    obtain ⟨⟨clean, report⟩, children, h⟩ := bindOk h
    have made : entryOf tcx cfg ⟨item, locals⟩ =
        .ok ⟨item, locals, raw, cfg.isAllowlisted tcx item, transmute⟩ := by
      rw [entryOf, if_neg live]
      simp [hr, ht, bind, Except.bind]
    cases hc : item.calls with
    | none =>
      simp only [analyzeChildren, hc] at children
      obtain ⟨rfl, rfl⟩ := Prod.mk.inj (Except.ok.inj children)
      simp only [Bool.and_false, Bool.false_eq_true, if_false] at h
      obtain ⟨rfl, rfl⟩ := Prod.mk.inj (Except.ok.inj h)
      exact .inr (.inl ⟨live, rfl, rfl, _, made, rfl⟩)
    | some calls =>
      simp only [analyzeChildren, hc] at children
      obtain ⟨out, looped, last⟩ := bindOk children
      obtain ⟨rfl, rfl⟩ := Prod.mk.inj (Except.ok.inj last)
      refine .inr (.inr ⟨calls, raw, transmute, out, live, rfl, hr, ht, looped, ?_⟩)
      simp only at h
      split at h
      · rename_i passing
        obtain ⟨rfl, rfl⟩ := Prod.mk.inj (Except.ok.inj h)
        exact ⟨passing.symm, _, made, rfl⟩
      · rename_i failing
        obtain ⟨rfl, rfl⟩ := Prod.mk.inj (Except.ok.inj h)
        exact ⟨(Bool.eq_false_iff.mpr failing).symm, _, made, rfl⟩

theorem visitsAccount (tcx : TyCtxt) (cfg : Setup) (fuel : Nat) : ∀ item locals before verdict after,
    analyzeItem tcx cfg fuel item locals before = .ok (verdict, after) → ∃ visits,
      Accounts tcx cfg (At tcx cfg ⟨item, locals⟩) visits before after ∧
      verdict = visits.all Visit.result ∧ (verdict = false ↔ Leaks tcx cfg ⟨item, locals⟩) := by
  induction fuel with
  | zero => intro item locals before verdict after h; cases h
  | succ fuel ih =>
    intro item locals before verdict after h
    obtain ⟨deps, hd, cases_⟩ := itemReturned h
    rcases cases_ with ⟨exempt, rfl, entry, made, closed⟩ | ⟨live, hc, rfl, entry, made, closed⟩ |
      ⟨calls, raw, transmute, out, live, hc, hr, ht, looped, decided, entry, made, closed⟩
    · refine ⟨_, Accounts.close hd (accountsNil _) (atExempt exempt) (fun _ h => h) made closed
        ⟨fuel + 1, h⟩, rfl, ?_⟩
      rw [leaksIff]
      simp [exempt]
    · refine ⟨_, Accounts.close hd (accountsNil _) (atOpaque hc) (fun _ h => h) made closed
        ⟨fuel + 1, h⟩, rfl, ?_⟩
      rw [leaksIff]
      simp [live, show Bad tcx cfg ⟨item, locals⟩ from .inl hc]
    · have members := (cfg.callOrder item).mem calls
      obtain ⟨visits, account, all, leak⟩ :=
        childrenAccount ih locals _ ((cfg.callOrder item).nodup calls) looped
      rw [List.all_nil, Bool.true_and] at all
      have inner : ∀ m, ¬ Under tcx cfg locals ((cfg.callOrder item).iter calls) [] m := by
        simp [Under]
      refine ⟨_, Accounts.close hd account (atLive live hc members) inner made closed ⟨fuel + 1, h⟩, ?_, ?_⟩
      · rw [List.all_append, List.all_cons, List.all_nil, Bool.and_true, decided, all]
        cases visits.all Visit.result <;> simp
      · rw [decided, all, Bool.and_eq_false_iff, leak, leaksIff, ← badIff hc hr ht, childLeaksIff hc]
        simp only [members]
        exact ⟨fun either => ⟨live, either⟩, And.right⟩

theorem atOrder (order : FunctionInfo → HashOrder FunctionCall) (path : List FunctionCall) :
    ∀ {n m : Node}, At tcx {cfg with callOrder := order} n path m ↔ At tcx cfg n path m := by
  induction path with
  | nil => exact Iff.rfl
  | cons call rest ih =>
    intro n m
    simp only [At, ih]
    exact Iff.rfl

theorem visitsOrder {n : Node} {order order' : FunctionInfo → HashOrder FunctionCall}
    {visits visits' : List Visit} {before after before' after' : Report}
    (h : Accounts tcx {cfg with callOrder := order} (At tcx {cfg with callOrder := order} n)
      visits before after)
    (h' : Accounts tcx {cfg with callOrder := order'} (At tcx {cfg with callOrder := order'} n)
      visits' before' after') : visits ⊆ visits' := by
  intro v mem
  have reached := (h.all v.path v.node).mpr ⟨v, mem, rfl, rfl⟩
  obtain ⟨v', mem', path, node⟩ :=
    (h'.all v.path v.node).mp ((atOrder order' _).mpr ((atOrder order _).mp reached))
  have entry : v'.entry = v.entry := by
    have made := h.entries v mem
    have made' := h'.entries v' mem'
    rw [node] at made'
    exact Except.ok.inj (made'.symm.trans made)
  have result : v'.result = v.result := by
    obtain ⟨fuel, start, finish, ok⟩ := h.own v mem
    obtain ⟨fuel', start', finish', ok'⟩ := h'.own v' mem'
    obtain ⟨_, _, _, leak⟩ := visitsAccount tcx _ fuel _ _ _ _ _ ok
    obtain ⟨_, _, _, leak'⟩ := visitsAccount tcx _ fuel' _ _ _ _ _ ok'
    rw [node] at leak'
    have same : v.result = false ↔ v'.result = false := leak.trans leak'.symm
    cases hv : v.result <;> cases hv' : v'.result <;> simp_all
  have whole : v' = v := by
    cases v
    cases v'
    simp_all
  exact whole ▸ mem'

theorem visitsPerm {n : Node} {order order' : FunctionInfo → HashOrder FunctionCall}
    {visits visits' : List Visit} {before after before' after' : Report}
    (h : Accounts tcx {cfg with callOrder := order} (At tcx {cfg with callOrder := order} n)
      visits before after)
    (h' : Accounts tcx {cfg with callOrder := order'} (At tcx {cfg with callOrder := order'} n)
      visits' before' after') : visits.Perm visits' :=
  (List.perm_ext_iff_of_nodup (List.Nodup.of_map _ h.once) (List.Nodup.of_map _ h'.once)).mpr
    (fun _ => ⟨fun mem => visitsOrder h h' mem, fun mem => visitsOrder h' h mem⟩)

theorem runOutcome {item : FunctionInfo} {fuel : Nat} {closures : ClosureInfoStorage}
    {locals : ImportantLocals} {annotatedPure : Bool} {result : PurityAnalysisResult}
    (origin : cfg.storage.getWithBody cfg.storage.origin = some item)
    (h : runAnalysis tcx cfg fuel closures locals annotatedPure = .ok result) :
    analyzeItem tcx cfg fuel item locals .empty =
      .ok (result.status, ⟨result.passing, result.failing, result.deps⟩) := by
  simp only [runAnalysis, origin] at h
  obtain ⟨outcome, walked, last⟩ := bindOk h
  cases Except.ok.inj last
  exact walked

theorem failingEmpty {reached : List FunctionCall → Node → Prop}
    (h : Accounts tcx cfg reached visits .empty after) :
    visits.all Visit.result = true ↔ after.failing = [] := by
  rw [h.failing, Report.empty, List.nil_append, List.map_eq_nil_iff, List.filter_eq_nil_iff,
    List.all_eq_true]
  simp

end

structure Reported (tcx : TyCtxt) (cfg : Setup) (n : Node) (verdict : Bool) (report : Report) : Prop where
  accounted : ∃ visits, Accounts tcx cfg (At tcx cfg n) visits .empty report
  deps : ∀ crate, crate ∈ report.deps ↔ ∃ path m, At tcx cfg n path m ∧ Names tcx m.item crate
  status : verdict = true ↔ report.failing = []

structure SameReport (first second : Bool × Report) : Prop where
  verdict : first.1 = second.1
  passing : first.2.passing.Perm second.2.passing
  failing : first.2.failing.Perm second.2.failing
  deps : first.2.deps = second.2.deps

theorem reported {tcx : TyCtxt} {cfg : Setup} {fuel : Nat} {n : Node} {verdict : Bool}
    {report : Report} (h : analyzeItem tcx cfg fuel n.item n.locals .empty = .ok (verdict, report)) :
    Reported tcx cfg n verdict report := by
  obtain ⟨visits, account, all, _⟩ := visitsAccount tcx cfg fuel _ _ _ _ _ h
  refine ⟨⟨visits, account⟩, ?_, all ▸ failingEmpty account⟩
  intro crate
  rw [account.deps, Report.empty]
  constructor
  · intro named
    cases named with
    | inl none_ => exact absurd none_ (Finset.notMem_empty crate)
    | inr visited =>
      obtain ⟨v, mem, names⟩ := visited
      exact ⟨v.path, v.node, (account.all _ _).mpr ⟨v, mem, rfl, rfl⟩, names⟩
  · intro named
    obtain ⟨path, m, reached, names⟩ := named
    obtain ⟨v, mem, _, rfl⟩ := (account.all path m).mp reached
    exact .inr ⟨v, mem, names⟩

theorem sameReport {tcx : TyCtxt} {cfg : Setup} {order order' : FunctionInfo → HashOrder FunctionCall}
    {fuel fuel' : Nat} {n : Node} {outcome outcome' : Bool × Report}
    (h : analyzeItem tcx {cfg with callOrder := order} fuel n.item n.locals .empty = .ok outcome)
    (h' : analyzeItem tcx {cfg with callOrder := order'} fuel' n.item n.locals .empty = .ok outcome') :
    SameReport outcome outcome' := by
  obtain ⟨visits, account, all, _⟩ := visitsAccount tcx _ fuel _ _ _ outcome.1 outcome.2 h
  obtain ⟨visits', account', all', _⟩ := visitsAccount tcx _ fuel' _ _ _ outcome'.1 outcome'.2 h'
  have perm := visitsPerm account account'
  constructor
  · rw [all, all']
    exact perm.all_eq
  · rw [account.passing, account'.passing]
    exact (((perm.filter _).map _).append_left _)
  · rw [account.failing, account'.failing]
    exact (((perm.filter _).map _).append_left _)
  · ext crate
    rw [account.deps, account'.deps]
    simp only [perm.mem_iff]

theorem reportComplete (tcx : TyCtxt) {cfg : Setup}
    (resolves : ∀ f ∈ cfg.storage.fns, cfg.storage.Resolves f)
    (wellFounded : WellFounded cfg.storage.FirstCall) (item : FunctionInfo)
    (start : cfg.storage.Resolves item) (order order' : FunctionInfo → HashOrder FunctionCall) :
    ∃ enough, ∀ fuel ≥ enough, ∀ fuel' ≥ enough, ∀ locals : ImportantLocals,
      match analyzeItem tcx {cfg with callOrder := order} fuel item locals .empty,
        analyzeItem tcx {cfg with callOrder := order'} fuel' item locals .empty with
      | .ok (verdict, report), .ok outcome =>
          Reported tcx {cfg with callOrder := order} ⟨item, locals⟩ verdict report ∧
          SameReport (verdict, report) outcome ∧
          ∀ closures annotatedPure result,
            cfg.storage.getWithBody cfg.storage.origin = some item →
            runAnalysis tcx {cfg with callOrder := order} fuel closures locals annotatedPure = .ok result →
              result.status = verdict ∧ report = ⟨result.passing, result.failing, result.deps⟩
      | .error f, .error f' => CheckFault f ∧ CheckFault f'
      | _, _ => False := by
  obtain ⟨enough, meets⟩ := @walkEnds {cfg with callOrder := order} tcx resolves wellFounded item start
  obtain ⟨enough', meets'⟩ := @walkEnds {cfg with callOrder := order'} tcx resolves wellFounded item start
  refine ⟨max enough enough', fun fuel hfuel fuel' hfuel' locals => ?_⟩
  have outcome := meets fuel (le_trans (le_max_left _ _) hfuel) locals .empty
  have outcome' := meets' fuel' (le_trans (le_max_right _ _) hfuel') locals .empty
  cases h : analyzeItem tcx {cfg with callOrder := order} fuel item locals .empty with
  | error f =>
    rw [h] at outcome
    cases h' : analyzeItem tcx {cfg with callOrder := order'} fuel' item locals .empty with
    | error f' =>
      rw [h'] at outcome'
      exact ⟨outcome.1, outcome'.1⟩
    | ok result =>
      rw [h'] at outcome'
      exact outcome'.1 outcome.2
  | ok result =>
    rw [h] at outcome
    cases h' : analyzeItem tcx {cfg with callOrder := order'} fuel' item locals .empty with
    | error f' =>
      rw [h'] at outcome'
      exact outcome.1 outcome'.2
    | ok result' =>
      refine ⟨@reported tcx _ fuel ⟨item, locals⟩ _ _ h,
        @sameReport tcx cfg order order' fuel fuel' ⟨item, locals⟩ _ _ h h', ?_⟩
      intro closures annotatedPure analysed origin ran
      have same := h.symm.trans (@runOutcome tcx {cfg with callOrder := order} _ _ _ _ _ _ origin ran)
      obtain ⟨verdict, report⟩ := Prod.mk.inj (Except.ok.inj same)
      exact ⟨verdict.symm, report⟩

def firstCallee : FunctionCall := .withoutBody 1 [.copy (.fromLocal 1)]

def secondCallee : FunctionCall := .withoutBody 2 [.copy (.fromLocal 1)]

def pairCaller : FunctionInfo :=
  .withBody ⟨.item, 0, []⟩ .empty {firstCallee, secondCallee} ⟨1, [Ty.unit, Ty.usize], [], [], 0⟩ 0 ∅

noncomputable def firstThenSecond (_ : FunctionInfo) : HashOrder FunctionCall :=
  .listed [firstCallee, secondCallee] (by decide)

noncomputable def secondThenFirst (_ : FunctionInfo) : HashOrder FunctionCall :=
  .listed [secondCallee, firstCallee] (by decide)

noncomputable def pairSetup : Setup :=
  ⟨⟨⟨.item, 0, []⟩, [.withoutBody 1 [], .withoutBody 2 [], pairCaller]⟩, [], [], firstThenSecond, 3⟩

noncomputable def pairCrate : TyCtxt :=
  {TyCtxt.plain (.listed [] List.nodup_nil) with
    loadBodyAndFacts := fun did => if did = 0 then some ⟨1, [Ty.unit, Ty.usize], [], [], 0⟩ else none}

theorem pairOrdered : FunctionInfoStorage.Ordered pairSetup.storage.fns := by
  have leaf : ∀ did, ∀ calls, (FunctionInfo.withoutBody did []).calls = some calls →
      ∀ fns, FunctionInfoStorage.Covers fns calls := fun _ _ none_ => by cases none_
  have first := FunctionInfoStorage.orderedNil.append (fun calls hc => leaf 1 calls hc [])
  have second := first.append (fun calls hc => leaf 2 calls hc _)
  apply second.append
  intro calls hc call mem
  cases Option.some.inj hc
  cases Finset.mem_insert.mp mem with
  | inl first => exact ⟨.withoutBody 1 [], by simp, first ▸ rfl⟩
  | inr second => exact ⟨.withoutBody 2 [], by simp, Finset.mem_singleton.mp second ▸ rfl⟩

theorem pairReports : ∃ enough, ∀ fuel ≥ enough, ∀ fuel' ≥ enough, ∀ locals : ImportantLocals,
    match analyzeItem pairCrate {pairSetup with callOrder := firstThenSecond} fuel pairCaller locals .empty,
      analyzeItem pairCrate {pairSetup with callOrder := secondThenFirst} fuel' pairCaller locals .empty with
    | .ok (verdict, report), .ok outcome =>
        Reported pairCrate {pairSetup with callOrder := firstThenSecond} ⟨pairCaller, locals⟩ verdict report ∧
        SameReport (verdict, report) outcome ∧
        ∀ closures annotatedPure result,
          pairSetup.storage.getWithBody pairSetup.storage.origin = some pairCaller →
          runAnalysis pairCrate {pairSetup with callOrder := firstThenSecond} fuel closures locals
              annotatedPure = .ok result →
            result.status = verdict ∧ report = ⟨result.passing, result.failing, result.deps⟩
    | .error f, .error f' => CheckFault f ∧ CheckFault f'
    | _, _ => False :=
  reportComplete pairCrate (fun _ => pairOrdered.resolves) pairOrdered.wellFounded pairCaller
    (pairOrdered.resolves (by simp [pairSetup])) firstThenSecond secondThenFirst

end Verdict
end Scrutinizer
