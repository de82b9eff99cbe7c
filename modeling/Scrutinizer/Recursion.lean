import Scrutinizer.CollectionOrder
import Scrutinizer.DirectCollection

/-! The verdict on a program with recursion. The records lack the calls that lead back onto the
first path to their function, so the verdict speaks of the call chains without such calls. -/
namespace Scrutinizer

namespace Recursion

structure Frame where
  did : DefId
  locals : ImportantLocals

def calledItem (tcx : TyCtxt) (did : DefId) : FunctionInfo :=
  match functionBody tcx did with
  | some body => .withBody (itemOf did) .empty ∅ body body.span ∅
  | none => .withoutBody did []

def Frame.node (tcx : TyCtxt) (frame : Frame) : Verdict.Node :=
  ⟨calledItem tcx frame.did, frame.locals⟩

variable (tcx : TyCtxt) (cfg : Setup)

def Exempt (frame : Frame) : Prop := Verdict.Exempt tcx cfg (frame.node tcx)

def Bad (frame : Frame) : Prop := Verdict.Bad tcx cfg (frame.node tcx)

def Call (n m : Frame) : Prop :=
  ¬ Exempt tcx cfg n ∧ ∃ args, CallsWith tcx n.did args m.did ∧
    n.locals.transition tcx args m.did = .ok m.locals

def ForwardCall (origin : DefId) (n m : Frame) : Prop :=
  Call tcx cfg n m ∧ ¬ OnFirstPath tcx origin n.did m.did

def Leak (frame : Frame) : Prop := ¬ Exempt tcx cfg frame ∧ Bad tcx cfg frame

variable {tcx cfg} {origin did : DefId}

def Represents (tcx : TyCtxt) (fns : FunctionInfoStorage) (f : FunctionInfo) (did : DefId) : Prop :=
  (tcx.isMirAvailable did = true ∧ fns.firstOf did = some f) ∨
    (tcx.isMirAvailable did = false ∧ f.key = .withoutBody did)

def Stands (tcx : TyCtxt) (fns : FunctionInfoStorage) (n : Verdict.Node) (frame : Frame) : Prop :=
  Represents tcx fns n.item frame.did ∧ n.locals = frame.locals

theorem calledWithout (missing : tcx.isMirAvailable did = false) :
    calledItem tcx did = .withoutBody did [] := by
  simp [calledItem, functionBody, missing]

theorem representsSame (standing : Standing tcx origin cfg.storage []) {f : FunctionInfo}
    (rep : Represents tcx cfg.storage f did) (locals : ImportantLocals) :
    (Verdict.Exempt tcx cfg ⟨f, locals⟩ ↔ Exempt tcx cfg ⟨did, locals⟩) ∧
      (Verdict.Bad tcx cfg ⟨f, locals⟩ ↔ Bad tcx cfg ⟨did, locals⟩) := by
  unfold Exempt Bad Frame.node
  cases rep with
  | inl body =>
    obtain ⟨places, calls, body, span, rfl, has, _⟩ := standing.records did f body.2
    simp only [calledItem, has]
    refine ⟨Iff.rfl, ?_⟩
    simp only [Verdict.Bad, FunctionInfo.calls, reduceCtorEq, false_or]
    exact Iff.rfl
  | inr missing =>
    obtain ⟨unavailable, key⟩ := missing
    rw [calledWithout unavailable]
    cases f with
    | withBody inst _ _ _ _ _ => cases key
    | withoutBody d args =>
      cases key
      exact ⟨Iff.rfl, Iff.rfl⟩

theorem recordedFound {f : FunctionInfo} {args : List Operand}
    (found : cfg.storage.getByCall (recordedCall tcx did args) = some f) :
    Represents tcx cfg.storage f did := by
  unfold recordedCall at found
  cases available : tcx.isMirAvailable did with
  | true =>
    rw [available, if_pos rfl, FunctionInfoStorage.getByCallKey] at found
    exact .inl ⟨available, found⟩
  | false =>
    simp only [available, Bool.false_eq_true, if_false] at found
    exact .inr ⟨available, (FunctionInfoStorage.getByCallSpec found).2.1⟩

theorem recordedParts (args : List Operand) :
    (recordedCall tcx did args).args = args ∧ (recordedCall tcx did args).defId = did := by
  unfold recordedCall
  split <;> exact ⟨rfl, rfl⟩

theorem callsAvailable {args : List Operand} {callee : DefId} (calls : CallsWith tcx did args callee) :
    tcx.isMirAvailable did = true := by
  obtain ⟨body, _, has, _⟩ := calls
  unfold functionBody at has
  split at has
  · assumption
  · contradiction

section
variable (standing : Standing tcx origin cfg.storage []) {n : Verdict.Node} {frame : Frame}
  (stands : Stands tcx cfg.storage n frame)
include standing stands

theorem stepForward {m : Verdict.Node} (step : Verdict.Step tcx cfg n m) :
    ∃ next, ForwardCall tcx cfg origin frame next ∧ Stands tcx cfg.storage m next := by
  obtain ⟨live, calls, hc, call, mem, found, passed⟩ := step
  obtain ⟨item, locals⟩ := n
  obtain ⟨rep, same⟩ := stands
  simp only at rep same hc passed
  subst same
  have exempt := (representsSame standing rep frame.locals).1
  cases rep with
  | inl body =>
    obtain ⟨places, calls', body, span, rfl, _, kept⟩ := standing.records frame.did item body.2
    cases Option.some.inj hc
    obtain ⟨args, callee, callsWith, off, rfl⟩ := (kept call).mp mem
    rw [(recordedParts args).1, (recordedParts args).2] at passed
    exact ⟨⟨callee, m.locals⟩, ⟨⟨fun h => live (exempt.mpr h), args, callsWith, passed⟩, off⟩,
      recordedFound found, rfl⟩
  | inr missing =>
    cases item with
    | withBody inst _ _ _ _ _ => cases missing.2
    | withoutBody d args => contradiction

theorem stepBack (resolves : ∀ f ∈ cfg.storage.fns, cfg.storage.Resolves f) {next : Frame}
    (call : ForwardCall tcx cfg origin frame next) :
    ∃ m, Verdict.Step tcx cfg n m ∧ Stands tcx cfg.storage m next := by
  obtain ⟨⟨live, args, callsWith, passed⟩, off⟩ := call
  obtain ⟨item, locals⟩ := n
  obtain ⟨rep, same⟩ := stands
  simp only at rep same
  subst same
  have exempt := (representsSame standing rep frame.locals).1
  have available := callsAvailable callsWith
  cases rep with
  | inl body =>
    obtain ⟨places, calls, body', span, rfl, _, kept⟩ := standing.records frame.did item body.2
    have mem := (kept (recordedCall tcx next.did args)).mpr ⟨args, next.did, callsWith, off, rfl⟩
    obtain ⟨callee, found⟩ := resolves _ (List.mem_of_find?_eq_some body.2) calls rfl _ mem
    refine ⟨⟨callee, next.locals⟩, ⟨fun h => live (exempt.mp h), calls, rfl, _, mem, found, ?_⟩,
      recordedFound found, rfl⟩
    rw [(recordedParts args).1, (recordedParts args).2]
    exact passed
  | inr missing =>
    rw [available] at missing
    exact absurd missing.1 (by simp)

end

theorem leaksForward (standing : Standing tcx origin cfg.storage [])
    (resolves : ∀ f ∈ cfg.storage.fns, cfg.storage.Resolves f) {n : Verdict.Node} {frame : Frame}
    (stands : Stands tcx cfg.storage n frame) :
    Verdict.Leaks tcx cfg n ↔
      Reach.Reaches (ForwardCall tcx cfg origin) (Leak tcx cfg) frame := by
  have same : ∀ {n : Verdict.Node} {frame : Frame}, Stands tcx cfg.storage n frame →
      ((¬ Verdict.Exempt tcx cfg n ∧ Verdict.Bad tcx cfg n) ↔ Leak tcx cfg frame) := by
    intro n frame stands
    obtain ⟨rep, same⟩ := stands
    obtain ⟨exempt, bad⟩ := representsSame standing rep n.locals
    obtain ⟨did, locals⟩ := frame
    simp only at same
    subst same
    exact and_congr (not_congr exempt) bad
  constructor
  · intro leaks
    exact Reach.reachesAlong (Stands tcx cfg.storage)
      (fun _ _ _ stands step => stepForward standing stands step)
      (fun _ _ stands found => (same stands).mp found) stands leaks
  · intro leaks
    exact Reach.reachesAlong (fun frame n => Stands tcx cfg.storage n frame)
      (fun _ _ _ stands call => stepBack standing stands resolves call)
      (fun _ _ stands found => (same stands).mpr found) stands leaks

theorem statusForward {member : DefId → Prop} (program : DirectProgram tcx member)
    (itself : member origin) (start : tcx.isMirAvailable origin = true) {fuel : Nat}
    {session : Session} (ends : Collector.collected tcx fuel (itemOf origin) false = some session)
    (storage : cfg.storage = session.fns) :
    ∃ enough, ∀ depth ≥ enough, ∀ closures locals annotatedPure result,
      runAnalysis tcx cfg depth closures locals annotatedPure = .ok result →
        (result.status = false ↔
          Reach.Reaches (ForwardCall tcx cfg origin) (Leak tcx cfg) ⟨origin, locals⟩) := by
  have standing := Collector.directCollected program itself start ends
  obtain ⟨ordered, sameOrigin, record⟩ := Collector.collectedOrdered ends
  rw [← storage] at standing ordered sameOrigin
  have resolves : ∀ f ∈ cfg.storage.fns, cfg.storage.Resolves f := fun f mem => ordered.resolves mem
  have lookup : cfg.storage.getWithBody cfg.storage.origin = cfg.storage.firstOf origin := by
    rw [FunctionInfoStorage.getWithBody, FunctionInfoStorage.isWithBodyKey, sameOrigin]
    rfl
  have known : cfg.storage.Analysed origin := by
    rw [storage]
    exact record
  obtain ⟨item, first⟩ := FunctionInfoStorage.analysedFirst.mp known
  have mem : item ∈ cfg.storage.fns := List.mem_of_find?_eq_some first
  obtain ⟨enough, h⟩ := @Verdict.walkEnds cfg tcx resolves ordered.wellFounded item (resolves item mem)
  refine ⟨enough, ?_⟩
  intro depth deep closures locals annotatedPure result ok
  have outcome := h depth deep locals .empty
  simp only [runAnalysis, lookup, first, bind, Except.bind] at ok
  cases analysed : analyzeItem tcx cfg depth item locals .empty with
  | error fault =>
    rw [analysed] at ok
    contradiction
  | ok pair =>
    rw [analysed] at ok outcome
    cases Except.ok.inj ok
    have verdict : pair.1 = false ↔ Verdict.Leaks tcx cfg ⟨item, locals⟩ := outcome.2
    exact verdict.trans (leaksForward standing resolves ⟨.inl ⟨start, first⟩, rfl⟩)

theorem soundIffForward {member : DefId → Prop} (program : DirectProgram tcx member)
    (itself : member origin) (start : tcx.isMirAvailable origin = true) {fuel : Nat}
    {session : Session} (ends : Collector.collected tcx fuel (itemOf origin) false = some session)
    (storage : cfg.storage = session.fns) :
    ∃ enough, ∀ depth ≥ enough, ∀ closures locals annotatedPure result,
      runAnalysis tcx cfg depth closures locals annotatedPure = .ok result →
        ((result.status = true → ∀ last,
            Relation.ReflTransGen (Call tcx cfg) ⟨origin, locals⟩ last →
              Exempt tcx cfg last ∨ ¬ Bad tcx cfg last) ↔
          (Reach.Reaches (Call tcx cfg) (Leak tcx cfg) ⟨origin, locals⟩ →
            Reach.Reaches (ForwardCall tcx cfg origin) (Leak tcx cfg) ⟨origin, locals⟩)) := by
  obtain ⟨enough, h⟩ := statusForward program itself start ends storage
  refine ⟨enough, ?_⟩
  intro depth deep closures locals annotatedPure result ok
  have verdict := h depth deep closures locals annotatedPure result ok
  constructor
  · intro sound leaks
    obtain ⟨last, chain, live, bad⟩ := leaks
    rw [← verdict]
    cases status : result.status with
    | false => rfl
    | true => exact absurd bad ((sound status last chain).resolve_left live)
  · intro forward status last chain
    by_contra leak
    rw [not_or, not_not] at leak
    have negative := verdict.mpr (forward ⟨last, chain, leak⟩)
    rw [status] at negative
    contradiction

def swapBody : Body :=
  ⟨2, [Ty.unit, Ty.usize, Ty.usize], [.calling 1 [.copy (.fromLocal 2)] 1,
    .calling 0 [.copy (.fromLocal 2), .copy (.fromLocal 1)] 2, .returning], [], 0⟩

noncomputable def swapCrate : TyCtxt := {TyCtxt.plain (.listed [] List.nodup_nil) with
  loadBodyAndFacts := fun did => if did = 0 then some swapBody else none
  fnSig := fun did => if did = 0 then ⟨[.usize, .usize], .unit⟩ else ⟨[.usize], .unit⟩}

noncomputable def swapSetup (fns : FunctionInfoStorage) : Setup :=
  ⟨fns, [], [], fun _ => .listed [.withoutBody 1 [.copy (.fromLocal 2)]] (List.nodup_singleton _), 3⟩

theorem swapEnds : (Collector.collected swapCrate 8 (itemOf 0) false).isSome = true := by
  decide +kernel

noncomputable def swapStorage : FunctionInfoStorage :=
  ((Collector.collected swapCrate 8 (itemOf 0) false).get swapEnds).fns

noncomputable def swapStatus (depth : Nat) : Option Bool :=
  ((runAnalysis swapCrate (swapSetup swapStorage) depth .empty ⟨{1}⟩ true).map
    PurityAnalysisResult.status).toOption

theorem swapBodyOf {did : DefId} {body : Body} (has : functionBody swapCrate did = some body) :
    did = 0 ∧ body = swapBody := by
  by_cases first : did = 0
  · subst first
    exact ⟨rfl, (Option.some.inj has).symm⟩
  · have missing : swapCrate.isMirAvailable did = false := by
      simp [TyCtxt.isMirAvailable, swapCrate, first]
    simp [functionBody, missing] at has

theorem swapCalls {did callee : DefId} {args : List Operand} (calls : CallsWith swapCrate did args callee) :
    (args = [.copy (.fromLocal 2)] ∧ callee = 1) ∨
      (args = [.copy (.fromLocal 2), .copy (.fromLocal 1)] ∧ callee = 0) := by
  obtain ⟨body, bb, has, at_⟩ := calls
  obtain ⟨_, rfl⟩ := swapBodyOf has
  match bb with
  | 0 => cases Option.some.inj at_; exact .inl ⟨rfl, rfl⟩
  | 1 => cases Option.some.inj at_; exact .inr ⟨rfl, rfl⟩
  | 2 => cases at_
  | bb + 3 => cases at_

theorem swapProgram : DirectProgram swapCrate (· < 2) where
  noClosure _ _ := rfl
  resolved _ _ _ := rfl
  unresolved did inst _ missing found := by cases Option.some.inj found; exact missing
  present did small := by
    obtain rfl | rfl := Nat.le_one_iff_eq_zero_or_eq_one.mp (Nat.lt_succ_iff.mp small)
    · decide +kernel
    · decide +kernel
  declared did body _ has := by
    obtain ⟨rfl, rfl⟩ := swapBodyOf has
    rfl
  direct did body data _ has mem := by
    obtain ⟨rfl, rfl⟩ := swapBodyOf has
    simp only [swapBody, List.mem_cons, List.not_mem_nil, or_false] at mem
    rcases mem with rfl | rfl | rfl
    · exact ⟨1, rfl⟩
    · exact ⟨0, rfl⟩
    · trivial
  called did args callee _ calls := by
    obtain ⟨rfl, rfl⟩ | ⟨rfl, rfl⟩ := swapCalls calls <;> exact ⟨by decide, rfl⟩
  edges did body bb data _ has _ atBlock := by
    obtain ⟨rfl, rfl⟩ := swapBodyOf has
    rcases bb with _ | _ | _ | bb
    · cases Option.some.inj atBlock; decide +kernel
    · cases Option.some.inj atBlock; decide +kernel
    · cases Option.some.inj atBlock; decide +kernel
    · cases atBlock

theorem swapForward : ∃ enough, ∀ depth ≥ enough, ∀ closures locals annotatedPure result,
    runAnalysis swapCrate (swapSetup swapStorage) depth closures locals annotatedPure = .ok result →
      ((result.status = true → ∀ last,
          Relation.ReflTransGen (Call swapCrate (swapSetup swapStorage)) ⟨0, locals⟩ last →
            Exempt swapCrate (swapSetup swapStorage) last ∨ ¬ Bad swapCrate (swapSetup swapStorage) last) ↔
        (Reach.Reaches (Call swapCrate (swapSetup swapStorage))
            (Leak swapCrate (swapSetup swapStorage)) ⟨0, locals⟩ →
          Reach.Reaches (ForwardCall swapCrate (swapSetup swapStorage) 0)
            (Leak swapCrate (swapSetup swapStorage)) ⟨0, locals⟩)) :=
  soundIffForward swapProgram (by decide) rfl (Option.some_get swapEnds).symm rfl

theorem swapUnsound : DirectProgram swapCrate (· < 2) ∧ swapStatus 4 = some true ∧
    ∃ last, Relation.ReflTransGen (Call swapCrate (swapSetup swapStorage)) ⟨0, ⟨{1}⟩⟩ last ∧
      ¬ Exempt swapCrate (swapSetup swapStorage) last ∧ Bad swapCrate (swapSetup swapStorage) last := by
  have live : ∀ did ∈ [0, 1], ∀ locals ∈ [({1} : Finset Nat), {2}],
      ¬ Exempt swapCrate (swapSetup swapStorage) ⟨did, ⟨locals⟩⟩ := by
    unfold Exempt Verdict.Exempt
    decide +kernel
  have again : Call swapCrate (swapSetup swapStorage) ⟨0, ⟨{1}⟩⟩ ⟨0, ⟨{2}⟩⟩ :=
    ⟨live 0 (by decide) {1} (by decide), _, ⟨swapBody, 1, rfl, rfl⟩, rfl⟩
  have out : Call swapCrate (swapSetup swapStorage) ⟨0, ⟨{2}⟩⟩ ⟨1, ⟨{1}⟩⟩ :=
    ⟨live 0 (by decide) {2} (by decide), _, ⟨swapBody, 0, rfl, rfl⟩, rfl⟩
  exact ⟨swapProgram, by decide +kernel, ⟨1, ⟨{1}⟩⟩, .head again (.head out .refl),
    live 1 (by decide) {1} (by decide), .inl rfl⟩

end Recursion
end Scrutinizer
