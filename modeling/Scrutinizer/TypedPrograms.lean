import Mathlib.Algebra.Order.BigOperators.Group.List
import Mathlib.Algebra.Order.Group.Nat
import Scrutinizer.Library.Bounded
import Scrutinizer.DerivedStates
import Scrutinizer.Recursion

/-! When the analysis of a program of direct calls returns. Places of types without trait objects
never change, so the states of a body differ in their calls only; with finitely many functions, the
descents end as well. What is left is that each body is well typed: its own steps do not stop on the
types that are declared. -/
namespace Scrutinizer

open FunctionInfoStorage
namespace Collector

def Declared (places : PlaceMap) (state : CollectorDomain) : Prop := ∀ p, state.get p = places.get p

def Assignable (tcx : TyCtxt) (body : Body) (did : DefId) (places : PlaceMap) (place : Place) : Prop :=
  ∃ ty paths, places.get (tcx.normalize did place) = some (.present ty) ∧
    CollectorDomain.transformedPaths tcx body did (tcx.normalize did place) (.present ty) = .ok paths ∧
    ∀ path ∈ paths, ∃ old, places.get path.1 = some old

def functionCollector (tcx : TyCtxt) (did : DefId) (body : Body) : Collector :=
  ⟨[], [], .function (itemOf did) (argsOf tcx did), body, false⟩

structure TypedBody (tcx : TyCtxt) (did : DefId) (body : Body) (places : PlaceMap) : Prop where
  closures : ∀ ty ∈ tcx.visitedTys body, ty.isClosure = false
  starts : initialPlaces tcx (functionCollector tcx did body) = some places
  present : ∀ p tracked, places.get p = some tracked → tracked.isPresent = true
  nonempty : 0 < body.basicBlocks.length
  order : ∀ bb ∈ tcx.reversePostorder body, bb < body.basicBlocks.length
  edges : ∀ data ∈ body.basicBlocks, ∀ target ∈ data.terminator.edges, target < body.basicBlocks.length
  rvalues : ∀ data ∈ body.basicBlocks, ∀ place rvalue, Statement.assign place rvalue ∈ data.statements →
    ∀ closures, ∃ typed, rvalue.trackedTy tcx body (itemOf did) (.new places) closures = some typed
  assigned : ∀ data ∈ body.basicBlocks, ∀ place rvalue, Statement.assign place rvalue ∈ data.statements →
    Assignable tcx body did places place
  args : ∀ data ∈ body.basicBlocks, ∀ func args destination target unwind,
    data.terminator = .call func args destination target unwind →
      ∃ argTys, (CollectorDomain.new places).constructArgs tcx body did args = some argTys
  destinations : ∀ data ∈ body.basicBlocks, ∀ func args destination target unwind,
    data.terminator = .call func args destination target unwind →
      Assignable tcx body did places destination
  dropped : ∀ data ∈ body.basicBlocks, ∀ place target unwind,
    data.terminator = .drop place target unwind → ∃ placeTy, place.ty tcx body = .ok placeTy
  result : ∃ tracked, places.get (tcx.normalize did .returnPlace) = some tracked
  resultTy : ∃ placeTy, (tcx.normalize did .returnPlace).ty tcx body = .ok placeTy

section
variable {tcx : TyCtxt} {did : DefId} {body : Body} {places : PlaceMap} {state : CollectorDomain}

theorem Declared.rvalue (declared : Declared places state) (inst : Instance) (rvalue : Rvalue)
    (closures : ClosureInfoStorage) : rvalue.trackedTy tcx body inst state closures =
      rvalue.trackedTy tcx body inst (.new places) closures := by
  have place : Place.trackedTy tcx body inst state = Place.trackedTy tcx body inst (.new places) := by
    funext place
    rw [Place.trackedTy, Place.trackedTy, declared]
    rfl
  have operand : Operand.trackedTy tcx body inst state = Operand.trackedTy tcx body inst (.new places) := by
    funext operand
    cases operand <;> simp only [Operand.trackedTy, place]
  simp only [Rvalue.trackedTy, place, operand]

theorem Declared.args (declared : Declared places state) (args : List Operand) :
    state.constructArgs tcx body did args = (CollectorDomain.new places).constructArgs tcx body did args := by
  have known : state.get = (CollectorDomain.new places).get := funext declared
  have arg : state.constructArg tcx body did = (CollectorDomain.new places).constructArg tcx body did := by
    funext arg
    simp only [CollectorDomain.constructArg, known]
  rw [CollectorDomain.constructArgs, CollectorDomain.constructArgs, arg]

theorem Declared.joined (present : ∀ p tracked, places.get p = some tracked → tracked.isPresent = true)
    (declared : Declared places state) {p : Place} {tracked : TrackedTy} (held : state.get p = some tracked) :
    ∃ ty, tracked = .present ty := by
  have known := present p tracked (declared p ▸ held)
  cases tracked with
  | present ty => exact ⟨ty, rfl⟩
  | erased deps => cases known

theorem Declared.updated (present : ∀ p tracked, places.get p = some tracked → tracked.isPresent = true)
    (declared : Declared places state) {place : Place} {ty : TrackedTy} {state' : CollectorDomain}
    (ok : state.updateWith tcx body did place ty = .ok state') : Declared places state' := by
  intro p
  obtain ⟨old, paths, _, _, after⟩ := CollectorDomain.updateWithGet ok
  have kept : state'.get p = state.get p := by
    cases held : state.get p with
    | none =>
      have here := after p
      rw [CollectorDomain.get] at held ⊢
      rw [here, held]
      rfl
    | some tracked =>
      obtain ⟨plain, rfl⟩ := declared.joined present held
      have here := after p
      rw [CollectorDomain.get] at held ⊢
      rw [here, held, Option.map_some]
      split <;> simp
  exact kept.trans (declared p)

theorem joinAllOk : ∀ {paths : List (Place × TrackedTy)} {before : PlaceMap},
    (∀ path ∈ paths, ∃ old, before.get path.1 = some old) →
      ∃ after, CollectorDomain.joinAll before paths = .ok after := by
  intro paths
  induction paths with
  | nil => exact fun {before} _ => ⟨before, rfl⟩
  | cons path rest ih =>
    intro before known
    obtain ⟨⟨old, held⟩, others⟩ := List.forall_mem_cons.mp known
    have one : CollectorDomain.joinAt before path.1 path.2 = .ok (before.insert path.1 (old.join path.2).1) := by
      rw [CollectorDomain.joinAt, held]
      rfl
    have later : ∀ next ∈ rest, ∃ old', (before.insert path.1 (old.join path.2).1).get next.1 = some old' := by
      intro next mem
      rw [HashMap.getInsert]
      split
      · exact ⟨_, rfl⟩
      · exact others next mem
    obtain ⟨after, ok⟩ := ih later
    refine ⟨after, ?_⟩
    rw [CollectorDomain.joinAll, List.foldlM_cons, one]
    exact ok

theorem Assignable.updates {place : Place} (assignable : Assignable tcx body did places place)
    (declared : Declared places state) (ty : TrackedTy) :
    ∃ state', state.updateWith tcx body did (tcx.normalize did place) ty = .ok state' := by
  obtain ⟨plain, paths, held, made, reached⟩ := assignable
  have known : state.places.get (tcx.normalize did place) = some (.present plain) := (declared _).trans held
  have inserted : ∀ path ∈ paths, ∃ old,
      (state.places.insert (tcx.normalize did place) (.present plain)).get path.1 = some old := by
    intro path mem
    obtain ⟨old, found⟩ := reached path mem
    rw [HashMap.getInsert]
    split
    · exact ⟨_, rfl⟩
    · exact ⟨old, (declared _).trans found⟩
  obtain ⟨after, joined⟩ := joinAllOk inserted
  refine ⟨{state with places := after}, ?_⟩
  simp only [CollectorDomain.updateWith, known, orMissing, bind, Except.bind, TrackedTy.joinPresent,
    CollectorDomain.propagate, made, joined]

def bodyCalls (tcx : TyCtxt) (body : Body) : Finset FunctionCall :=
  ((List.range body.basicBlocks.length).filterMap (fun bb =>
    (body.callAt bb).map (fun found => recordedCall tcx found.2 found.1))).toFinset

theorem memBodyCalls {bb : Nat} {args : List Operand} {callee : DefId}
    (calls : body.callAt bb = some (args, callee)) : recordedCall tcx callee args ∈ bodyCalls tcx body := by
  refine List.mem_toFinset.mpr (List.mem_filterMap.mpr ⟨bb, List.mem_range.mpr (callAtBound calls), ?_⟩)
  rw [calls]
  rfl

theorem bodyCallsCard (tcx : TyCtxt) (body : Body) :
    (bodyCalls tcx body).card ≤ body.basicBlocks.length := by
  refine Nat.le_trans (List.toFinset_card_le _) ?_
  have short := List.length_filterMap_le (fun bb => (body.callAt bb).map
    (fun found => recordedCall tcx found.2 found.1)) (List.range body.basicBlocks.length)
  rwa [List.length_range] at short

structure StateOf (tcx : TyCtxt) (body : Body) (places : PlaceMap) (state : CollectorDomain) : Prop where
  declared : Declared places state
  calls : state.calls ⊆ bodyCalls tcx body
  unhandled : state.unhandled = ∅

theorem StateOf.join (present : ∀ p tracked, places.get p = some tracked → tracked.isPresent = true)
    {a b : CollectorDomain} (left : StateOf tcx body places a) (right : StateOf tcx body places b) :
    ∃ joined changed, a.join b = some (joined, changed) ∧ StateOf tcx body places joined ∧
      a.calls.card ≤ joined.calls.card ∧ (changed = true → a.calls.card < joined.calls.card) := by
  have form : a.SameForm b := fun p => by rw [left.declared p, right.declared p]
  obtain ⟨joined, changed, ok⟩ := CollectorDomain.joinSome form
  obtain ⟨calls, unhandled⟩ := CollectorDomain.joinCalls ok
  have places_ : ∀ p, joined.get p = a.get p := by
    intro p
    have after := CollectorDomain.joinGet ok p
    rw [CollectorDomain.get, CollectorDomain.get, after]
    cases held : a.places.get p with
    | none => rfl
    | some tracked =>
      obtain ⟨ty, rfl⟩ := left.declared.joined present held
      rw [Option.map_some, TrackedTy.joinManyPresent]
  have none_ : joined.unhandled = ∅ := by rw [unhandled, left.unhandled, right.unhandled, Finset.union_empty]
  refine ⟨joined, changed, ok, ⟨fun p => (places_ p).trans (left.declared p), ?_, none_⟩, ?_, ?_⟩
  · rw [calls]
    exact Finset.union_subset left.calls right.calls
  · rw [calls]
    exact Finset.card_le_card Finset.subset_union_left
  · intro moved
    have differs := (CollectorDomain.joinChanged ok).mp moved
    refine Finset.card_lt_card (Finset.ssubset_iff_subset_ne.mpr ⟨calls ▸ Finset.subset_union_left, ?_⟩)
    exact fun same => differs ⟨fun p => (places_ p).symm, same, left.unhandled.trans none_.symm⟩

def Stored (tcx : TyCtxt) (s : Session) : Prop :=
  ∀ f ∈ s.fns.fns, ∀ did places calls body span unhandled,
    f = .withBody (itemOf did) places calls body span unhandled →
      ∃ tracked, places.get (tcx.normalize did .returnPlace) = some tracked

def Returns (tcx : TyCtxt) (did : DefId) (results : CollectorDomain) : Prop :=
  ∃ tracked, results.places.get (tcx.normalize did .returnPlace) = some tracked

theorem Stored.insert {s : Session} (stored : Stored tcx s) {info : FunctionInfo}
    (new : ∀ did places calls body span unhandled, info = .withBody (itemOf did) places calls body span unhandled →
      ∃ tracked, places.get (tcx.normalize did .returnPlace) = some tracked) :
    Stored tcx (s.insert info) := by
  intro f mem
  have split : f ∈ s.fns.fns ∨ f = info := by
    rcases s.fns.insertCases info with ⟨same, _⟩ | ⟨same, _⟩
    · exact .inl (same ▸ mem)
    · have inside : f ∈ s.fns.fns ++ [info] := by
        simpa [Session.insert, same] using mem
      exact (List.mem_append.mp inside).imp_right List.mem_singleton.mp
  cases split with
  | inl before => exact stored f before
  | inr now => exact now ▸ new

theorem Stored.found {s : Session} (stored : Stored tcx s) {info : FunctionInfo}
    (known : s.fns.getWithBody (itemOf did) = some info) :
    ∃ results, CollectorDomain.fromRegularFnInfo info = some results ∧ Returns tcx did results := by
  have mem : info ∈ s.fns.fns := List.mem_of_find?_eq_some known
  have key := List.find?_some known
  cases info with
  | withoutBody => cases key
  | withBody inst places calls body span unhandled =>
    have same : itemOf did = inst := of_decide_eq_true key
    subst same
    exact ⟨_, rfl, stored _ mem did places calls body span unhandled rfl⟩

end

section
variable {tcx : TyCtxt} {member : DefId → Prop} {did callee : DefId} {above : List DefId} {body : Body}
  {places : PlaceMap} {c : Collector} {s : Session} {state : CollectorDomain} {bb : Nat}

theorem wpTypedStatement (typed : TypedBody tcx did body places) (at_ : At tcx c (did :: above) did body)
    (good : StateOf tcx body places state) (stored : Stored tcx s) {data : BasicBlockData}
    (inBody : data ∈ body.basicBlocks) {statement : Statement} (mem : statement ∈ data.statements) :
    Exec.wp (applyStatementEffect tcx c state statement)
      (fun state' t => StateOf tcx body places state' ∧ Stored tcx t) (fun _ => False) s := by
  cases statement with
  | other => exact ⟨good, stored⟩
  | assign place rvalue =>
    obtain ⟨pair, found⟩ := typed.rvalues data inBody place rvalue mem s.closures
    rw [← good.declared.rvalue] at found
    obtain ⟨state', updated⟩ := (typed.assigned data inBody place rvalue mem).updates good.declared pair.1
    have inst : c.currentFunction.inst = itemOf did := by rw [at_.current]; rfl
    have defId : c.defId = did := by rw [Collector.defId, inst]; rfl
    simp only [applyStatementEffect, Exec.wpBind, Exec.wpGet, at_.body, inst, found, Exec.wpLiftSome,
      Exec.wpModify, defId, updated, Except.toOption]
    obtain ⟨calls, unhandled⟩ := CollectorDomain.updateWithCalls updated
    exact ⟨⟨good.declared.updated typed.present updated, calls ▸ good.calls, unhandled.trans good.unhandled⟩,
      stored⟩

theorem wpTypedStatements (typed : TypedBody tcx did body places) (at_ : At tcx c (did :: above) did body)
    (good : StateOf tcx body places state) (stored : Stored tcx s) {data : BasicBlockData}
    (inBody : data ∈ body.basicBlocks) :
    Exec.wp (data.statements.foldlM (applyStatementEffect tcx c) state)
      (fun state' t => StateOf tcx body places state' ∧ Stored tcx t) (fun _ => False) s := by
  have all : ∀ statements, statements ⊆ data.statements → ∀ state s, StateOf tcx body places state →
      Stored tcx s → Exec.wp (statements.foldlM (applyStatementEffect tcx c) state)
        (fun state' t => StateOf tcx body places state' ∧ Stored tcx t) (fun _ => False) s := by
    intro statements
    induction statements with
    | nil => exact fun _ _ _ good stored => ⟨good, stored⟩
    | cons statement rest ih =>
      intro inside state s good stored
      rw [List.foldlM_cons, Exec.wpBind]
      refine Exec.wpMono (wpTypedStatement typed at_ good stored inBody (inside List.mem_cons_self)) ?_
        (fun _ h => h)
      exact fun state' t kept => ih (fun _ mem => inside (List.mem_cons_of_mem _ mem)) state' t kept.1 kept.2
  exact all data.statements (fun _ mem => mem) state s good stored

theorem At.initial {stack : List DefId} (at_ : At tcx c stack did body) :
    initialPlaces tcx c = initialPlaces tcx (functionCollector tcx did body) := by
  obtain ⟨virtualStack, inProgress, current, substituted, shallow⟩ := c
  obtain ⟨-, rfl, rfl, -⟩ := at_
  rfl

def Delivers (tcx : TyCtxt) (member : DefId → Prop) (stack : List DefId)
    (descend : Collector → Exec Session CollectorDomain) : Prop :=
  ∀ c callee body s, member callee → functionBody tcx callee = some body → callee ∉ stack →
    At tcx c stack callee body → Stored tcx s →
      Exec.wp (descend c) (fun results t => Returns tcx callee results ∧ Stored tcx t) (fun _ => False) s

def Typed (tcx : TyCtxt) (member : DefId → Prop) : Prop :=
  ∀ did body, member did → functionBody tcx did = some body → ∃ places, TypedBody tcx did body places

theorem bodyOf (available : tcx.isMirAvailable callee = true) :
    ∃ body', functionBody tcx callee = some body' ∧ tcx.substitutedMir (itemOf callee) = some body' := by
  obtain ⟨loaded, known⟩ := Option.isSome_iff_exists.mp available
  have has : ∃ body', tcx.substitutedMir (itemOf callee) = some body' := by
    simp only [TyCtxt.substitutedMir, itemOf, known]
    split
    · exact ⟨_, rfl⟩
    · exact ⟨_, rfl⟩
  obtain ⟨body', substituted⟩ := has
  exact ⟨body', by rw [functionBody, if_pos available, substituted], substituted⟩

section
variable {descend : Collector → Exec Session CollectorDomain} (program : DirectProgram tcx member)
  (types : Typed tcx member) (delivers : Delivers tcx member (did :: above) descend)
  (at_ : At tcx c (did :: above) did body) (inside : member callee)
include types delivers at_ inside

theorem wpTypedDescent (stored : Stored tcx s) (available : tcx.isMirAvailable callee = true)
    (off : callee ∉ did :: above) (args : List Operand) :
    Exec.wp (processWithBody tcx descend c args state (.function (itemOf callee) (argsOf tcx callee)))
      (fun out t => out.1 = state.addCall (.withBody (itemOf callee) args) ∧ Stored tcx t) (fun _ => False) s := by
  obtain ⟨body', hasBody, substituted⟩ := bodyOf available
  obtain ⟨places', typed⟩ := types callee body' inside hasBody
  obtain ⟨placeTy, resultTy⟩ := typed.resultTy
  have made : new tcx (.function (itemOf callee) (argsOf tcx callee)) c.virtualStack c.inProgress c.shallow =
      some ⟨c.virtualStack, c.inProgress, .function (itemOf callee) (argsOf tcx callee), body', c.shallow⟩ := by
    simp only [new, PartialFunctionInfo.inst, substituted, Option.map_some]
  obtain ⟨body'', hasBody', there⟩ := at_.next available made
  cases Option.some.inj (hasBody.symm.trans hasBody')
  simp only [processWithBody, PartialFunctionInfo.inst, Exec.wpBind, substituted, Exec.wpLiftSome, made,
    Exec.wpGet]
  refine Exec.wpMono (delivers _ callee body' s inside hasBody off there stored) ?_ (fun _ h => h)
  intro results t done
  obtain ⟨⟨tracked, held⟩, kept⟩ := done
  have returned : ∃ returnTy, results.returnType tcx body' callee = some returnTy := by
    simp only [CollectorDomain.returnType, held, resultTy, Except.toOption, Option.bind_eq_bind, Option.bind_some]
    split
    · exact ⟨_, rfl⟩
    · exact ⟨_, rfl⟩
  obtain ⟨returnTy, known⟩ := returned
  have defId : (itemOf callee).defId = callee := rfl
  have noted : ∀ event, Stored tcx (t.note event) := fun _ => kept
  simp only [Exec.wpModify, defId, known, Exec.wpLiftSome, Exec.wpPure]
  refine ⟨trivial, (noted _).insert ?_⟩
  intro other places calls body span unhandled same
  cases same
  exact ⟨tracked, held⟩

include program in
theorem wpTypedCall {args : List Operand} (good : StateOf tcx body places state) (stored : Stored tcx s)
    (typed : TypedBody tcx did body places) (calls : body.callAt bb = some (args, callee))
    {destination : Place} (assignable : Assignable tcx body did places destination) {argTys : ArgTys}
    (length : argTys.argTys.length = (argsOf tcx callee).argTys.length) :
    Exec.wp (processCall tcx descend c (.fnDef callee []) args argTys state (some destination))
      (fun state' t => StateOf tcx body places state' ∧ Stored tcx t) (fun _ => False) s := by
  have fixed : c.currentFunction.substitute (.fnDef callee []) = .fnDef callee [] := by
    simp [at_.current, PartialFunctionInfo.substitute, PartialFunctionInfo.inst, Instance.substMirFnDef]
  have recorded := @memBodyCalls tcx body bb args callee calls
  have added : StateOf tcx body places (state.addCall (recordedCall tcx callee args)) :=
    ⟨good.declared, Finset.insert_subset recorded good.calls, good.unhandled⟩
  simp only [processCall, fixed, at_.deep, Bool.and_false, Bool.false_eq_true, if_false, Exec.wpBind,
    Exec.wpGet]
  rw [at_.current]
  cases available : tcx.isMirAvailable callee with
  | false =>
    rw [program.resolveNothing inside _ _ available]
    simp only [Exec.wpLiftSome, processOpaque, Exec.wpBind, Exec.wpModify, Exec.wpPure]
    have opaqueCall : recordedCall tcx callee args = .withoutBody callee args := by
      simp [recordedCall, available]
    exact ⟨opaqueCall ▸ added, stored.insert (fun _ _ _ _ _ _ same => by cases same)⟩
  | true =>
    have known : recordedCall tcx callee args = .withBody (itemOf callee) args := if_pos available
    rw [program.resolveBody inside _ _ length available]
    simp only [Exec.wpLiftSome, List.foldlM_cons, List.foldlM_nil, Exec.wpBind, Exec.wpGet,
      Exec.wpModify, Exec.wpPure, processCallee]
    by_cases on : callee ∈ did :: above
    · rw [if_pos (by simpa using at_.onStack.mpr on)]
      exact ⟨good, stored⟩
    · rw [if_neg (by simpa using fun h => on (at_.onStack.mp h)), Exec.wpBind]
      have noted : ∀ event, Stored tcx (s.note event) := fun _ => stored
      have item : processInstance tcx descend c args argTys state
          (.function (itemOf callee) (argsOf tcx callee)) =
            processWithBody tcx descend c args state (.function (itemOf callee) (argsOf tcx callee)) := rfl
      rw [item]
      refine Exec.wpMono (wpTypedDescent types delivers at_ inside (noted _) available on args) ?_
        (fun _ h => h)
      intro out t done
      obtain ⟨same, kept⟩ := done
      rw [← known] at same
      obtain ⟨state', updated⟩ := assignable.updates added.declared out.2
      have defId : c.defId = did := by rw [Collector.defId, at_.current]; rfl
      have assigned : assignResult tcx c (some destination) out.2 out.1 = some state' := by
        rw [assignResult, at_.body, defId, same, updated]
        rfl
      obtain ⟨calls', unhandled⟩ := CollectorDomain.updateWithCalls updated
      rw [assigned, Exec.wpLiftSome]
      exact ⟨⟨added.declared.updated typed.present updated, calls' ▸ added.calls,
        unhandled.trans added.unhandled⟩, kept⟩

end

section
variable {descend : Collector → Exec Session CollectorDomain} (program : DirectProgram tcx member)
  (types : Typed tcx member) (delivers : Delivers tcx member (did :: above) descend)
  (at_ : At tcx c (did :: above) did body) (itself : member did) (hasBody : functionBody tcx did = some body)
  (typed : TypedBody tcx did body places)
include program types delivers at_ itself hasBody typed

theorem wpTypedTerminator (good : StateOf tcx body places state) (stored : Stored tcx s)
    {data : BasicBlockData} (atBlock : body.basicBlocks[bb]? = some data) :
    Exec.wp (applyTerminatorEffect tcx descend c state data.terminator)
      (fun state' t => StateOf tcx body places state' ∧ Stored tcx t) (fun _ => False) s := by
  have inBody := List.mem_of_getElem? atBlock
  have direct := program.direct did body data itself hasBody inBody
  have defId : c.defId = did := by rw [Collector.defId, at_.current]; rfl
  cases terminator : data.terminator with
  | other targets => exact ⟨good, stored⟩
  | drop place target unwind =>
    rw [terminator] at direct
    obtain ⟨placeTy, has⟩ := typed.dropped data inBody place target unwind terminator
    simp only [applyTerminatorEffect, Exec.wpBind, at_.body, has, Except.toOption, Exec.wpLiftSome]
    rw [direct placeTy has]
    exact ⟨good, stored⟩
  | call func args destination target unwind =>
    rw [terminator] at direct
    obtain ⟨callee, rfl⟩ := direct
    have calls : body.callAt bb = some (args, callee) := by
      simp [Body.callAt, atBlock, terminator, Terminator.directCall]
    obtain ⟨inside, length⟩ := program.called did args callee itself ⟨body, bb, hasBody, calls⟩
    obtain ⟨argTys, passed⟩ := typed.args data inBody _ args destination target unwind terminator
    rw [← good.declared.args] at passed
    have assignable := typed.destinations data inBody _ args destination target unwind terminator
    have same : argTys.argTys.length = (argsOf tcx callee).argTys.length := by
      obtain ⟨tys, each, rfl⟩ := Option.map_eq_some_iff.mp passed
      rw [← length]
      exact (MapM.someIff.mp each).length_eq.symm
    simp only [applyTerminatorEffect, Exec.wpBind, Operand.ty, Except.toOption, Exec.wpLiftSome, at_.body,
      defId, passed]
    exact wpTypedCall program types delivers at_ inside good stored typed calls assignable same

theorem wpTypedBlock (good : StateOf tcx body places state) (stored : Stored tcx s)
    (inside : bb < body.basicBlocks.length) :
    Exec.wp (applyBlock tcx descend c bb state)
      (fun state' t => StateOf tcx body places state' ∧ Stored tcx t) (fun _ => False) s := by
  have atBlock : body.basicBlocks[bb]? = some body.basicBlocks[bb] := List.getElem?_eq_getElem inside
  have inBody := List.mem_of_getElem? atBlock
  simp only [applyBlock, Exec.wpBind, at_.body, atBlock, Exec.wpLiftSome]
  refine Exec.wpMono (wpTypedStatements typed at_ good stored inBody) ?_ (fun _ h => h)
  intro state' t kept
  exact wpTypedTerminator program types delivers at_ itself hasBody typed kept.1 kept.2 atBlock

theorem typedTotal : (analysis tcx descend c).Total (Stored tcx) (StateOf tcx body places)
    (fun state => state.calls.card) body.basicBlocks.length body.basicBlocks.length where
  step bb inside state s good stored :=
    wpTypedBlock program types delivers at_ itself hasBody typed good stored inside
  edges bb inside target edge := by
    have atBlock : body.basicBlocks[bb]? = some body.basicBlocks[bb] := List.getElem?_eq_getElem inside
    simp only [analysis, at_.body, atBlock, Option.map_some, Option.getD_some] at edge
    exact typed.edges _ (List.mem_of_getElem? atBlock) target edge
  join a b left right := left.join typed.present right
  limited state good := Nat.le_trans (Finset.card_le_card good.calls) (bodyCallsCard tcx body)

theorem wpTypedBody {fuel : Nat} (stored : Stored tcx s)
    (enough : (tcx.reversePostorder body).length +
      body.basicBlocks.length * body.basicBlocks.length < fuel) :
    Exec.wp (analyzeBody tcx descend fuel c) (fun results t => Returns tcx did results ∧ Stored tcx t)
      (fun _ => False) s := by
  have quiet : collectClosures tcx c s.closures = some s.closures := by
    have each : ∀ tys : List Ty, (∀ ty ∈ tys, ty.isClosure = false) → tys.foldlM (fun closures ty =>
        ClosureInfoStorage.updateWith closures ty c.currentFunction.inst []) s.closures = some s.closures := by
      intro tys
      induction tys with
      | nil => exact fun _ => rfl
      | cons ty rest ih =>
        intro none_
        obtain ⟨first, others⟩ := List.forall_mem_cons.mp none_
        have same : ClosureInfoStorage.updateWith s.closures ty c.currentFunction.inst [] = some s.closures := by
          cases ty <;> first | rfl | cases first
        rw [List.foldlM_cons, same]
        exact ih others
    rw [collectClosures, at_.body]
    exact each _ typed.closures
  have placed : initialPlaces tcx c = some places := at_.initial.trans typed.starts
  have first : StateOf tcx body places (.new places) := ⟨fun _ => rfl, Finset.empty_subset _, rfl⟩
  have start : Stored tcx (s.setClosures s.closures) := stored
  simp only [analyzeBody, bottomValue, Exec.wpBind, Exec.wpGet, quiet, Exec.wpLiftSome, Exec.wpModify,
    placed, Exec.wpPure, at_.body]
  refine Exec.wpMono (Analysis.runTotal
    (typedTotal program types delivers at_ itself hasBody typed) typed.nonempty typed.order first start enough)
    ?_ (fun _ h => h)
  intro results t done
  obtain ⟨tracked, held⟩ := typed.result
  exact ⟨⟨tracked, (done.1.declared _).trans held⟩, done.2⟩

end

def remaining (functions above : List DefId) : Nat := (functions.filter (fun did => decide (did ∉ above))).length

theorem remainingLt {functions : List DefId} (mem : did ∈ functions) (off : did ∉ above) :
    remaining functions (did :: above) < remaining functions above := by
  have fewer : (functions.filter (fun other => decide (other ∉ did :: above))) =
      (functions.filter (fun other => decide (other ∉ above))).filter (fun other => decide (other ≠ did)) := by
    rw [List.filter_filter]
    refine List.filter_congr (fun other _ => ?_)
    simp [List.mem_cons]
  rw [remaining, remaining, fewer]
  refine List.length_filter_lt_length_iff_exists.mpr ⟨did, ?_, by simp⟩
  exact List.mem_filter.mpr ⟨mem, by simpa using off⟩

/- The fuel goes down with the functions that are left, and what stays is enough for each body. -/
theorem typedRun (program : DirectProgram tcx member) (types : Typed tcx member) {functions : List DefId}
    (complete : ∀ did, member did → tcx.isMirAvailable did = true → did ∈ functions) {size : Nat}
    (sized : ∀ did body, member did → functionBody tcx did = some body →
      (tcx.reversePostorder body).length + body.basicBlocks.length * body.basicBlocks.length < size) :
    ∀ (fuel : Nat) (above : List DefId), remaining functions above + size < fuel →
      Delivers tcx member above (run tcx fuel) := by
  intro fuel
  induction fuel with
  | zero => exact fun _ short => absurd short (Nat.not_lt_zero _)
  | succ fuel ih =>
    intro above enough c did body s itself hasBody off at_ stored
    have available : tcx.isMirAvailable did = true := by
      by_contra missing
      rw [functionBody, if_neg missing] at hasBody
      contradiction
    have fewer := remainingLt (complete did itself available) off
    have delivers := ih (did :: above) (by omega)
    obtain ⟨places, typed⟩ := types did body itself hasBody
    have current : c.push.currentFunction.inst = itemOf did := by
      simp [push, at_.current, PartialFunctionInfo.inst]
    simp only [run, Exec.wpBind, Exec.wpGet, current]
    cases known : s.fns.getWithBody (itemOf did) with
    | some info =>
      obtain ⟨results, read, returns⟩ := stored.found known
      simp only [read, Exec.wpLiftSome]
      exact ⟨returns, stored⟩
    | none =>
      have room := sized did body itself hasBody
      exact wpTypedBody program types delivers at_.pushed itself hasBody typed stored (by omega)

def visitsOf (tcx : TyCtxt) (did : DefId) : Nat :=
  (functionBody tcx did).elim 0 (fun body =>
    (tcx.reversePostorder body).length + body.basicBlocks.length * body.basicBlocks.length)

theorem directReturns (program : DirectProgram tcx member) (types : Typed tcx member) {functions : List DefId}
    (complete : ∀ did, member did → tcx.isMirAvailable did = true → did ∈ functions) {origin : DefId}
    (itself : member origin) (start : tcx.isMirAvailable origin = true) :
    ∃ fuel session, collected tcx fuel (itemOf origin) false = some session := by
  have sized : ∃ size, ∀ did body, member did → functionBody tcx did = some body →
      (tcx.reversePostorder body).length + body.basicBlocks.length * body.basicBlocks.length < size := by
    refine ⟨(functions.map (visitsOf tcx)).sum + 1, ?_⟩
    intro did body inside hasBody
    have available : tcx.isMirAvailable did = true := by
      by_contra missing
      rw [functionBody, if_neg missing] at hasBody
      contradiction
    have listed := List.le_sum_of_mem (List.mem_map_of_mem (f := visitsOf tcx) (complete did inside available))
    have here : visitsOf tcx did = (tcx.reversePostorder body).length +
        body.basicBlocks.length * body.basicBlocks.length := by
      rw [visitsOf, hasBody, Option.elim_some]
    omega
  obtain ⟨size, sized⟩ := sized
  obtain ⟨body, hasBody, substituted⟩ := bodyOf start
  have delivers := typedRun program types complete sized (remaining functions [] + size + 1) [] (by omega)
  have declared := program.declared origin body itself hasBody
  have at_ : At tcx ⟨[], [], .function (itemOf origin) (argsOf tcx origin), body, false⟩ [] origin body :=
    ⟨rfl, rfl, rfl, rfl⟩
  have empty : Stored tcx (startSession (itemOf origin)) := fun _ mem => absurd mem List.not_mem_nil
  have ran := delivers _ origin body _ itself hasBody List.not_mem_nil at_ empty
  have made : new tcx (.function (itemOf origin) (argsOf tcx origin)) [] [] false =
      some ⟨[], [], .function (itemOf origin) (argsOf tcx origin), body, false⟩ := by
    simp only [new, PartialFunctionInfo.inst, substituted, Option.map_some]
  have whole : Exec.wp (collect tcx (remaining functions [] + size + 1) (itemOf origin) false)
      (fun _ _ => True) (fun _ => False) (startSession (itemOf origin)) := by
    simp only [collect, Exec.wpBind, substituted, Exec.wpLiftSome, declared, made]
    exact Exec.wpMono ran (fun _ _ _ => trivial) (fun _ h => h)
  refine ⟨remaining functions [] + size + 1, ?_⟩
  rw [Exec.wp] at whole
  unfold collected
  split at whole
  · rename_i t same
    rw [same]
    exact ⟨t, rfl⟩
  · exact absurd whole id

end

end Collector

namespace Recursion

theorem walkFaults {tcx : TyCtxt} {cfg : Setup} {fuel : Nat} {inst : Instance} {shallow : Bool} {session : Session}
    (ends : Collector.collected tcx fuel inst shallow = some session) (storage : cfg.storage = session.fns) :
    ∃ enough, ∀ depth ≥ enough, ∀ closures locals annotatedPure fault,
      runAnalysis tcx cfg depth closures locals annotatedPure = .error fault → Verdict.CheckFault fault := by
  obtain ⟨ordered, sameOrigin, f, inside, key⟩ := Collector.collectedOrdered ends
  rw [← storage] at ordered sameOrigin inside
  have resolves : ∀ f ∈ cfg.storage.fns, cfg.storage.Resolves f := fun f mem => ordered.resolves mem
  have known : (cfg.storage.getWithBody cfg.storage.origin).isSome = true := by
    rw [FunctionInfoStorage.getWithBody, FunctionInfoStorage.isWithBodyKey, sameOrigin, List.find?_isSome]
    exact ⟨f, inside, decide_eq_true key⟩
  obtain ⟨item, first⟩ := Option.isSome_iff_exists.mp known
  have mem : item ∈ cfg.storage.fns := List.mem_of_find?_eq_some first
  obtain ⟨enough, h⟩ := @Verdict.walkEnds cfg tcx resolves ordered.wellFounded item (resolves item mem)
  refine ⟨enough, ?_⟩
  intro depth deep closures locals annotatedPure fault failed
  have outcome := h depth deep locals .empty
  simp only [runAnalysis, first, bind, Except.bind] at failed
  cases analysed : analyzeItem tcx cfg depth item locals .empty with
  | ok pair =>
    rw [analysed] at failed
    contradiction
  | error fault' =>
    rw [analysed] at failed outcome
    cases Except.error.inj failed
    exact outcome.1

theorem decided {tcx : TyCtxt} {member : DefId → Prop} (program : DirectProgram tcx member)
    (types : Collector.Typed tcx member) {functions : List DefId}
    (complete : ∀ did, member did → tcx.isMirAvailable did = true → did ∈ functions) {origin : DefId}
    (itself : member origin) (start : tcx.isMirAvailable origin = true) {chain : Setup → Frame → Frame → Prop}
    (same : ∀ cfg n m, ForwardCall tcx cfg origin n m ↔ chain cfg n m) :
    ∃ fuel session, Collector.collected tcx fuel (itemOf origin) false = some session ∧
      ∀ cfg : Setup, cfg.storage = session.fns → ∃ enough, ∀ depth ≥ enough, ∀ closures locals annotatedPure,
        match runAnalysis tcx cfg depth closures locals annotatedPure with
        | .ok result => result.status = false ↔ Reach.Reaches (chain cfg) (Leak tcx cfg) ⟨origin, locals⟩
        | .error fault => Verdict.CheckFault fault := by
  obtain ⟨fuel, session, ends⟩ := Collector.directReturns program types complete itself start
  refine ⟨fuel, session, ends, ?_⟩
  intro cfg storage
  have relation : ForwardCall tcx cfg origin = chain cfg := funext₂ (fun n m => propext (same cfg n m))
  obtain ⟨first, status⟩ := statusForward program itself start ends storage
  obtain ⟨second, faults⟩ := walkFaults ends storage
  refine ⟨max first second, ?_⟩
  intro depth deep closures locals annotatedPure
  have deepFirst := Nat.le_trans (Nat.le_max_left first second) deep
  have deepSecond := Nat.le_trans (Nat.le_max_right first second) deep
  cases outcome : runAnalysis tcx cfg depth closures locals annotatedPure with
  | ok result => exact relation ▸ status depth deepFirst closures locals annotatedPure result outcome
  | error fault => exact faults depth deepSecond closures locals annotatedPure fault outcome

theorem swapStarts :
    (Collector.initialPlaces swapCrate (Collector.functionCollector swapCrate 0 swapBody)).isSome = true := by
  decide +kernel

theorem swapTyped : Collector.Typed swapCrate (· < 2) := by
  intro did body _ has
  obtain ⟨rfl, rfl⟩ := swapBodyOf has
  let places := (Collector.initialPlaces swapCrate (Collector.functionCollector swapCrate 0 swapBody)).get swapStarts
  have plain : ∀ entry ∈ places.entries, entry.2.isPresent = true := by decide +kernel
  have quiet : ∀ data ∈ swapBody.basicBlocks, data.statements = [] := by decide
  have unitHeld : places.get .returnPlace = some (.present Ty.unit) := by decide +kernel
  have taken : Collector.Assignable swapCrate swapBody 0 places .returnPlace :=
    ⟨Ty.unit, [(.returnPlace, .present Ty.unit)], unitHeld, rfl, List.forall_mem_singleton.mpr ⟨_, unitHeld⟩⟩
  have passed : ∀ args ∈ [[Operand.copy (.fromLocal 2)], [.copy (.fromLocal 2), .copy (.fromLocal 1)]],
      ((CollectorDomain.new places).constructArgs swapCrate swapBody 0 args).isSome = true := by
    decide +kernel
  have called : ∀ data ∈ swapBody.basicBlocks, ∀ func args destination target unwind,
      data.terminator = .call func args destination target unwind → destination = .returnPlace ∧
        args ∈ [[Operand.copy (.fromLocal 2)], [.copy (.fromLocal 2), .copy (.fromLocal 1)]] := by
    intro data mem func args destination target unwind terminator
    simp only [swapBody, List.mem_cons, List.not_mem_nil, or_false] at mem
    rcases mem with rfl | rfl | rfl <;> cases terminator
    · exact ⟨rfl, List.mem_cons_self⟩
    · exact ⟨rfl, List.mem_cons_of_mem _ List.mem_cons_self⟩
  have drops : ∀ data ∈ swapBody.basicBlocks, ∀ place target unwind,
      data.terminator ≠ .drop place target unwind := by
    intro data mem place target unwind terminator
    simp only [swapBody, List.mem_cons, List.not_mem_nil, or_false] at mem
    rcases mem with rfl | rfl | rfl <;> cases terminator
  refine ⟨places, ?_⟩
  exact {
    closures := fun ty mem => absurd mem List.not_mem_nil
    starts := (Option.some_get swapStarts).symm
    present := fun p tracked held => plain _ (HashMap.getMem.mp held)
    nonempty := by decide
    order := by decide
    edges := by decide
    rvalues := fun data mem place rvalue inside => absurd (quiet data mem ▸ inside) List.not_mem_nil
    assigned := fun data mem place rvalue inside => absurd (quiet data mem ▸ inside) List.not_mem_nil
    args := fun data mem func args destination target unwind terminator =>
      Option.isSome_iff_exists.mp (passed args (called data mem func args destination target unwind terminator).2)
    destinations := fun data mem func args destination target unwind terminator =>
      (called data mem func args destination target unwind terminator).1 ▸ taken
    dropped := fun data mem place target unwind terminator => absurd terminator (drops data mem place target unwind)
    result := ⟨_, unitHeld⟩
    resultTy := ⟨.fromTy Ty.unit, rfl⟩ }

end Recursion
end Scrutinizer
