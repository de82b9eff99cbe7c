import Mathlib.Data.Finset.Powerset
import Mathlib.Data.Finset.Prod
import Scrutinizer.Fixpoints
import Scrutinizer.MoreFuel
import Scrutinizer.Recursion
import Scrutinizer.Skips

/-! How deep the descents of a collection get. The stack has no item twice, so its length is
bounded where the functions in progress and the types that they are called with are from finite
sets. A function that wraps its argument and passes it on to itself is never on the stack with
the new argument, and the descents do not end. -/
namespace Scrutinizer

def listsOf {α : Type} [DecidableEq α] (items : Finset α) : Nat → Finset (List α)
  | 0 => {[]}
  | n + 1 => insert [] ((items ×ˢ listsOf items n).image (fun pair => pair.1 :: pair.2))

theorem memListsOf {α : Type} [DecidableEq α] {items : Finset α} (n : Nat) : ∀ {xs : List α},
    xs.length ≤ n → (∀ x ∈ xs, x ∈ items) → xs ∈ listsOf items n := by
  induction n with
  | zero =>
    intro xs short _
    cases List.eq_nil_of_length_eq_zero (Nat.le_zero.mp short)
    exact Finset.mem_singleton_self _
  | succ n ih =>
    intro xs short all
    cases xs with
    | nil => exact Finset.mem_insert_self _ _
    | cons x xs =>
      have rest := ih (Nat.le_of_succ_le_succ short) (fun y mem => all y (List.mem_cons_of_mem _ mem))
      have both : (x, xs) ∈ items ×ˢ listsOf items n := Finset.mem_product.mpr ⟨all x List.mem_cons_self, rest⟩
      exact Finset.mem_insert_of_mem (Finset.mem_image.mpr ⟨(x, xs), both, rfl⟩)

namespace TrackedTy

def drawnFrom (types : Finset Ty) : Finset TrackedTy := types.image present ∪ types.powerset.image erased

theorem memDrawnFrom {types : Finset Ty} {tracked : TrackedTy} (inside : tracked.types ⊆ types) :
    tracked ∈ drawnFrom types := by
  cases tracked with
  | present ty =>
    have mem : ty ∈ types := inside (Finset.mem_singleton_self ty)
    exact Finset.mem_union_left _ (Finset.mem_image_of_mem present mem)
  | erased deps =>
    have mem : deps ∈ types.powerset := Finset.mem_powerset.mpr inside
    exact Finset.mem_union_right _ (Finset.mem_image_of_mem erased mem)

end TrackedTy

def itemsOver (functions : Finset DefId) (types : Finset Ty) (arity : Nat) : Finset VirtualStackItem :=
  (functions ×ˢ listsOf (TrackedTy.drawnFrom types) arity).image (fun pair => ⟨pair.1, ⟨pair.2⟩⟩)

def PartialFunctionInfo.Within (functions : Finset DefId) (types : Finset Ty) (arity : Nat)
    (f : PartialFunctionInfo) : Prop :=
  f.inst.defId ∈ functions ∧ f.trackedArgs.argTys.length ≤ arity ∧
    ∀ tracked ∈ f.trackedArgs.argTys, tracked.types ⊆ types

theorem withinItem {functions : Finset DefId} {types : Finset Ty} {arity : Nat} {f : PartialFunctionInfo}
    (within : f.Within functions types arity) : f.stackItem ∈ itemsOver functions types arity := by
  obtain ⟨known, short, inside⟩ := within
  have args := memListsOf arity short (fun tracked mem => TrackedTy.memDrawnFrom (inside tracked mem))
  exact Finset.mem_image.mpr ⟨(f.inst.defId, f.trackedArgs.argTys), Finset.mem_product.mpr ⟨known, args⟩, rfl⟩

theorem withinSome (fs : List PartialFunctionInfo) :
    ∃ functions types arity, ∀ f ∈ fs, f.Within functions types arity := by
  refine ⟨(fs.map (fun f => f.inst.defId)).toFinset,
    (fs.flatMap (fun f => f.trackedArgs.argTys)).toFinset.biUnion TrackedTy.types,
    (fs.map (fun f => f.trackedArgs.argTys.length)).sum, ?_⟩
  intro f mem
  refine ⟨List.mem_toFinset.mpr (List.mem_map_of_mem mem), ?_, ?_⟩
  · exact List.le_sum_of_mem (List.mem_map_of_mem mem)
  · intro tracked arg
    have listed : tracked ∈ (fs.flatMap (fun f => f.trackedArgs.argTys)).toFinset :=
      List.mem_toFinset.mpr (List.mem_flatMap.mpr ⟨f, mem, arg⟩)
    exact Finset.subset_biUnion_of_mem TrackedTy.types listed

namespace Event

def inProgress : Event → List PartialFunctionInfo
  | .round caller _ _ => caller.inProgress
  | _ => []

def depth : Event → Nat
  | .round caller _ _ => caller.virtualStack.length
  | _ => 0

end Event

namespace Collector

def DescentsEnd (tcx : TyCtxt) (inst : Instance) (shallow : Bool) : Prop :=
  ∃ bound, ∀ fuel, ∀ e ∈ (collect tcx fuel inst shallow (startSession inst)).2.log, e.depth ≤ bound

def TypesBounded (tcx : TyCtxt) (inst : Instance) (shallow : Bool) : Prop :=
  ∃ functions types arity, ∀ fuel, ∀ e ∈ (collect tcx fuel inst shallow (startSession inst)).2.log,
    ∀ f ∈ e.inProgress, f.Within functions types arity

def StackDistinct (c : Collector) : Prop := c.StackInProgress ∧ c.virtualStack.Nodup

theorem distinctPush {c : Collector} (distinct : c.StackDistinct)
    (off : c.currentFunction.stackItem ∉ c.virtualStack) : c.push.StackDistinct := by
  refine ⟨stackPush distinct.1, ?_⟩
  rw [push, ← List.concat_eq_append]
  exact distinct.2.concat off

def MadeDistinct : Event → Prop
  | .round caller _ _ => caller.StackDistinct
  | _ => True

theorem distinctRule : LogRule StackDistinct MadeDistinct where
  start _ _ _ _ := distinctPush ⟨fun item => by simp, List.nodup_nil⟩ List.not_mem_nil
  enter _ _ _ fine off := distinctPush fine off
  unresolved _ _ _ := trivial
  round _ _ fine := fine
  descended _ _ _ _ := trivial
  processed _ _ _ _ _ _ _ := trivial

theorem depthWithin {tcx : TyCtxt} {fuel : Nat} {inst : Instance} {shallow : Bool}
    {functions : Finset DefId} {types : Finset Ty} {arity : Nat} {e : Event}
    (mem : e ∈ (collect tcx fuel inst shallow (startSession inst)).2.log)
    (within : ∀ f ∈ e.inProgress, f.Within functions types arity) :
    e.depth ≤ (itemsOver functions types arity).card := by
  cases e with
  | unresolved | descended | processed => exact Nat.zero_le _
  | round caller callee skipped =>
    obtain ⟨started, distinct⟩ := distinctRule.collect tcx fuel inst shallow _ mem
    have inside : caller.virtualStack.toFinset ⊆ itemsOver functions types arity := by
      intro item mem
      obtain ⟨f, running, same⟩ := (started item).mp (List.mem_toFinset.mp mem)
      exact same ▸ withinItem (within f running)
    calc caller.virtualStack.length = caller.virtualStack.toFinset.card :=
        (List.toFinset_card_of_nodup distinct).symm
      _ ≤ (itemsOver functions types arity).card := Finset.card_le_card inside

theorem descentsEnd (tcx : TyCtxt) (inst : Instance) (shallow : Bool) :
    (TypesBounded tcx inst shallow → DescentsEnd tcx inst shallow) ∧
    ∀ fuel session, collected tcx fuel inst shallow = some session → TypesBounded tcx inst shallow := by
  constructor
  · intro bounded
    obtain ⟨functions, types, arity, within⟩ := bounded
    exact ⟨(itemsOver functions types arity).card, fun fuel e mem => depthWithin mem (within fuel e mem)⟩
  · intro fuel session returned
    obtain ⟨functions, types, arity, within⟩ := withinSome (session.log.flatMap Event.inProgress)
    refine ⟨functions, types, arity, ?_⟩
    intro fuel' e mem f running
    have logged := (logComplete tcx returned fuel').subset mem
    exact within f (List.mem_flatMap.mpr ⟨e, logged, running⟩)

theorem swapDescentsEnd : DescentsEnd Recursion.swapCrate (itemOf 0) false :=
  (descentsEnd Recursion.swapCrate (itemOf 0) false).1
    ((descentsEnd Recursion.swapCrate (itemOf 0) false).2 8 _ (Option.some_get Recursion.swapEnds).symm)

section
variable {tcx : TyCtxt} {c : Collector} {s t : Session} {bottom state : CollectorDomain} {fuel : Nat}

theorem runStops {order : List Nat} (unknown : s.fns.getWithBody c.currentFunction.inst = none)
    (starts : bottomValue tcx c.push s = (some bottom, s))
    (first : tcx.reversePostorder c.substitutedBody = 0 :: order)
    (nonempty : 0 < c.substitutedBody.basicBlocks.length)
    (stops : applyBlock tcx (run tcx (fuel + 1)) c.push 0 bottom s = (none, t)) :
    run tcx (fuel + 2) c s = (none, t) := by
  have entry : (List.replicate c.push.substitutedBody.basicBlocks.length bottom)[0]? = some bottom :=
    List.getElem?_replicate_of_lt nonempty
  have ordered : tcx.reversePostorder c.push.substitutedBody = 0 :: order := first
  have missing : s.fns.getWithBody c.push.currentFunction.inst = none := unknown
  have applied : (analysis tcx (run tcx (fuel + 1)) c.push).apply 0 bottom s = (none, t) := stops
  have looked : (Exec.lift (List.replicate c.push.substitutedBody.basicBlocks.length bottom)[0]? :
      Exec Session CollectorDomain) s = (some bottom, s) := by
    rw [entry]
    rfl
  have iterates : (analysis tcx (run tcx (fuel + 1)) c.push).iterateToFixpoint (fuel + 1)
      (List.replicate c.push.substitutedBody.basicBlocks.length bottom) (0 :: order) s = (none, t) :=
    Exec.stopsThen looked (Exec.stopsFirst applied)
  have analyzed : analyzeBody tcx (run tcx (fuel + 1)) (fuel + 1) c.push s = (none, t) := by
    apply Exec.stopsThen starts
    apply Exec.stopsFirst
    rw [ordered]
    exact iterates
  rw [run]
  apply Exec.stopsThen (t := s) rfl
  rw [missing]
  exact analyzed

theorem blockStops {descend : Collector → Exec Session CollectorDomain} {statements : List Statement}
    {ty : Ty} {args : List Operand} {argTys : ArgTys} {destination : Place} {target unwind : Option Nat}
    (block : c.substitutedBody.basicBlocks[0]? =
      some ⟨statements, .call (.constant ty) args destination target unwind⟩)
    (ran : statements.foldlM (applyStatementEffect tcx c) bottom s = (some state, s))
    (passed : state.constructArgs tcx c.substitutedBody c.defId args = some argTys)
    (stops : processCall tcx descend c ty args argTys state (some destination) s = (none, t)) :
    applyBlock tcx descend c 0 bottom s = (none, t) := by
  have typed : (Operand.constant ty).ty tcx c.substitutedBody = .ok ty := rfl
  simp only [applyBlock, block, ran, applyTerminatorEffect, typed, passed, bind, Exec.lift, Except.toOption,
    stops]

theorem callStops {descend : Collector → Exec Session CollectorDomain} {ty : Ty} {args : List Operand}
    {argTys : ArgTys} {destination : Option Place} {did : DefId} {substs : List Ty}
    {callee : PartialFunctionInfo} {body : Body}
    (function : c.currentFunction.substitute ty = .fnDef did substs) (here : tcx.isLocal did = true)
    (resolved : c.currentFunction.resolve tcx s.closures did substs argTys = some (.ok [callee]))
    (off : callee.stackItem ∉ c.virtualStack) (item : callee.inst.kind = .item)
    (has : tcx.substitutedMir callee.inst = some body)
    (stops : descend ⟨c.virtualStack, c.inProgress, callee, body, c.shallow⟩
      (s.note (.round c callee false)) = (none, t)) :
    processCall tcx descend c ty args argTys state destination s = (none, t) := by
  have absent : decide (callee.stackItem ∈ c.virtualStack) = false := decide_eq_false off
  have made : new tcx callee c.virtualStack c.inProgress c.shallow =
      some ⟨c.virtualStack, c.inProgress, callee, body, c.shallow⟩ := by
    rw [new, has]
    rfl
  have processed : processInstance tcx descend c args argTys state callee
      (s.note (.round c callee false)) = (none, t) := by
    rw [processInstance, item]
    apply Exec.stopsThen (congrArg (fun o => (o, _)) has)
    apply Exec.stopsThen (congrArg (fun o => (o, _)) made)
    exact Exec.stopsThen (t := s.note (.round c callee false)) rfl (Exec.stopsFirst stops)
  have round : processCallee tcx descend c args argTys destination state callee s = (none, t) := by
    rw [processCallee, absent]
    exact Exec.stopsThen (t := s.note (.round c callee false)) rfl (Exec.stopsFirst processed)
  rw [processCall, function]
  simp only [here, Bool.not_true, Bool.false_and, Bool.false_eq_true, if_false]
  apply Exec.stopsThen (t := s) rfl
  apply Exec.stopsThen (congrArg (fun o => (o, s)) resolved)
  apply Exec.stopsFirst
  rw [List.foldlM_cons]
  exact Exec.stopsFirst round

end

end Collector

open CollectorDomain

/- `fn nest(object) { wrapped = &raw const object; again = wrapped as *const dyn Trait; nest(again) }` -/
def nestBody : Body :=
  ⟨1, [Ty.unit, objectPtr, pointer objectPtr, objectPtr],
    [⟨wrapInto 1 2 3, .call (.constant (.fnDef 1 [])) [.copy (.fromLocal 3)] .returnPlace (some 1) none⟩,
      .returning], [], 0⟩

def objectRef : Ty := .ref (.dynamic 9 []) .not

/- `fn start(number) { object = number as &dyn Trait; pointer = &raw const *object; nest(pointer) }` -/
def startBody : Body :=
  ⟨1, [Ty.unit, .ref Ty.usize .not, objectRef, objectPtr],
    [⟨[.assign (.fromLocal 2) (.cast .unsize (.copy (.fromLocal 1)) objectRef),
        .assign (.fromLocal 3) (.addressOf .not ((Place.fromLocal 2).extend [.deref]))],
      .call (.constant (.fnDef 1 [])) [.copy (.fromLocal 3)] .returnPlace (some 1) none⟩, .returning], [], 0⟩

def nestBodies (did : DefId) : Option Body :=
  if did = 0 then some startBody else if did = 1 then some nestBody else none

def nestInputs (did : DefId) : List SigTy := if did = 0 then [.ref 0 .usize .not] else [objectSig]

noncomputable def nestOrder : HashOrder Ty :=
  .listed [Ty.usize, .ref Ty.usize .not, pointer Ty.usize] (by decide)

noncomputable def nestCrate : TyCtxt := localsCrate nestBodies nestInputs nestOrder

def nested : Nat → Ty
  | 0 => pointer Ty.usize
  | n + 1 => pointer (nested n)

def nestArgs (n : Nat) : ArgTys := ⟨[.erased {nested n}]⟩

theorem nestedInjective : Function.Injective nested := by
  have grows : StrictMono (fun n => sizeOf (nested n)) := by
    apply strictMono_nat_of_lt_succ
    intro n
    simp only [nested, pointer, Ty.rawPtr.sizeOf_spec]
    omega
  intro n m same
  exact grows.injective (congrArg sizeOf same)

namespace Collector

structure Nesting (n : Nat) (c : Collector) : Prop where
  function : c.currentFunction = .function ⟨.item, 1, []⟩ (nestArgs n)
  body : c.substitutedBody = nestBody
  local_ : c.shallow = false

def Below (n : Nat) (c : Collector) : Prop :=
  ∀ item ∈ c.virtualStack, item.defId = 1 → ∃ m < n, item.trackedArgs = nestArgs m

noncomputable def nestPlaces : PlaceMap :=
  .fromIter [(.fromLocal 0, .fromTy Ty.unit), (.fromLocal 1, .fromTy objectPtr),
    (.fromLocal 2, .fromTy (pointer objectPtr)), (.fromLocal 3, .fromTy objectPtr)]

theorem nestStarts {n : Nat} {c : Collector} (nesting : c.Nesting n) (s : Session) : ∃ bottom,
    bottomValue nestCrate c s = (some bottom, s) ∧
      bottom.get (.fromLocal 1) = some (.erased {nested n}) ∧
      bottom.get (.fromLocal 2) = some (.erased ∅) ∧ bottom.get (.fromLocal 3) = some (.erased ∅) := by
  obtain ⟨stack, inProgress, function, body, shallow⟩ := c
  obtain ⟨rfl, rfl, rfl⟩ := nesting
  have object : nestPlaces.get (.fromLocal 1) = some (.erased ∅) := by decide +kernel
  have wrapped : nestPlaces.get (.fromLocal 2) = some (.erased ∅) := by decide +kernel
  have again : nestPlaces.get (.fromLocal 3) = some (.erased ∅) := by decide +kernel
  obtain ⟨places, injected, here, others⟩ :=
    @localInject nestBodies nestInputs nestOrder nestBody 1 1 ∅ {nested n} objectPtr nestPlaces rfl object (by cases n <;> simp [nested, pointer, Ty.isRef])
  have declared : (nestCrate.allPlaces 1 nestBody).mapM (declaredPlace nestCrate
      ⟨stack, inProgress, .function ⟨.item, 1, []⟩ (nestArgs n), nestBody, false⟩) =
        some [(.fromLocal 0, .fromTy Ty.unit), (.fromLocal 1, .fromTy objectPtr),
          (.fromLocal 2, .fromTy (pointer objectPtr)), (.fromLocal 3, .fromTy objectPtr)] := rfl
  have augmented : CollectorDomain.augmentWithArgs nestCrate nestBody 1 nestPlaces (nestArgs n) = .ok places := by
    have joined : inject nestCrate nestBody 1 nestPlaces (.fromLocal 1) (.erased {nested n}) = .ok places :=
      injected
    have one : CollectorDomain.augmentWithArgs nestCrate nestBody 1 nestPlaces (nestArgs n) =
      (inject nestCrate nestBody 1 nestPlaces (.fromLocal 1) (.erased {nested n}) >>= pure) := rfl
    rw [one, joined]
    rfl
  have initial : initialPlaces nestCrate ⟨stack, inProgress, .function ⟨.item, 1, []⟩ (nestArgs n), nestBody,
      false⟩ = some places := by
    have both : initialPlaces nestCrate ⟨stack, inProgress, .function ⟨.item, 1, []⟩ (nestArgs n), nestBody,
        false⟩ = (CollectorDomain.augmentWithArgs nestCrate nestBody 1 nestPlaces (nestArgs n)).toOption := rfl
    rw [both, augmented]
    rfl
  refine ⟨.new places, ?_, ?_, ?_, ?_⟩
  · have unfolded : ∀ s : Session, bottomValue nestCrate
        ⟨stack, inProgress, .function ⟨.item, 1, []⟩ (nestArgs n), nestBody, false⟩ s =
          (Exec.lift (initialPlaces nestCrate ⟨stack, inProgress, .function ⟨.item, 1, []⟩ (nestArgs n),
            nestBody, false⟩) >>= fun places => pure (.new places)) s := fun _ => rfl
    rw [unfolded, initial]
    rfl
  · rw [← Finset.empty_union {nested n}]
    exact here
  · exact (others _ (by decide)).trans wrapped
  · exact (others _ (by decide)).trans again

theorem belowPush {n : Nat} {c : Collector} (nesting : c.Nesting n) (below : c.Below n) :
    c.push.Below (n + 1) := by
  intro item mem did
  cases List.mem_append.mp mem with
  | inl before =>
    obtain ⟨m, less, same⟩ := below item before did
    exact ⟨m, by omega, same⟩
  | inr last =>
    cases List.mem_singleton.mp last
    exact ⟨n, by omega, by rw [nesting.function]; rfl⟩

theorem nestHas : nestCrate.substitutedMir ⟨.item, 1, []⟩ = some nestBody := rfl

theorem nestCalls {n : Nat} {c : Collector} (nesting : c.Nesting n) (below : c.Below n) {s t : Session}
    {fuel : Nat} (unknown : s.fns.getWithBody ⟨.item, 1, []⟩ = none)
    (stops : run nestCrate (fuel + 1) ⟨c.push.virtualStack, c.push.inProgress,
      .function ⟨.item, 1, []⟩ (nestArgs (n + 1)), nestBody, false⟩
      (s.note (.round c.push (.function ⟨.item, 1, []⟩ (nestArgs (n + 1))) false)) = (none, t)) :
    run nestCrate (fuel + 2) c s = (none, t) := by
  have nesting' : c.push.Nesting n := ⟨nesting.function, nesting.body, nesting.local_⟩
  obtain ⟨bottom, starts, object, wrapped, again⟩ := nestStarts nesting' s
  have none_ : Pointers ∅ := fun ty mem => by cases mem
  obtain ⟨state, ran, _, known, _, _⟩ :=
    @wrapLocal nestBodies nestInputs nestOrder c.push s bottom 1 2 3 {nested n} ∅ ∅ (pointer objectPtr)
      (by rw [nesting'.body]; rfl) objectPtr (by rw [nesting'.body]; rfl) (by decide) object wrapped none_
      again none_
  have passed : state.get (.fromLocal 3) = some (.erased {nested (n + 1)}) := by
    simpa [nested] using known
  have arg : state.constructArgs nestCrate c.push.substitutedBody c.push.defId [.copy (.fromLocal 3)] =
      some (nestArgs (n + 1)) := by
    have fixed : nestCrate.normalize c.push.defId (.fromLocal 3) = .fromLocal 3 := rfl
    simp only [constructArgs, List.mapM_cons, List.mapM_nil, constructArg, Operand.place, Option.bind_some,
      fixed, passed, bind, pure, Option.map_some]
    rfl
  have off : (PartialFunctionInfo.function ⟨.item, 1, []⟩ (nestArgs (n + 1))).stackItem ∉
      c.push.virtualStack := by
    intro on
    obtain ⟨m, less, same⟩ := belowPush nesting below _ on rfl
    have wrappedSame : ({nested (n + 1)} : Finset Ty) = {nested m} := by
      simpa [PartialFunctionInfo.stackItem, PartialFunctionInfo.trackedArgs, nestArgs] using same
    have equal := nestedInjective (Finset.singleton_inj.mp wrappedSame)
    omega
  have resolved : c.push.currentFunction.resolve nestCrate s.closures 1 [] (nestArgs (n + 1)) =
      some (.ok [.function ⟨.item, 1, []⟩ (nestArgs (n + 1))]) := by
    rw [nesting'.function]
    rfl
  have called : processCall nestCrate (run nestCrate (fuel + 1)) c.push (.fnDef 1 []) [.copy (.fromLocal 3)]
      (nestArgs (n + 1)) state (some .returnPlace) s = (none, t) := by
    apply callStops _ rfl resolved off rfl nestHas
    · rw [nesting'.local_]
      exact stops
    · rw [nesting'.function]
      rfl
  have visited := blockStops (by rw [nesting'.body]; rfl) ran arg called
  exact runStops (by rw [nesting.function]; exact unknown) starts (by rw [nesting.body]; rfl)
    (by rw [nesting.body]; decide) visited

theorem nestRuns (fuel : Nat) : ∀ (n : Nat) (c : Collector) (s : Session), c.Nesting n → c.Below n →
    s.fns.getWithBody ⟨.item, 1, []⟩ = none → (∃ e ∈ s.log, e.depth = c.virtualStack.length) →
      ∃ t, run nestCrate (fuel + 1) c s = (none, t) ∧ ∃ e ∈ t.log, e.depth = c.virtualStack.length + fuel := by
  induction fuel with
  | zero =>
    intro n c s nesting _ unknown made
    have nesting' : c.push.Nesting n := ⟨nesting.function, nesting.body, nesting.local_⟩
    obtain ⟨bottom, starts, _⟩ := nestStarts nesting' s
    have missing : s.fns.getWithBody c.push.currentFunction.inst = none := by
      rw [nesting'.function]
      exact unknown
    refine ⟨s, ?_, made⟩
    rw [run]
    apply Exec.stopsThen (t := s) rfl
    rw [missing]
    exact Exec.stopsThen starts rfl
  | succ fuel ih =>
    intro n c s nesting below unknown _
    let callee : PartialFunctionInfo := .function ⟨.item, 1, []⟩ (nestArgs (n + 1))
    have deeper := ih (n + 1) ⟨c.push.virtualStack, c.push.inProgress, callee, nestBody, false⟩
      (s.note (.round c.push callee false)) ⟨rfl, rfl, rfl⟩ (belowPush nesting below) unknown
      ⟨_, List.mem_append_right _ (List.mem_singleton_self _), rfl⟩
    obtain ⟨t, stops, e, mem, depth⟩ := deeper
    refine ⟨t, nestCalls nesting below unknown stops, e, mem, ?_⟩
    rw [depth]
    simp only [push, List.length_append, List.length_singleton]
    omega

noncomputable def starter : Collector :=
  ⟨[], [], .function ⟨.item, 0, []⟩ ⟨[.present (.ref Ty.usize .not)]⟩, startBody, false⟩

theorem starterStarts :
    (starter.push.bottomValue nestCrate (startSession ⟨.item, 0, []⟩)).1.isSome = true := by
  decide +kernel

noncomputable def starterBottom : CollectorDomain :=
  (starter.push.bottomValue nestCrate (startSession ⟨.item, 0, []⟩)).1.get starterStarts

def startStatements : List Statement :=
  [.assign (.fromLocal 2) (.cast .unsize (.copy (.fromLocal 1)) objectRef),
    .assign (.fromLocal 3) (.addressOf .not ((Place.fromLocal 2).extend [.deref]))]

theorem startAssigns : (startStatements.foldlM (applyStatementEffect nestCrate starter.push) starterBottom
    (startSession ⟨.item, 0, []⟩)).1.isSome = true := by
  decide +kernel

noncomputable def startState : CollectorDomain :=
  (startStatements.foldlM (applyStatementEffect nestCrate starter.push) starterBottom
    (startSession ⟨.item, 0, []⟩)).1.get startAssigns

theorem startPasses : startState.constructArgs nestCrate startBody 0 [.copy (.fromLocal 3)] =
    some (nestArgs 0) := by
  decide +kernel

theorem startRuns (fuel : Nat) : ∃ t, run nestCrate (fuel + 2) starter (startSession ⟨.item, 0, []⟩) = (none, t) ∧
    ∃ e ∈ t.log, e.depth = 1 + fuel := by
  let callee : PartialFunctionInfo := .function ⟨.item, 1, []⟩ (nestArgs 0)
  have begins : starter.push.bottomValue nestCrate (startSession ⟨.item, 0, []⟩) =
      (some starterBottom, startSession ⟨.item, 0, []⟩) := Prod.ext (Option.some_get starterStarts).symm rfl
  have ran : startStatements.foldlM (applyStatementEffect nestCrate starter.push) starterBottom
      (startSession ⟨.item, 0, []⟩) = (some startState, startSession ⟨.item, 0, []⟩) :=
    Prod.ext (Option.some_get startAssigns).symm rfl
  have below : Below 0 ⟨starter.push.virtualStack, starter.push.inProgress, callee, nestBody, false⟩ := by
    intro item mem did
    cases List.mem_singleton.mp mem
    cases did
  have deeper := nestRuns fuel 0 ⟨starter.push.virtualStack, starter.push.inProgress, callee, nestBody, false⟩
    ((startSession ⟨.item, 0, []⟩).note (.round starter.push callee false)) ⟨rfl, rfl, rfl⟩ below rfl
    ⟨_, List.mem_singleton_self _, rfl⟩
  obtain ⟨t, stops, e, mem, depth⟩ := deeper
  have off : callee.stackItem ∉ starter.push.virtualStack := by
    intro on
    cases List.mem_singleton.mp on
  have resolved : starter.push.currentFunction.resolve nestCrate (startSession ⟨.item, 0, []⟩).closures 1 []
      (nestArgs 0) = some (.ok [callee]) := rfl
  have called : processCall nestCrate (run nestCrate (fuel + 1)) starter.push (.fnDef 1 [])
      [.copy (.fromLocal 3)] (nestArgs 0) startState (some .returnPlace) (startSession ⟨.item, 0, []⟩) =
        (none, t) :=
    callStops rfl rfl resolved off rfl nestHas stops
  exact ⟨t, runStops rfl begins rfl (by decide) (blockStops rfl ran startPasses called), e, mem, depth⟩

def CallsAndReturns (body : Body) : Prop :=
  ∃ statements func args place, body.basicBlocks =
    [⟨statements, .call func args place (some 1) none⟩, .returning]

theorem callFixpointEnds {descend : Collector → Exec Session CollectorDomain} {c : Collector}
    (shape : CallsAndReturns c.substitutedBody) (bottom : CollectorDomain) (s : Session) :
    (analysis nestCrate descend c).Ends (loopStart nestCrate c bottom s) := by
  obtain ⟨statements, func, args, place, blocks⟩ := shape
  have order : nestCrate.reversePostorder c.substitutedBody = [0, 1] := by
    have range : nestCrate.reversePostorder c.substitutedBody = List.range c.substitutedBody.basicBlocks.length :=
      rfl
    rw [range, blocks]
    rfl
  have forward : (analysis nestCrate descend c).Forward [0, 1] := by
    simp [Analysis.Forward, analysis, blocks, Terminator.edges, BasicBlockData.returning]
  refine ⟨3, ?_⟩
  rw [loopStart, order]
  exact Analysis.forwardEnds forward _ s

theorem nestBodyShape {did : DefId} {body : Body} (has : nestCrate.loadBodyAndFacts did = some body) :
    did < 2 ∧ CallsAndReturns body := by
  have bodies : nestBodies did = some body := has
  unfold nestBodies at bodies
  split at bodies
  · rename_i first
    cases Option.some.inj bodies
    exact ⟨first ▸ Nat.zero_lt_two, _, _, _, _, rfl⟩
  · split at bodies
    · rename_i second
      cases Option.some.inj bodies
      exact ⟨second ▸ Nat.one_lt_two, _, _, _, _, rfl⟩
    · contradiction

theorem nestNeverEnds :
    (∀ did body, nestCrate.loadBodyAndFacts did = some body → did < 2 ∧
      ∀ descend c bottom s, c.substitutedBody = body →
        (analysis nestCrate descend c).Ends (loopStart nestCrate c bottom s)) ∧
    ¬ DescentsEnd nestCrate ⟨.item, 0, []⟩ false := by
  constructor
  · intro did body has
    obtain ⟨known, shape⟩ := nestBodyShape has
    exact ⟨known, fun descend c bottom s same => callFixpointEnds (same ▸ shape) bottom s⟩
  · intro ends
    obtain ⟨bound, bounds⟩ := ends
    obtain ⟨t, stops, e, mem, deep⟩ := startRuns bound
    have collects : collect nestCrate (bound + 2) ⟨.item, 0, []⟩ false (startSession ⟨.item, 0, []⟩) =
        (none, t) := by
      have args : (Exec.lift (originArgs startBody) : Exec Session ArgTys) (startSession ⟨.item, 0, []⟩) =
        (some ⟨[.present (.ref Ty.usize .not)]⟩, startSession ⟨.item, 0, []⟩) := rfl
      have made : (Exec.lift (new nestCrate starter.currentFunction [] [] false) : Exec Session Collector)
        (startSession ⟨.item, 0, []⟩) = (some starter, startSession ⟨.item, 0, []⟩) := rfl
      apply Exec.stopsThen (a := startBody) (t := startSession ⟨.item, 0, []⟩) rfl
      exact Exec.stopsThen args (Exec.stopsThen made (Exec.stopsFirst stops))
    have small := bounds (bound + 2) e (by rw [collects]; exact mem)
    omega

end Collector
end Scrutinizer
