import Scrutinizer.Paths
import Scrutinizer.Substitution
import Scrutinizer.UnknownTypes

/-! What a call on a trait object runs. The machine picks the implementation by the types that its
arguments have where the call is made; the analysis has recorded that implementation, or the method
itself as one without a body, or is in the middle of it. -/
namespace Scrutinizer

def SigTy.pointee (region : Nat) : SigTy → List PlaceElem → Option SigTy
  | ty, [] => some ty
  | .ref r ty _, .deref :: rest => if r = region then ty.pointee region rest else none
  | _, _ :: _ => none

theorem SigTy.pointeeNil (region : Nat) (ty : SigTy) : ty.pointee region [] = some ty := by
  cases ty <;> rfl

theorem SigTy.pointeeCons {region : Nat} {ty part : SigTy} {elem : PlaceElem} {rest : List PlaceElem}
    (h : ty.pointee region (elem :: rest) = some part) :
    ∃ inner m, ty = .ref region inner m ∧ elem = .deref ∧ inner.pointee region rest = some part := by
  cases ty with
  | ref r inner m =>
    cases elem with
    | deref =>
      simp only [pointee] at h
      split at h
      · next same => exact ⟨inner, m, by rw [same], rfl, h⟩
      · cases h
    | _ => simp [pointee] at h
  | _ => simp [pointee] at h

theorem SigTy.pointeeBelow {region : Nat} {path : List PlaceElem} {part : SigTy} : ∀ {ty : SigTy},
    ty.pointee region path = some part →
      Distinct.Below nodes sizeOf (.lifetime region) part path.length ty := by
  induction path with
  | nil =>
    intro ty h
    rw [pointeeNil] at h
    cases Option.some.inj h
    exact .here
  | cons elem rest ih =>
    intro ty h
    obtain ⟨inner, m, rfl, rfl, behind⟩ := pointeeCons h
    refine .step (by rw [nodes]) ?_ (by simp) (ih behind)
    simp only [ref.sizeOf_spec]
    omega

theorem Ty.pointeeBelow {path : List PlaceElem} {part : Ty} : ∀ {ty : Ty}, ty.pointee path = some part →
    Distinct.Below nodes sizeOf .lifetime part path.length ty := by
  induction path with
  | nil =>
    intro ty h
    rw [pointeeNil] at h
    cases Option.some.inj h
    exact .here
  | cons elem rest ih =>
    intro ty h
    obtain ⟨inner, m, rfl, rfl, behind⟩ := pointeeCons h
    refine .step (by rw [nodes]) ?_ (by simp) (ih behind)
    simp only [ref.sizeOf_spec]
    omega

theorem ArgTys.peelPointee {region index : Nat} {path : List PlaceElem} {generic : SigTy} {shown ty : Ty}
    (here : generic.pointee region path = some (.param index)) (there : shown.pointee path = some ty)
    (other : ty ≠ .lifetime) : ArgTys.peel index generic shown = some ty := by
  obtain ⟨before, after, split, new, count⟩ := (SigTy.pointeeBelow here).split ⟨[], rfl⟩ (by simp)
  obtain ⟨before', after', split', new', count'⟩ := (Ty.pointeeBelow there).split (Ty.nodesHead ty) other
  rw [ArgTys.peelSplit split new, Ty.walk, split', Distinct.getIff new', count, count']

namespace Borrows
open Collector (analysis analyzeBody calleeCall)

inductive Machine.ArgTy (m : Machine) (body : Body) : Operand → Ty → Prop where
  | constant {ty} (known : containsErased ty = false) : m.ArgTy body (.constant ty) ty
  | plain {op place ty} (from_ : op.place = some place) (at_ : declared body place = some ty)
      (known : containsErased ty = false) : m.ArgTy body op ty
  | hidden {op place decl ty} (from_ : op.place = some place) (at_ : declared body place = some decl)
      (erased : containsErased decl = true) (fresh : m.UpToDate body place)
      (read : m.read body place = some ty) : m.ArgTy body op ty

/- What stands for a parameter of a method: an argument leads to it through references. The walk
over the signature tells lifetimes apart, so that they have to be one. -/
def Machine.Instantiates (m : Machine) (body : Body) (inputs : List SigTy) (args : List Operand) (index : Nat)
    (ty : Ty) : Prop :=
  ty ≠ .lifetime ∧ ∃ (k : Nat) (generic : SigTy) (shown : Ty) (op : Operand) (region : Nat)
    (path : List PlaceElem), inputs[k]? = some generic ∧ args[k]? = some op ∧
      generic.pointee region path = some (.param index) ∧ m.ArgTy body op shown ∧ shown.pointee path = some ty

structure Machine.Dispatches (tcx : TyCtxt) (m : Machine) (body : Body) (method : DefId) (substs : List Ty)
    (args : List Operand) (inst : Instance) : Prop where
  generic : 0 < substs.length
  runs : ∃ picked : List Ty, picked.length = substs.length ∧ tcx.resolve method picked = some inst ∧
    ∀ i ty, picked[i]? = some ty → m.Instantiates body (tcx.fnSig method).inputs args i ty

/- The calls account for an implementation that is called with arguments of these types: it is
recorded, or the method is as one without a body, or a function with its definition and with the types
that the analysis would enter it with is in progress. -/
def AccountsFor (tcx : TyCtxt) (c : Collector) (method : DefId) (args : List Operand) (argTys : ArgTys)
    (inst : Instance) (calls : Finset FunctionCall) : Prop :=
  .withoutBody method args ∈ calls ∨ ∃ provided, extractArgTys tcx inst = some provided ∧
    let callee := PartialFunctionInfo.function (c.currentFunction.inst.substInstance inst) (argTys.merge provided)
    calleeCall callee args ∈ calls ∨ callee.stackItem ∈ c.virtualStack

section
variable {tcx : TyCtxt} {c : Collector} {descend : Collector → Exec Session CollectorDomain} {m : Machine}
  {s : CollectorDomain} (fragment : Fragment tcx c.defId c.substitutedBody)
  (sound : Sound c.substitutedBody m s.places)
include fragment sound

theorem argCovered {op : Operand} {ty : Ty} (has : m.ArgTy c.substitutedBody op ty) {tracked : TrackedTy}
    (known : CollectorDomain.constructArg tcx c.substitutedBody c.defId s op = some tracked) :
    ty ∈ tracked.types := by
  cases has with
  | constant plain =>
    simp only [CollectorDomain.constructArg, Operand.place, Option.bind_none, Operand.ty, Except.map,
      Except.toOption] at known
    cases Option.some.inj known
    simp [TrackedTy.fromTy, plain, TrackedTy.types]
  | @plain _ place _ from_ at_ plain =>
    obtain ⟨held, found, shape⟩ := sound.shaped place ty at_
    rw [TrackedTy.describedPresent shape plain] at found
    simp only [CollectorDomain.constructArg, from_, Option.bind_some, fragment.normalized place ty at_,
      CollectorDomain.get, found] at known
    cases Option.some.inj known
    exact Finset.mem_singleton_self _
  | @hidden _ place decl _ from_ at_ erased fresh read =>
    obtain ⟨deps, found, mem⟩ := gaveTracked sound at_ erased (fresh decl ty at_ erased read)
    simp only [CollectorDomain.constructArg, from_, Option.bind_some, fragment.normalized place decl at_,
      CollectorDomain.get, found] at known
    cases Option.some.inj known
    exact mem

theorem instantiatesSuggested {method : DefId} {args : List Operand} {argTys : ArgTys} {index : Nat} {ty : Ty}
    (passed : s.constructArgs tcx c.substitutedBody c.defId args = some argTys)
    (stands : m.Instantiates c.substitutedBody (tcx.fnSig method).inputs args index ty) :
    Suggests tcx method argTys index ty := by
  obtain ⟨other, k, generic, shown, op, region, path, input, arg, leads, has, ends⟩ := stands
  obtain ⟨tys, each, rfl⟩ := Option.map_eq_some_iff.mp passed
  have pairs := MapM.someIff.mp each
  have bound : k < args.length := (List.getElem?_eq_some_iff.mp arg).1
  have bound' : k < tys.length := pairs.length_eq ▸ bound
  have known := List.Forall₂.get pairs bound bound'
  have same : args.get ⟨k, bound⟩ = op := (List.getElem?_eq_some_iff.mp arg).2
  rw [same] at known
  have held : tys[k]? = some (tys.get ⟨k, bound'⟩) := List.getElem?_eq_getElem bound'
  have pair : (generic, tys.get ⟨k, bound'⟩) ∈ (tcx.fnSig method).inputs.zip tys :=
    List.mem_of_getElem? (List.getElem?_zip_eq_some.mpr ⟨input, held⟩)
  exact ⟨_, pair, shown, argCovered fragment sound has known, ArgTys.peelPointee leads ends other⟩

theorem dispatchSuggested {method : DefId} {substs : List Ty} {args : List Operand} {argTys : ArgTys}
    {inst : Instance} (passed : s.constructArgs tcx c.substitutedBody c.defId args = some argTys)
    (dispatches : m.Dispatches tcx c.substitutedBody method substs args inst) :
    Suggested tcx method substs.length argTys inst := by
  obtain ⟨picked, length, resolves, each⟩ := dispatches.runs
  exact ⟨dispatches.generic, picked, length,
    fun i ty at_ => instantiatesSuggested fragment sound passed (each i ty at_), resolves⟩

end

section
variable {tcx : TyCtxt} {c : Collector} {descend : Collector → Exec Session CollectorDomain}

theorem terminatorReached (fragment : Fragment tcx c.defId c.substitutedBody)
    (typed : ∀ data ∈ c.substitutedBody.basicBlocks, ∀ statement ∈ data.statements, Typed c.substitutedBody statement)
    {current : Instance} {passedTys : ArgTys} {start m final : Machine}
    (isFunction : c.currentFunction = .function current passedTys) (noClosure : tcx.isClosure c.defId = false)
    (passed : Passed c.substitutedBody passedTys start) {Before : Session → Prop}
    (backward : ∀ bb d, Exec.Backward Before ((analysis tcx descend c).apply bb d))
    (inOrder : ∀ bb ∈ tcx.reversePostorder c.substitutedBody,
      ∀ target ∈ (analysis tcx descend c).edges bb, target ∈ tcx.reversePostorder c.substitutedBody)
    (entered : 0 ∈ tcx.reversePostorder c.substitutedBody) {fuel : Nat} {session session' : Session}
    {result : CollectorDomain} (analysed : analyzeBody tcx descend fuel c session = (some result, session'))
    (known : Before session') {bb : Nat} (path : Analysis.Path (analysis tcx descend c).edges
      (Collector.BlockStep c.substitutedBody (Runs c.substitutedBody) Leaves) 0 start bb m)
    {data : BasicBlockData} (here : c.substitutedBody.basicBlocks[bb]? = some data)
    (ran : Runs c.substitutedBody data.statements m final) :
    ∃ after out t u, Sound c.substitutedBody final after.places ∧
      Collector.applyTerminatorEffect tcx descend c after data.terminator t = (some out, u) ∧
      Before u ∧ out.KeptBy result := by
  have tracked := runsTracked fragment typed
  obtain ⟨state, out, described, effect, _, kept⟩ := tracked.reaches backward inOrder entered
    (soundBottom fragment isFunction noClosure passed session) analysed known path
  obtain ⟨s, t, u, after, statements, last, later⟩ := Collector.effectParts effect here
  have whole := tracked.run data (List.mem_of_getElem? here) data.statements [] (List.append_nil _).symm
    m final state s described ran
  have sound : Sound c.substitutedBody final after.places :=
    @Exec.wpResult _ _ (fun out _ => Sound c.substitutedBody final out.places) _ _ _ _ _ whole statements
  exact ⟨after, out, t, u, sound, last, later, kept⟩

end

section
variable {tcx : TyCtxt} {c : Collector} {descend : Collector → Exec Session CollectorDomain}
  {method : DefId} {substs : List Ty} {args : List Operand} {inst : Instance} {functionTy : Ty}
  (called : c.currentFunction.substitute functionTy = .fnDef method substs) (deep : c.shallow = false)
  (bodiless : Collector.BodilessMethod tcx method substs) (plain : tcx.isClosure inst.defId = false)
include called deep bodiless plain

theorem suggestedAccounted {argTys : ArgTys} {destination : Option Place} {s t : Session}
    {state state' : CollectorDomain} (suggested : Suggested tcx method substs.length argTys inst)
    (ends : Collector.processCall tcx descend c functionTy args argTys state destination s = (some state', t)) :
    AccountsFor tcx c method args argTys inst state'.calls := by
  obtain ⟨resolved, h, outcome⟩ :=
    Exec.wpResult (Collector.wpProcessCallCalls called (.inr deep) args argTys destination) ends
  cases outcome with
  | inr other => exact .inl (other.2 ▸ Finset.mem_insert_self _ _)
  | inl looped =>
    obtain ⟨callee, callees, rfl, after⟩ := looped
    obtain ⟨provided, extracted, mem⟩ := Collector.suggestedResolved bodiless h suggested plain
    refine .inr ⟨provided, extracted, ?_⟩
    by_cases on : (PartialFunctionInfo.function (c.currentFunction.inst.substInstance inst)
        (argTys.merge provided)).stackItem ∈ c.virtualStack
    · exact .inr on
    · exact .inl ((after.calls _).mpr (.inr ⟨_, mem, on, rfl⟩))

end

noncomputable def implementedCrate : TyCtxt := {traitCrate with
  fnSig := fun did => if did = 7 then ⟨[.ref 0 (.param 0) .not], .unit⟩ else ⟨[.ref 0 (.adt (did - 10) []) .not], .unit⟩
  loadBodyAndFacts := fun did =>
    if did = 11 ∨ did = 12 then some ⟨1, [Ty.unit, shared (known (did - 10))], [.returning], [], 0⟩ else none
  resolve := fun did args => match did, args with
    | 7, [.adt concrete []] => some ⟨.item, concrete + 10, []⟩
    | 7, args => some ⟨.virtual, 7, args⟩
    | did, args => some ⟨.item, did, args⟩}

def dispatchingBody : Body :=
  {traitBody with basicBlocks := [⟨made, .other [1]⟩, ⟨[], .other [2, 3]⟩, ⟨remade, .other [1]⟩,
    ⟨[], .call (.constant (.fnDef 7 [object])) [.copy (.fromLocal 3)] .returnPlace (some 1) none⟩]}

def dispatching : Collector := ⟨[], [], .function ⟨.item, 0, []⟩ ⟨[]⟩, dispatchingBody, false⟩

theorem remadeFresh : afterRemade.UpToDate dispatchingBody (.fromLocal 3) := by
  have held : afterRemade.read dispatchingBody (.fromLocal 3) = some (shared (known 2)) := rfl
  exact gaveFresh held ⟨.fromLocal 3, shared (known 2), [], by decide, rfl, rfl⟩

theorem remadeDispatches : afterRemade.Dispatches implementedCrate dispatchingBody 7 [object]
    [.copy (.fromLocal 3)] ⟨.item, 12, []⟩ := by
  refine ⟨Nat.one_pos, [known 2], rfl, rfl, ?_⟩
  intro i ty at_
  cases i with
  | zero =>
    cases Option.some.inj at_
    exact ⟨by decide, 0, .ref 0 (.param 0) .not, shared (known 2), .copy (.fromLocal 3), 0, [.deref], rfl, rfl, rfl,
      .hidden rfl rfl rfl remadeFresh rfl, rfl⟩
  | succ i => cases at_

end Borrows
end Scrutinizer
