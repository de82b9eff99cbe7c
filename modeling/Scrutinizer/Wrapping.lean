import Mathlib.Data.Finset.Max
import Scrutinizer.DerivedStates
import Scrutinizer.PlainCrate

/-! Crates whose functions take the address of a local and cast the pointer back to a pointer to
a trait object. The rules of the analysis wrap each type that the local has once more. -/
namespace Scrutinizer
open CollectorDomain

def pointer (ty : Ty) : Ty := .rawPtr ty .not

def objectPtr : Ty := pointer (.dynamic 9 [])

def objectSig : SigTy := .rawPtr (.dynamic 9 [] 0) .not

/- `wrapped = &raw const source; target = wrapped as *const dyn Trait` -/
def wrapInto (source wrapped target : Nat) : List Statement :=
  [.assign (.fromLocal wrapped) (.addressOf .not (.fromLocal source)),
    .assign (.fromLocal target) (.cast .unsize (.copy (.fromLocal wrapped)) objectPtr)]

noncomputable def localsCrate (bodies : DefId → Option Body) (inputs : DefId → List SigTy)
    (order : HashOrder Ty) : TyCtxt :=
  {TyCtxt.plain order with
    loadBodyAndFacts := bodies
    fnSig := fun did => ⟨inputs did, .unit⟩
    allPlaces := fun _ body => body.localDecls.zipIdx.flatMap (fun decl =>
      .fromLocal decl.2 :: if decl.1.isRef then [(Place.fromLocal decl.2).extend [.deref]] else [])
    interiorPaths := fun _ _ place => [place]}

section
variable {bodies : DefId → Option Body} {inputs : DefId → List SigTy} {order : HashOrder Ty} {body : Body}
  {defId : DefId} {state : CollectorDomain} {idx : Nat} {deps more : Finset Ty}

theorem localPaths {decl : Ty} (declared : body.localDecls[idx]? = some decl)
    (plain : ∀ ty ∈ deps, ty.isRef = false) :
    transformedPaths (localsCrate bodies inputs order) body defId (.fromLocal idx) (.erased deps) =
      .ok [(.fromLocal idx, .erased deps)] := by
  have typed : Place.ty (localsCrate bodies inputs order) body (.fromLocal idx) = .ok ⟨decl, none⟩ := by
    simp [Place.ty, Place.fromLocal, declared, orMissing, projectAll, PlaceTy.fromTy, bind, Except.bind,
      pure, Except.pure]
  have noReferent : ((TrackedTy.erased deps).intoVec order).any Ty.isRef = false := by
    rw [List.any_eq_false]
    intro ty mem
    rw [TrackedTy.memIntoVec] at mem
    simp [plain ty mem]
  have crate : (localsCrate bodies inputs order).hashOrder = order := rfl
  have listed : propagationPaths (localsCrate bodies inputs order) body defId (.fromLocal idx)
      (.erased deps) = [.fromLocal idx] := by
    rw [propagationPaths, crate, noReferent]
    rfl
  have itself : ∀ ty, projectTail (localsCrate bodies inputs order) body (.fromLocal idx) (.fromLocal idx) ty =
      .ok ty := by
    intro ty
    rw [projectTail, typed]
    rfl
  have each : (order.iter deps).mapM
      (projectTail (localsCrate bodies inputs order) body (.fromLocal idx) (.fromLocal idx)) =
        .ok (order.iter deps) :=
    MapM.okIff.mpr (List.forall₂_same.mpr (fun ty _ => itself ty))
  have all : (order.iter deps).toFinset = deps := by
    ext ty
    rw [List.mem_toFinset, order.mem]
  have kept : (TrackedTy.erased deps).tryMap order
      (projectTail (localsCrate bodies inputs order) body (.fromLocal idx) (.fromLocal idx)) =
        .ok (.erased deps) := by
    simp only [TrackedTy.tryMap, each, bind, Except.bind, all]
  rw [transformedPaths, listed]
  simp only [List.mapM_cons, List.mapM_nil, crate, kept, bind, Except.bind, pure, Except.pure]

theorem localInject {decl : Ty} {places : PlaceMap} (declared : body.localDecls[idx]? = some decl)
    (held : places.get (.fromLocal idx) = some (.erased deps)) (plain : ∀ ty ∈ more, ty.isRef = false) :
    ∃ out, inject (localsCrate bodies inputs order) body defId places (.fromLocal idx) (.erased more) = .ok out ∧
      out.get (.fromLocal idx) = some (.erased (deps ∪ more)) ∧
      ∀ p, p ≠ .fromLocal idx → out.get p = places.get p := by
  have paths := @localPaths bodies inputs order body defId idx more decl declared plain
  have inserted : (places.modifyOrInsert (.fromLocal idx) (fun old => (old.join (.erased more)).1)
      (.erased more)).get (.fromLocal idx) = some (.erased (deps ∪ more)) := by
    rw [HashMap.getModifyOrInsert, if_pos rfl, held]
    rfl
  have again : ((TrackedTy.erased (deps ∪ more)).join (.erased more)).1 = .erased (deps ∪ more) := by
    rw [TrackedTy.joinErased]
    simp [TrackedTy.types, Finset.union_assoc]
  refine ⟨(places.modifyOrInsert (.fromLocal idx) (fun old => (old.join (.erased more)).1)
    (.erased more)).insert (.fromLocal idx) (.erased (deps ∪ more)), ?_, ?_, ?_⟩
  · simp only [inject, propagate, paths, joinAll, List.foldlM_cons, List.foldlM_nil, joinAt, inserted, again,
      orMissing, bind, Except.bind, pure, Except.pure]
  · rw [HashMap.getInsert, if_pos rfl]
  · intro p other
    rw [HashMap.getInsert, if_neg other, HashMap.getModifyOrInsert, if_neg other]

theorem localUpdate {decl : Ty} (declared : body.localDecls[idx]? = some decl)
    (held : state.get (.fromLocal idx) = some (.erased deps)) (plain : ∀ ty ∈ deps ∪ more, ty.isRef = false) :
    ∃ out, state.updateWith (localsCrate bodies inputs order) body defId (.fromLocal idx) (.erased more) = .ok out ∧
      out.get (.fromLocal idx) = some (.erased (deps ∪ more)) ∧
      (∀ p, p ≠ .fromLocal idx → out.get p = state.get p) ∧ out.calls = state.calls := by
  have spread : ((TrackedTy.erased deps).join (.erased more)).1 = .erased (deps ∪ more) :=
    TrackedTy.joinErased deps (.erased more)
  have paths := @localPaths bodies inputs order body defId idx (deps ∪ more) decl declared plain
  have inserted : (state.places.insert (.fromLocal idx) (.erased (deps ∪ more))).get (.fromLocal idx) =
      some (.erased (deps ∪ more)) := by
    rw [HashMap.getInsert, if_pos rfl]
  have known : state.places.get (.fromLocal idx) = some (.erased deps) := held
  refine ⟨⟨(state.places.insert (.fromLocal idx) (.erased (deps ∪ more))).insert (.fromLocal idx)
    (.erased (deps ∪ more)), state.calls, state.unhandled⟩, ?_, ?_, ?_, rfl⟩
  · have again : ((TrackedTy.erased (deps ∪ more)).join (.erased (deps ∪ more))).1 =
        .erased (deps ∪ more) := TrackedTy.joinSelf _
    simp only [updateWith, known, orMissing, spread, propagate, paths, joinAll, List.foldlM_cons,
      List.foldlM_nil, joinAt, inserted, again, bind, Except.bind, pure, Except.pure]
  · rw [CollectorDomain.get, HashMap.getInsert, if_pos rfl]
  · intro p other
    rw [CollectorDomain.get, HashMap.getInsert, if_neg other, HashMap.getInsert, if_neg other]
    rfl

end

def Pointers (deps : Finset Ty) : Prop := ∀ ty ∈ deps, ∃ inner, ty = pointer inner

theorem pointersUnion {deps more : Finset Ty} (h : Pointers deps) (h' : Pointers more) :
    Pointers (deps ∪ more) :=
  fun ty mem => (Finset.mem_union.mp mem).elim (h ty) (h' ty)

theorem pointersWrapped (deps : Finset Ty) : Pointers (deps.image pointer) := by
  intro ty mem
  obtain ⟨inner, _, rfl⟩ := Finset.mem_image.mp mem
  exact ⟨inner, rfl⟩

theorem wrappedEscapes {deps : Finset Ty} (nonempty : deps.Nonempty) : ¬ deps.image pointer ⊆ deps := by
  intro closed
  obtain ⟨largest, mem, bounds⟩ := deps.exists_max_image sizeOf nonempty
  have more := bounds (pointer largest) (closed (Finset.mem_image_of_mem pointer mem))
  simp only [pointer, Ty.rawPtr.sizeOf_spec] at more
  omega

namespace Collector

section
variable {bodies : DefId → Option Body} {inputs : DefId → List SigTy} {order : HashOrder Ty} {c : Collector}
  {s : Session}
  {state : CollectorDomain} {source wrapped target idx : Nat} {deps more kept : Finset Ty}

theorem assignLocal {decl : Ty} {rvalue : Rvalue} (declared : c.substitutedBody.localDecls[idx]? = some decl)
    (held : state.get (.fromLocal idx) = some (.erased deps)) (pointers : Pointers (deps ∪ more))
    (known : rvalue.trackedTy (localsCrate bodies inputs order) c.substitutedBody c.currentFunction.inst state
      s.closures = some (.erased more, s.closures)) :
    ∃ out, applyStatementEffect (localsCrate bodies inputs order) c state (.assign (.fromLocal idx) rvalue) s =
        (some out, s) ∧
      out.get (.fromLocal idx) = some (.erased (deps ∪ more)) ∧
      (∀ p, p ≠ .fromLocal idx → out.get p = state.get p) ∧ out.calls = state.calls := by
  have plain : ∀ ty ∈ deps ∪ more, ty.isRef = false := by
    intro ty mem
    obtain ⟨inner, rfl⟩ := pointers ty mem
    rfl
  obtain ⟨out, updated, here, others, calls⟩ :=
    @localUpdate bodies inputs order c.substitutedBody c.defId state idx deps more decl declared held plain
  refine ⟨out, ?_, here, others, calls⟩
  have fixed : (localsCrate bodies inputs order).normalize c.defId (.fromLocal idx) = .fromLocal idx := rfl
  simp only [applyStatementEffect, bind, Exec.get, Exec.lift, Exec.modify, known, fixed, updated,
    Except.toOption, Session.setClosures]

theorem wrapLocal {decl : Ty} (declared : c.substitutedBody.localDecls[wrapped]? = some decl)
    {decl' : Ty} (declared' : c.substitutedBody.localDecls[target]? = some decl')
    (apart : wrapped ≠ target)
    (hs : state.get (.fromLocal source) = some (.erased deps))
    (hw : state.get (.fromLocal wrapped) = some (.erased kept)) (pointers : Pointers kept)
    (ht : state.get (.fromLocal target) = some (.erased more)) (pointers' : Pointers more) :
    ∃ out, (wrapInto source wrapped target).foldlM
        (applyStatementEffect (localsCrate bodies inputs order) c) state s = (some out, s) ∧
      out.get (.fromLocal wrapped) = some (.erased (kept ∪ deps.image pointer)) ∧
      out.get (.fromLocal target) = some (.erased (more ∪ (kept ∪ deps.image pointer))) ∧
      (∀ p, p ≠ .fromLocal wrapped → p ≠ .fromLocal target → out.get p = state.get p) ∧
      out.calls = state.calls := by
  have both := pointersUnion pointers (pointersWrapped deps)
  have address : (Rvalue.addressOf .not (.fromLocal source)).trackedTy (localsCrate bodies inputs order)
      c.substitutedBody c.currentFunction.inst state s.closures =
        some (.erased (deps.image pointer), s.closures) := by
    have fixed : (localsCrate bodies inputs order).normalize c.currentFunction.inst.defId (.fromLocal source) =
      .fromLocal source := rfl
    simp only [Rvalue.trackedTy, Place.trackedTy, fixed, hs, bind, Option.bind_some, TrackedTy.map]
    rfl
  obtain ⟨mid, first, midWrapped, midOthers, midCalls⟩ := assignLocal declared hw both address
  have localNe : ∀ {a b : Nat}, a ≠ b → Place.fromLocal a ≠ .fromLocal b :=
    fun other same => other (congrArg Place.base same)
  have cast : (Rvalue.cast .unsize (.copy (.fromLocal wrapped)) objectPtr).trackedTy
      (localsCrate bodies inputs order) c.substitutedBody c.currentFunction.inst mid s.closures =
        some (.erased (kept ∪ deps.image pointer), s.closures) := by
    have fixed : (localsCrate bodies inputs order).normalize c.currentFunction.inst.defId (.fromLocal wrapped) =
      .fromLocal wrapped := rfl
    simp only [Rvalue.trackedTy, Operand.trackedTy, Place.trackedTy, fixed, midWrapped, bind,
      Option.bind_some, castTrackedTy]
  have midTarget : mid.get (.fromLocal target) = some (.erased more) :=
    (midOthers _ (localNe apart.symm)).trans ht
  obtain ⟨out, second, outTarget, outOthers, outCalls⟩ :=
    assignLocal declared' midTarget (pointersUnion pointers' both) cast
  refine ⟨out, ?_, ?_, outTarget, ?_, outCalls.trans midCalls⟩
  · simp only [wrapInto, List.foldlM_cons, List.foldlM_nil, bind, first, second]
    rfl
  · rw [outOthers _ (localNe apart), midWrapped]
  · intro p other other'
    rw [outOthers p other', midOthers p other]

end
end Collector
end Scrutinizer
