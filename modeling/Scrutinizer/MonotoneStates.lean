import Scrutinizer.DerivedStates
import Scrutinizer.Library.Chain
import Scrutinizer.Library.Coupled
import Scrutinizer.PlainCrate

/-! The effects of a block are monotone: from a state with more types at its places they lead to
one with more types, wherever both have a result. -/
namespace Scrutinizer

namespace TrackedTy

def Le (a b : TrackedTy) : Prop := a.form = b.form ∧ a.types ⊆ b.types

section
variable {a b a' b' : TrackedTy}

theorem Le.refl (a : TrackedTy) : a.Le a := ⟨rfl, Finset.Subset.refl _⟩

theorem Le.cases (h : a.Le b) : (∃ ty, a = .present ty ∧ b = .present ty) ∨
    ∃ deps deps', a = .erased deps ∧ b = .erased deps' ∧ deps ⊆ deps' := by
  obtain ⟨form, types⟩ := h
  cases a with
  | present ty =>
    cases b with
    | present ty' => exact .inl ⟨ty, rfl, congrArg present (Option.some.inj form).symm⟩
    | erased deps => cases form
  | erased deps =>
    cases b with
    | present ty => cases form
    | erased deps' => exact .inr ⟨deps, deps', rfl, rfl, types⟩

theorem Le.map (h : a.Le b) (lambda : Ty → Ty) : (a.map lambda).Le (b.map lambda) := by
  obtain ⟨ty, rfl, rfl⟩ | ⟨deps, deps', rfl, rfl, sub⟩ := h.cases
  · exact .refl _
  · exact ⟨rfl, Finset.image_subset_image sub⟩

theorem Le.join (h : a.Le b) (h' : a'.Le b') : (a.join a').1.Le (b.join b').1 := by
  obtain ⟨ty, rfl, rfl⟩ | ⟨deps, deps', rfl, rfl, sub⟩ := h.cases
  · exact .refl _
  · rw [joinErased, joinErased]
    exact ⟨rfl, Finset.union_subset_union sub h'.2⟩

theorem Le.isPresent (h : a.Le b) : a.isPresent = b.isPresent := by
  obtain ⟨ty, rfl, rfl⟩ | ⟨deps, deps', rfl, rfl, _⟩ := h.cases <;> rfl

end

theorem leAllPresent {as bs : List TrackedTy} (h : List.Forall₂ Le as bs)
    (all : as.all isPresent = true) : as = bs := by
  induction h with
  | nil => rfl
  | cons first rest ih =>
    simp only [List.all_cons, Bool.and_eq_true] at all
    obtain ⟨ty, rfl, rfl⟩ | ⟨deps, _, rfl, _, _⟩ := first.cases
    · rw [ih all.2]
    · cases all.1

theorem leSomeErased {as bs : List TrackedTy} (h : List.Forall₂ Le as bs) :
    as.all isPresent = bs.all isPresent := by
  induction h with
  | nil => rfl
  | cons first rest ih => rw [List.all_cons, List.all_cons, first.isPresent, ih]

end TrackedTy

theorem picksLe (order : HashOrder Ty) {as bs : List TrackedTy} (h : List.Forall₂ TrackedTy.Le as bs) :
    ∀ {picked : List Ty},
      List.Forall₂ (fun c options => c ∈ options) picked (as.map (TrackedTy.intoVec order)) →
      List.Forall₂ (fun c options => c ∈ options) picked (bs.map (TrackedTy.intoVec order)) := by
  induction h with
  | nil => exact fun each => each
  | cons first rest ih =>
    intro picked each
    obtain ⟨c, tail, mem, further, rfl⟩ := List.forall₂_cons_right_iff.mp each
    rw [TrackedTy.memIntoVec] at mem
    exact .cons ((TrackedTy.memIntoVec order _ _).mpr (first.2 mem)) (ih further)

theorem tupleLe (order : HashOrder Ty) {as bs : List TrackedTy} (h : List.Forall₂ TrackedTy.Le as bs) :
    (tupleTrackedTy order as).Le (tupleTrackedTy order bs) := by
  unfold tupleTrackedTy
  rw [← TrackedTy.leSomeErased h]
  split
  · rename_i all
    rw [TrackedTy.leAllPresent h all]
    exact .refl _
  · refine ⟨rfl, ?_⟩
    intro ty made
    simp only [TrackedTy.types, List.mem_toFinset, List.mem_map, memProduct] at made ⊢
    obtain ⟨picked, ⟨nonempty, each⟩, rfl⟩ := made
    refine ⟨picked, ⟨?_, ?_⟩, rfl⟩
    · intro none_
      cases h with
      | nil => exact nonempty rfl
      | cons first rest => cases none_
    · exact picksLe order h each

theorem castLe {a b : TrackedTy} (h : a.Le b) (kind : CastKind) (ty : Ty) :
    (castTrackedTy kind a ty).Le (castTrackedTy kind b ty) := by
  unfold castTrackedTy
  split
  · exact .refl _
  · exact .refl _
  · split
    · exact h
    · exact .refl _
  · exact h

theorem binOpLe {op : BinOp} {lhs lhs' rhs rhs' ty ty' : TrackedTy} (h : lhs.Le lhs')
    (ok : binOpTrackedTy op lhs rhs = some ty) (ok' : binOpTrackedTy op lhs' rhs' = some ty') :
    ty.Le ty' := by
  unfold binOpTrackedTy at ok ok'
  split at ok
  all_goals
    simp only [Option.ite_none_right_eq_some, Option.some.injEq] at ok ok'
  all_goals grind [TrackedTy.Le.refl]

namespace CollectorDomain

theorem KeptBy.refl (s : CollectorDomain) : s.KeptBy s :=
  ⟨fun _ tracked known => ⟨tracked, known, Finset.Subset.refl _⟩, Finset.Subset.refl _,
    Finset.Subset.refl _⟩

theorem KeptBy.trans {s t u : CollectorDomain} (h : s.KeptBy t) (h' : t.KeptBy u) : s.KeptBy u := by
  refine ⟨?_, h.calls.trans h'.calls, h.unhandled.trans h'.unhandled⟩
  intro p tracked known
  obtain ⟨mid, hm, sub⟩ := h.places p tracked known
  obtain ⟨kept, hk, sub'⟩ := h'.places p mid hm
  exact ⟨kept, hk, sub.trans sub'⟩

def Below (s t : CollectorDomain) : Prop := s.SameForm t ∧ s.KeptBy t

section
variable {tcx : TyCtxt} {body : Body} {defId : DefId} {inst : Instance} {s t s' t' : CollectorDomain}

theorem Below.get (h : s.Below t) (p : Place) : (s.get p = none ∧ t.get p = none) ∨
    ∃ a b, s.get p = some a ∧ t.get p = some b ∧ a.Le b := by
  cases known : s.get p with
  | none =>
    have form := h.1 p
    rw [known] at form
    exact .inl ⟨rfl, Option.map_eq_none_iff.mp form.symm⟩
  | some a =>
    obtain ⟨b, hb, types⟩ := h.2.places p a known
    have form := h.1 p
    rw [known, hb] at form
    exact .inr ⟨a, b, rfl, hb, Option.some.inj form, types⟩

theorem placeLe (h : s.Below t) {place : Place} {a b : TrackedTy}
    (ok : place.trackedTy tcx body inst s = some a) (ok' : place.trackedTy tcx body inst t = some b) :
    a.Le b := by
  unfold Place.trackedTy at ok ok'
  obtain ⟨hs, ht⟩ | ⟨x, y, hs, ht, le⟩ := h.get (tcx.normalize inst.defId place)
  · rw [hs] at ok
    rw [ht] at ok'
    cases Option.some.inj (ok.symm.trans ok')
    exact .refl _
  · rw [hs] at ok
    rw [ht] at ok'
    cases Option.some.inj ok
    cases Option.some.inj ok'
    exact le

theorem operandLe (h : s.Below t) {operand : Operand} {a b : TrackedTy}
    (ok : operand.trackedTy tcx body inst s = some a) (ok' : operand.trackedTy tcx body inst t = some b) :
    a.Le b := by
  cases operand with
  | copy place | move place => exact placeLe h ok ok'
  | constant ty =>
    cases Option.some.inj (ok.symm.trans ok')
    exact .refl _

theorem operandsLe (h : s.Below t) {ops : List Operand} : ∀ {as bs : List TrackedTy},
    ops.mapM (Operand.trackedTy tcx body inst s) = some as →
    ops.mapM (Operand.trackedTy tcx body inst t) = some bs → List.Forall₂ TrackedTy.Le as bs := by
  intro as bs ok ok'
  have left := MapM.someIff.mp ok
  have right := MapM.someIff.mp ok'
  clear ok ok'
  induction left generalizing bs with
  | nil =>
    cases right
    exact .nil
  | cons first rest ih =>
    cases right with
    | cons first' rest' => exact .cons (operandLe h first first') (ih rest')

theorem rvalueLe (h : s.Below t) {rvalue : Rvalue} {a b : TrackedTy}
    {closures closures' after after' : ClosureInfoStorage}
    (ok : rvalue.trackedTy tcx body inst s closures = some (a, after))
    (ok' : rvalue.trackedTy tcx body inst t closures' = some (b, after')) : a.Le b := by
  cases rvalue with
  | aggregate kind ops =>
    cases kind with
    | tuple =>
      simp only [Rvalue.trackedTy, bind, Option.bind_eq_some_iff, Option.some.injEq, Prod.mk.injEq] at ok ok'
      obtain ⟨as, has, rfl, _⟩ := ok
      obtain ⟨bs, hbs, rfl, _⟩ := ok'
      exact tupleLe tcx.hashOrder (operandsLe h has hbs)
    | closure did substs =>
      simp only [Rvalue.trackedTy, bind, Option.bind_eq_some_iff, Option.some.injEq, Prod.mk.injEq] at ok ok'
      obtain ⟨_, _, _, _, rfl, _⟩ := ok
      obtain ⟨_, _, _, _, rfl, _⟩ := ok'
      exact .refl _
    | array ty =>
      cases (Prod.mk.inj (Option.some.inj ok)).1
      cases (Prod.mk.inj (Option.some.inj ok')).1
      exact .refl _
    | adt did variant args =>
      cases (Prod.mk.inj (Option.some.inj ok)).1
      cases (Prod.mk.inj (Option.some.inj ok')).1
      exact .refl _
    | generator did args => cases ok
  | useOperand operand | unaryOp operand =>
    simp only [Rvalue.trackedTy, bind, Option.bind_eq_some_iff, Option.some.injEq, Prod.mk.injEq] at ok ok'
    obtain ⟨_, known, rfl, _⟩ := ok
    obtain ⟨_, known', rfl, _⟩ := ok'
    exact operandLe h known known'
  | repeatOperand operand count =>
    simp only [Rvalue.trackedTy, bind, Option.bind_eq_some_iff, Option.some.injEq, Prod.mk.injEq] at ok ok'
    obtain ⟨_, known, rfl, _⟩ := ok
    obtain ⟨_, known', rfl, _⟩ := ok'
    exact (operandLe h known known').map _
  | cast kind operand ty =>
    simp only [Rvalue.trackedTy, bind, Option.bind_eq_some_iff, Option.some.injEq, Prod.mk.injEq] at ok ok'
    obtain ⟨_, known, rfl, _⟩ := ok
    obtain ⟨_, known', rfl, _⟩ := ok'
    exact castLe (operandLe h known known') kind ty
  | ref kind place | addressOf mutbl place | discriminant place =>
    simp only [Rvalue.trackedTy, bind, Option.bind_eq_some_iff, Option.some.injEq, Prod.mk.injEq] at ok ok'
    obtain ⟨_, known, rfl, _⟩ := ok
    obtain ⟨_, known', rfl, _⟩ := ok'
    exact (placeLe h known known').map _
  | copyForDeref place =>
    simp only [Rvalue.trackedTy, bind, Option.bind_eq_some_iff, Option.some.injEq, Prod.mk.injEq] at ok ok'
    obtain ⟨_, known, rfl, _⟩ := ok
    obtain ⟨_, known', rfl, _⟩ := ok'
    exact placeLe h known known'
  | binaryOp op lhs rhs =>
    simp only [Rvalue.trackedTy, bind, Option.bind_eq_some_iff, Option.some.injEq, Prod.mk.injEq] at ok ok'
    obtain ⟨_, left, _, _, _, made, rfl, _⟩ := ok
    obtain ⟨_, left', _, _, _, made', rfl, _⟩ := ok'
    exact binOpLe (operandLe h left left') made made'
  | checkedBinaryOp op lhs rhs =>
    simp only [Rvalue.trackedTy, bind, Option.bind_eq_some_iff, Option.some.injEq, Prod.mk.injEq] at ok ok'
    obtain ⟨_, left, _, _, _, made, rfl, _⟩ := ok
    obtain ⟨_, left', _, _, _, made', rfl, _⟩ := ok'
    exact (binOpLe (operandLe h left left') made made').map _
  | threadLocalRef did | len place | nullaryOp | shallowInitBox operand ty =>
    cases (Prod.mk.inj (Option.some.inj ok)).1
    cases (Prod.mk.inj (Option.some.inj ok')).1
    exact .refl _

theorem broughtFrom {place p : Place} {deps : Finset Ty} {paths : List (Place × TrackedTy)} {e : Ty}
    (h : transformedPaths tcx body defId place (.erased deps) = .ok paths)
    (brought : ∃ tracked ∈ broughtTo p paths, e ∈ tracked.types) :
    p ∈ propagationPaths tcx body defId place (.erased deps) ∧
      ∃ ty ∈ deps, projectTail tcx body place p ty = .ok e := by
  obtain ⟨tracked, arrived, inside⟩ := brought
  obtain ⟨mem, made⟩ := broughtMade h arrived
  obtain ⟨out, mapped, last⟩ := bindOk made
  cases Except.ok.inj last
  obtain ⟨ty, hty, projected⟩ := MapM.memRight (MapM.okIff.mp mapped) e (List.mem_toFinset.mp inside)
  exact ⟨mem, ty, (tcx.hashOrder.mem deps ty).mp hty, projected⟩

theorem pathsGrow {place : Place} {a b : TrackedTy} (h : a.Le b) :
    propagationPaths tcx body defId place a ⊆ propagationPaths tcx body defId place b := by
  intro p mem
  obtain ⟨q, listed, rfl⟩ := List.mem_map.mp mem
  refine List.mem_map.mpr ⟨q, ?_, rfl⟩
  cases List.mem_append.mp listed with
  | inl inner => exact List.mem_append_left _ inner
  | inr referent =>
    apply List.mem_append_right
    split at referent
    · rename_i some_
      obtain ⟨ty, inside, reference⟩ := List.any_eq_true.mp some_
      have there : (b.intoVec tcx.hashOrder).any Ty.isRef = true := by
        refine List.any_eq_true.mpr ⟨ty, ?_, reference⟩
        rw [TrackedTy.memIntoVec] at inside ⊢
        exact h.2 inside
      rw [if_pos there]
      exact referent
    · cases referent

theorem updateLe (h : s.Below t) {place : Place} {a b : TrackedTy} (le : a.Le b)
    (ok : s.updateWith tcx body defId place a = .ok s')
    (ok' : t.updateWith tcx body defId place b = .ok t') : s'.Below t' := by
  have form : s'.SameForm t' := (formUpdated ok).trans (h.1.trans (formUpdated ok').symm)
  obtain ⟨calls, unhandled⟩ := updateWithCalls ok
  obtain ⟨calls', unhandled'⟩ := updateWithCalls ok'
  refine ⟨form, ?_, by rw [calls, calls']; exact h.2.calls, by rw [unhandled, unhandled']; exact h.2.unhandled⟩
  obtain ⟨old, paths, hold, hp, after⟩ := updateWithGet ok
  obtain ⟨old', paths', hold', hp', after'⟩ := updateWithGet ok'
  have spread : (old.join a).1.Le (old'.join b).1 := by
    obtain ⟨none_, _⟩ | ⟨x, y, hx, hy, sub⟩ := h.get place
    · exact absurd (none_.symm.trans hold) (by simp)
    · cases Option.some.inj (hx.symm.trans hold)
      cases Option.some.inj (hy.symm.trans hold')
      exact sub.join le
  intro p tracked known
  rw [get, after p] at known
  obtain ⟨before, hb, rfl⟩ := Option.map_eq_some_iff.mp known
  obtain ⟨none_, _⟩ | ⟨x, y, hx, hy, sub⟩ := h.get p
  · exact absurd (none_.symm.trans hb) (by simp)
  cases Option.some.inj (hx.symm.trans hb)
  refine ⟨_, by rw [get, after' p, show t.places.get p = some y from hy]; rfl, ?_⟩
  obtain ⟨ty, rfl, rfl⟩ | ⟨deps, deps', rfl, rfl, inside⟩ := sub.cases
  · simp
  · -- the place collects what is joined into it and what is brought to it
    have here : ∀ deps tracked, (if p = place then ((TrackedTy.erased deps).join tracked).1 else .erased deps) =
        TrackedTy.erased (if p = place then deps ∪ tracked.types else deps) := by
      intro deps tracked
      split
      · exact TrackedTy.joinErased deps tracked
      · rfl
    simp only [here, TrackedTy.joinManyErased, TrackedTy.types]
    apply Finset.union_subset_union
    · split
      · exact Finset.union_subset_union inside le.2
      · exact inside
    · intro e mem
      simp only [Finset.mem_biUnion, List.mem_toFinset] at mem ⊢
      obtain ⟨ty, hty, hty'⟩ | ⟨some_, more, hs, hm, wider⟩ := spread.cases
      · rw [hty] at hp
        rw [hty'] at hp'
        cases Except.ok.inj (hp.symm.trans hp')
        exact mem
      · rw [hs] at hp
        rw [hm] at hp'
        obtain ⟨listed, ty, held, projected⟩ := broughtFrom hp mem
        have grown : TrackedTy.Le (.erased some_) (.erased more) := ⟨rfl, wider⟩
        exact broughtIn hp' (pathsGrow grown listed) (wider held) projected

theorem updateKept {place : Place} {tracked : TrackedTy}
    (ok : s.updateWith tcx body defId place tracked = .ok s') : s.KeptBy s' := by
  obtain ⟨calls, unhandled⟩ := updateWithCalls ok
  refine ⟨?_, calls ▸ Finset.Subset.refl _, unhandled ▸ Finset.Subset.refl _⟩
  intro p before known
  obtain ⟨old, paths, _, _, after⟩ := updateWithGet ok
  have here := after p
  rw [show s.places.get p = some before from known] at here
  refine ⟨_, here, Finset.Subset.trans ?_ (TrackedTy.joinManyGrows _ _)⟩
  split
  · exact TrackedTy.joinGrows before tracked
  · exact Finset.Subset.refl _

structure Ordered (s t : CollectorDomain) : Prop where
  variants : ∀ p, (s.get p).map TrackedTy.isPresent = (t.get p).map TrackedTy.isPresent
  erased : ∀ p deps deps', s.get p = some (.erased deps) → t.get p = some (.erased deps') → deps ⊆ deps'
  calls : s.calls ⊆ t.calls
  unhandled : s.unhandled ⊆ t.unhandled

theorem Below.ordered (h : s.Below t) : s.Ordered t := by
  refine ⟨?_, ?_, h.2.calls, h.2.unhandled⟩
  · intro p
    obtain ⟨hs, ht⟩ | ⟨a, b, hs, ht, le⟩ := h.get p
    · rw [hs, ht]
    · rw [hs, ht, Option.map_some, Option.map_some, le.isPresent]
  · intro p deps deps' hs ht
    obtain ⟨none_, _⟩ | ⟨a, b, ha, hb, le⟩ := h.get p
    · cases none_.symm.trans hs
    · cases Option.some.inj (ha.symm.trans hs)
      cases Option.some.inj (hb.symm.trans ht)
      exact le.2

/- States of one form have the same types at a `present`, so there the order says it all. -/
theorem Ordered.below (h : s.Ordered t) (form : s.SameForm t) : s.Below t := by
  refine ⟨form, ?_, h.calls, h.unhandled⟩
  intro p tracked known
  obtain ⟨kept, hk, same⟩ := form.symm.found known
  refine ⟨kept, hk, ?_⟩
  cases tracked with
  | present ty =>
    cases kept with
    | present ty' =>
      cases Option.some.inj same
      exact Finset.Subset.refl _
    | erased deps => cases same
  | erased deps =>
    cases kept with
    | present ty => cases same
    | erased deps' => exact h.erased p deps deps' known hk

end
end CollectorDomain

namespace Collector
open CollectorDomain

section
variable {tcx : TyCtxt} {descend : Collector → Exec Session CollectorDomain} {c : Collector}
  {s t s' t' : Session} {a b a' b' : CollectorDomain}

theorem assignRan {place : Place} {rvalue : Rvalue}
    (ran : applyStatementEffect tcx c a (.assign place rvalue) s = (some a', s')) :
    ∃ ty closures, rvalue.trackedTy tcx c.substitutedBody c.currentFunction.inst a s.closures =
        some (ty, closures) ∧
      a.updateWith tcx c.substitutedBody c.defId (tcx.normalize c.defId place) ty = .ok a' := by
  have post : Exec.wp (applyStatementEffect tcx c a (.assign place rvalue))
      (fun out _ => ∃ ty closures,
        rvalue.trackedTy tcx c.substitutedBody c.currentFunction.inst a s.closures =
          some (ty, closures) ∧
        a.updateWith tcx c.substitutedBody c.defId (tcx.normalize c.defId place) ty = .ok out)
      (fun _ => True) s := by
    simp only [applyStatementEffect, Exec.wpBind, Exec.wpGet, Exec.wpLift, Exec.wpModify,
      Exec.toOptionSome, implies_true, and_true]
    intro tracked known out made
    exact ⟨tracked.1, tracked.2, known, made⟩
  exact Exec.wpResult post ran

theorem statementLe (h : a.Below b) {statement : Statement}
    (ok : applyStatementEffect tcx c a statement s = (some a', s'))
    (ok' : applyStatementEffect tcx c b statement t = (some b', t')) : a'.Below b' := by
  cases statement with
  | other =>
    cases ok
    cases ok'
    exact h
  | assign place rvalue =>
    obtain ⟨ty, _, known, made⟩ := assignRan ok
    obtain ⟨ty', _, known', made'⟩ := assignRan ok'
    exact updateLe h (rvalueLe h known known') made made'

theorem statementOrdered {bottom bottom' : CollectorDomain} (start : bottom.SameForm bottom')
    (reached : Derived tcx c.substitutedBody c.defId bottom a)
    (reached' : Derived tcx c.substitutedBody c.defId bottom' b) (order : a.Ordered b)
    {place : Place} {rvalue : Rvalue}
    (ok : applyStatementEffect tcx c a (.assign place rvalue) s = (some a', s'))
    (ok' : applyStatementEffect tcx c b (.assign place rvalue) t = (some b', t')) :
    a.Ordered a' ∧ a'.Ordered b' := by
  have form : a.SameForm b := reached.form.trans (start.trans reached'.form.symm)
  obtain ⟨_, _, _, updated⟩ := assignRan ok
  have grown : a.Below a' := ⟨(formUpdated updated).symm, updateKept updated⟩
  exact ⟨grown.ordered, (statementLe (order.below form) ok ok').ordered⟩

end

noncomputable def pointerCrate : TyCtxt := .plain (.listed [Ty.usize, Ty.bool] (by decide))

def pointerHolder : Collector :=
  ⟨[], [], .function ⟨.item, 0, []⟩ ⟨[]⟩, ⟨0, [Ty.unit, .rawPtr Ty.usize .not], [], [], 0⟩, false⟩

def pointerBottom : CollectorDomain := .new (.fromIter [(.fromLocal 1, .erased ∅)])

theorem pointerOrdered : ∃ larger a b s t,
    pointerBottom.updateWith pointerCrate pointerHolder.substitutedBody 0 (.fromLocal 1) (.present Ty.usize) =
      .ok larger ∧
    applyStatementEffect pointerCrate pointerHolder pointerBottom
      (.assign (.fromLocal 1) (.useOperand (.constant Ty.bool))) (startSession ⟨.item, 0, []⟩) = (some a, s) ∧
    applyStatementEffect pointerCrate pointerHolder larger
      (.assign (.fromLocal 1) (.useOperand (.constant Ty.bool))) (startSession ⟨.item, 0, []⟩) = (some b, t) ∧
    pointerBottom.Ordered a ∧ a.Ordered b := by
  have enlarged : (pointerBottom.updateWith pointerCrate pointerHolder.substitutedBody 0 (.fromLocal 1)
      (.present Ty.usize)).toOption.isSome = true := by decide +kernel
  obtain ⟨larger, made⟩ := Option.isSome_iff_exists.mp enlarged
  have first : (applyStatementEffect pointerCrate pointerHolder pointerBottom
      (.assign (.fromLocal 1) (.useOperand (.constant Ty.bool))) (startSession ⟨.item, 0, []⟩)).1.isSome = true := by
    decide +kernel
  obtain ⟨a, ranFirst⟩ := Option.isSome_iff_exists.mp first
  have second : ((pointerBottom.updateWith pointerCrate pointerHolder.substitutedBody 0 (.fromLocal 1)
      (.present Ty.usize)).toOption.bind (fun larger => (applyStatementEffect pointerCrate pointerHolder larger
        (.assign (.fromLocal 1) (.useOperand (.constant Ty.bool))) (startSession ⟨.item, 0, []⟩)).1)).isSome =
      true := by
    decide +kernel
  rw [made, Option.bind_some] at second
  obtain ⟨b, ranSecond⟩ := Option.isSome_iff_exists.mp second
  have ok := Exec.toOptionSome.mp made
  have below : pointerBottom.Below larger := ⟨(formUpdated ok).symm, updateKept ok⟩
  exact ⟨larger, a, b, _, _, ok, Prod.ext ranFirst rfl, Prod.ext ranSecond rfl,
    statementOrdered (.refl _) .bottom (Derived.bottom.updateWith ok) below.ordered
      (Prod.ext ranFirst rfl) (Prod.ext ranSecond rfl)⟩

section
variable {tcx : TyCtxt} {descend : Collector → Exec Session CollectorDomain} {c : Collector}
  {s t s' t' : Session} {a b a' b' : CollectorDomain}

theorem statementsLe {statements : List Statement} : ∀ {a b a' b' : CollectorDomain} {s t s' t' : Session},
    a.Below b → statements.foldlM (applyStatementEffect tcx c) a s = (some a', s') →
      statements.foldlM (applyStatementEffect tcx c) b t = (some b', t') → a'.Below b' := by
  induction statements with
  | nil =>
    intro a b a' b' s t s' t' h ok ok'
    cases ok
    cases ok'
    exact h
  | cons statement rest ih =>
    intro a b a' b' s t s' t' h ok ok'
    rw [List.foldlM_cons] at ok ok'
    obtain ⟨mid, u, first, later⟩ := Exec.bindSome.mp ok
    obtain ⟨mid', u', first', later'⟩ := Exec.bindSome.mp ok'
    exact ih (statementLe h first first') later later'

def NoCalls (tcx : TyCtxt) (body : Body) : Prop :=
  ∀ data ∈ body.basicBlocks, ∀ functionTy, ¬ TakesFunction tcx body data.terminator functionTy

theorem terminatorIdle {data : BasicBlockData} (idle : NoCalls tcx c.substitutedBody)
    (mem : data ∈ c.substitutedBody.basicBlocks)
    (ok : applyTerminatorEffect tcx descend c a data.terminator s = (some a', s')) : a' = a := by
  have never := idle data mem
  cases kind : data.terminator with
  | call func args destination target unwind =>
    rw [kind] at ok never
    obtain ⟨functionTy, _, typed, _⟩ := Exec.bindSome.mp ok
    obtain ⟨known, _⟩ := Exec.liftSome.mp typed
    exact absurd (Exec.toOptionSome.mp known) (never functionTy)
  | drop place target unwind =>
    rw [kind] at ok never
    obtain ⟨placeTy, _, typed, further⟩ := Exec.bindSome.mp ok
    obtain ⟨known, rfl⟩ := Exec.liftSome.mp typed
    cases dropped : dropCallee tcx placeTy.ty with
    | some functionTy => exact absurd ⟨placeTy, Exec.toOptionSome.mp known, dropped⟩ (never functionTy)
    | none =>
      simp only [dropped] at further
      exact ((Exec.pureSome.mp further).1).symm
  | other targets =>
    rw [kind] at ok
    exact ((Exec.pureSome.mp ok).1).symm

theorem blockLe (idle : NoCalls tcx c.substitutedBody) (h : a.Below b) {bb : Nat}
    (ok : applyBlock tcx descend c bb a s = (some a', s'))
    (ok' : applyBlock tcx descend c bb b t = (some b', t')) : a'.Below b' := by
  obtain ⟨data, _, listed, ran⟩ := Exec.bindSome.mp ok
  obtain ⟨data', _, listed', ran'⟩ := Exec.bindSome.mp ok'
  obtain ⟨here, rfl⟩ := Exec.liftSome.mp listed
  obtain ⟨here', rfl⟩ := Exec.liftSome.mp listed'
  cases Option.some.inj (here.symm.trans here')
  obtain ⟨mid, _, first, last⟩ := Exec.bindSome.mp ran
  obtain ⟨mid', _, first', last'⟩ := Exec.bindSome.mp ran'
  have mem := List.mem_of_getElem? here
  rw [terminatorIdle idle mem last, terminatorIdle idle mem last']
  exact statementsLe h first first'

end
end Collector
end Scrutinizer
