import Scrutinizer.CollectorDomain

/-! How projections compose. The variant a projection ends in is fixed by its last step, so the way
to an inner place may be cut at any place on it. -/
namespace Scrutinizer

def PlaceElem.variant : PlaceElem → Option Nat
  | .downcast variant => some variant
  | _ => none

section
variable {tcx : TyCtxt} {body : Body}

theorem projectionVariant {placeTy out : PlaceTy} {elem : PlaceElem}
    (ok : projectionTy tcx placeTy elem = .ok out) : out.variantIndex = elem.variant := by
  have mapped : ∀ {found : Except ProjectError Ty}, found.map PlaceTy.fromTy = .ok out →
      out.variantIndex = none := by
    intro found made
    cases found with
    | error e => cases made
    | ok ty =>
      cases Except.ok.inj made
      rfl
  unfold projectionTy at ok
  split at ok
  · cases ok
  · rename_i unset
    cases elem with
    | deref => exact mapped ok
    | field idx => cases ok
    | index var => exact mapped ok
    | constantIndex offset fromEnd => exact mapped ok
    | subslice lo hi fromEnd =>
      simp only at ok
      split at ok
      · cases Except.ok.inj ok
        exact Option.not_isSome_iff_eq_none.mp unset
      · cases Except.ok.inj ok
        rfl
      · cases Except.ok.inj ok
        rfl
      · cases ok
    | downcast variant =>
      cases Except.ok.inj ok
      rfl
    | opaqueCast ty =>
      cases Except.ok.inj ok
      rfl

theorem refreshVariant {placeTy out : PlaceTy} {elem : PlaceElem}
    (ok : refreshAndProject tcx placeTy elem = .ok out) : out.variantIndex = elem.variant := by
  cases elem with
  | field idx =>
    simp only [refreshAndProject, bind] at ok
    split at ok
    · obtain ⟨_, _, ok⟩ := bindOk ok
      obtain ⟨_, _, last⟩ := bindOk ok
      cases Except.ok.inj last
      rfl
    · obtain ⟨_, _, last⟩ := bindOk ok
      cases Except.ok.inj last
      rfl
  | deref =>
    simp only [refreshAndProject] at ok
    split at ok
    · cases ok
    · exact projectionVariant ok
  | index var =>
    simp only [refreshAndProject] at ok
    split at ok
    · cases ok
    · exact projectionVariant ok
  | _ => exact @projectionVariant tcx _ _ _ ok

theorem projectAllAppend (placeTy : PlaceTy) (first second : List PlaceElem) :
    projectAll tcx placeTy (first ++ second) =
      (projectAll tcx placeTy first).bind (fun mid => projectAll tcx mid second) :=
  List.foldlM_append

theorem projectAllVariant {placeTy placeTy' out out' : PlaceTy} {elems : List PlaceElem}
    (start : placeTy.variantIndex = placeTy'.variantIndex) (ok : projectAll tcx placeTy elems = .ok out)
    (ok' : projectAll tcx placeTy' elems = .ok out') : out.variantIndex = out'.variantIndex := by
  induction elems generalizing placeTy placeTy' with
  | nil =>
    cases Except.ok.inj ok
    cases Except.ok.inj ok'
    exact start
  | cons elem rest ih =>
    simp only [projectAll, List.foldlM_cons, bind] at ok ok'
    obtain ⟨next, first, ok⟩ := bindOk ok
    obtain ⟨next', first', ok'⟩ := bindOk ok'
    exact ih ((refreshVariant first).trans (refreshVariant first').symm) ok ok'

theorem Place.tyExtend (p : Place) (path : List PlaceElem) :
    (p.extend path).ty tcx body = (p.ty tcx body).bind (fun placeTy => projectAll tcx placeTy path) := by
  simp only [Place.ty, Place.extend, bind]
  cases orMissing body.localDecls[p.base]? with
  | error e => rfl
  | ok decl => exact projectAllAppend _ _ _

end

namespace CollectorDomain
variable {tcx : TyCtxt} {body : Body}

theorem projectTailIff {place : Place} {path : List PlaceElem} {ty part : Ty} :
    projectTail tcx body place (place.extend path) ty = .ok part ↔ ∃ placeTy out,
      place.ty tcx body = .ok placeTy ∧ projectAll tcx ⟨ty,placeTy.variantIndex⟩ path = .ok out ∧
        out.ty = part := by
  simp only [projectTail, Place.extend, List.drop_left, bind]
  constructor
  · intro ok
    obtain ⟨placeTy, typed, ok⟩ := bindOk ok
    obtain ⟨out, projected, last⟩ := bindOk ok
    exact ⟨placeTy, out, typed, projected, Except.ok.inj last⟩
  · rintro ⟨placeTy, out, typed, projected, rfl⟩
    simp only [typed, projected, Except.bind]

theorem projectTailInside {place : Place} {first second : List PlaceElem} {ty mid part : Ty}
    {midTy : PlaceTy} (typed : (place.extend first).ty tcx body = .ok midTy)
    (outer : projectTail tcx body place (place.extend first) ty = .ok mid)
    (whole : projectTail tcx body place (place.extend (first ++ second)) ty = .ok part) :
    projectTail tcx body (place.extend first) ((place.extend first).extend second) mid = .ok part := by
  obtain ⟨placeTy, mid', placed, reached, rfl⟩ := projectTailIff.mp outer
  obtain ⟨placeTy', out, placed', projected, rfl⟩ := projectTailIff.mp whole
  cases Except.ok.inj (placed.symm.trans placed')
  rw [projectAllAppend, reached] at projected
  have declared : projectAll tcx placeTy first = .ok midTy := by
    rw [Place.tyExtend, placed] at typed
    exact typed
  -- both projections end with the same step, so the part starts in the same variant
  have start : (⟨ty, placeTy.variantIndex⟩ : PlaceTy).variantIndex = placeTy.variantIndex := rfl
  have sameVariant : mid'.variantIndex = midTy.variantIndex := projectAllVariant start reached declared
  refine projectTailIff.mpr ⟨midTy, out, typed, ?_, rfl⟩
  rw [← sameVariant]
  exact projected

end CollectorDomain
end Scrutinizer
