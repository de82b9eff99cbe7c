import Scrutinizer.Collector

/-! How the tracked types of all places change when a type is joined into one of them, and the
assignments of a body without branches. -/
namespace Scrutinizer
open CollectorDomain

/- `tracked` is joined into `place`, a place declared with `ty`, and what `spread` becomes is
joined into the places it reaches. -/
structure Joined (tcx : TyCtxt) (defId : DefId) (body : Body) (ty : Ty) (place : Place)
    (tracked spread : TrackedTy) (before after : PlaceMap) : Prop where
  covered : containsErased ty = true → ∃ deps, spread = .erased deps ∧ tracked.types ⊆ deps
  joined : ∃ paths, transformedPaths tcx body defId place spread = .ok paths ∧
    ∀ p, after.get p = (before.get p).map (fun old =>
      (if p = place then (old.join tracked).1 else old).joinMany (broughtTo p paths))

section
variable {tcx : TyCtxt} {defId : DefId} {body : Body} {place : Place} {ty : Ty}
  {tracked spread old : TrackedTy} {before after : PlaceMap}

def Kept (old new : TrackedTy) : Prop :=
  old.types ⊆ new.types ∧ ∀ ty, TrackedTy.Describes ty old → TrackedTy.Describes ty new

def Keeps (before after : PlaceMap) : Prop :=
  ∀ p old, before.get p = some old → ∃ new, after.get p = some new ∧ Kept old new

theorem Keeps.refl (places : PlaceMap) : Keeps places places :=
  fun _ old known => ⟨old, known, Finset.Subset.refl _, fun _ shape => shape⟩

theorem Keeps.trans {first second third : PlaceMap} (h : Keeps first second)
    (h' : Keeps second third) : Keeps first third := by
  intro p old known
  obtain ⟨mid, hm, grows, kept⟩ := h p old known
  obtain ⟨new, hn, grows', kept'⟩ := h' p mid hm
  exact ⟨new, hn, Finset.Subset.trans grows grows', fun ty shape => kept' ty (kept ty shape)⟩

theorem keptJoined (here : Prop) [Decidable here] (old tracked : TrackedTy) (others : List TrackedTy) :
    Kept old ((if here then (old.join tracked).1 else old).joinMany others) := by
  constructor
  · have grows := TrackedTy.joinManyGrows (if here then (old.join tracked).1 else old) others
    refine Finset.Subset.trans ?_ grows
    split
    · exact TrackedTy.joinGrows old tracked
    · exact Finset.Subset.refl _
  · intro ty shape
    apply TrackedTy.describesJoinMany
    split
    · exact TrackedTy.describesJoin shape tracked
    · exact shape

theorem Joined.keeps (change : Joined tcx defId body ty place tracked spread before after) :
    Keeps before after := by
  intro p old h
  obtain ⟨_, paths, _, get⟩ := change
  exact ⟨_, (get p).trans (by rw [h]; rfl), keptJoined _ old tracked _⟩

theorem Joined.arrives (change : Joined tcx defId body ty place tracked spread before after)
    (erased : containsErased ty = true) {p : Place} {deps : Finset Ty} {new : TrackedTy}
    (hold : before.get p = some (.erased deps)) (hnew : after.get p = some new) {d e : Ty}
    (hd : d ∈ tracked.types)
    (reached : (p = place ∧ e = d) ∨ (p ∈ propagationPaths tcx body defId place spread ∧
      projectTail tcx body place p d = .ok e)) : e ∈ new.types := by
  obtain ⟨covered, paths, hp, get⟩ := change
  have result := get p
  rw [hold, hnew, Option.map_some, Option.some.injEq] at result
  rw [result]
  cases reached with
  | inl itself =>
    obtain ⟨rfl, rfl⟩ := itself
    apply TrackedTy.joinManyGrows
    rw [if_pos rfl, TrackedTy.joinErased]
    exact Finset.mem_union_right _ hd
  | inr inside =>
    obtain ⟨listed, projected⟩ := inside
    obtain ⟨deps', rfl, sub⟩ := covered erased
    obtain ⟨brought, hb, mem⟩ := broughtIn hp listed (sub hd) projected
    have base : ∃ all, (if p = place then ((TrackedTy.erased deps).join tracked).1
        else .erased deps) = .erased all := by
      split
      · exact ⟨_, TrackedTy.joinErased deps tracked⟩
      · exact ⟨deps, rfl⟩
    obtain ⟨all, same⟩ := base
    rw [same, TrackedTy.joinManyErased]
    exact Finset.mem_union_right _
      (Finset.mem_biUnion.mpr ⟨brought, List.mem_toFinset.mpr hb, mem⟩)

theorem joinedUpdate {s s' : CollectorDomain} (known : s.places.get place = some old)
    (shape : TrackedTy.Describes ty old)
    (h : s.updateWith tcx body defId place tracked = .ok s') :
    Joined tcx defId body ty place tracked (old.join tracked).1 s.places s'.places := by
  obtain ⟨old', paths, known', hp, get⟩ := updateWithGet h
  cases Option.some.inj (known.symm.trans known')
  refine ⟨?_, paths, hp, get⟩
  intro erased
  obtain ⟨deps, rfl⟩ := TrackedTy.describedErased shape erased
  exact ⟨deps ∪ tracked.types, TrackedTy.joinErased deps tracked, Finset.subset_union_right⟩

theorem joinedInject (known : before.get place = some old)
    (collected : containsErased ty = true → ∃ deps, tracked = .erased deps)
    (h : inject tcx body defId before place tracked = .ok after) :
    Joined tcx defId body ty place tracked tracked before after := by
  obtain ⟨paths, hp, get⟩ := injectGet known h
  refine ⟨?_, paths, hp, get⟩
  intro erased
  obtain ⟨deps, rfl⟩ := collected erased
  exact ⟨deps, rfl, Finset.Subset.refl _⟩

theorem keptInject (h : inject tcx body defId before place tracked = .ok after) :
    Keeps before after := by
  intro p old known
  obtain ⟨paths, _, get⟩ := propagateGet h
  refine ⟨_, (get p).trans ?_, keptJoined (p = place) old tracked (broughtTo p paths)⟩
  rw [HashMap.getModifyOrInsert]
  by_cases same : p = place
  · subst same
    simp [known]
  · simp [same, known]

end

namespace Collector
variable {tcx : TyCtxt} {c : Collector}

def assignments (tcx : TyCtxt) (c : Collector) (statements : List Statement) :
    Exec Session CollectorDomain := do
  let bottom ← c.bottomValue tcx
  statements.foldlM (applyStatementEffect tcx c) bottom

theorem declaredShape {entries : List (Place × TrackedTy)}
    (h : (tcx.allPlaces c.defId c.substitutedBody).mapM (declaredPlace tcx c) = some entries)
    {place : Place} {ty : Ty} (listed : place ∈ tcx.allPlaces c.defId c.substitutedBody)
    (fixed : tcx.normalize c.defId place = place)
    (typed : place.ty tcx c.substitutedBody = .ok (.fromTy ty)) :
    (HashMap.fromIter entries).get place = some (.fromTy ty) := by
  have each := MapM.someIff.mp h
  apply HashMap.fromIterGet
  · obtain ⟨entry, mem, made⟩ := MapM.memLeft each place listed
    simp only [declaredPlace, fixed, typed, Except.toOption, bind, Option.bind_some,
      Option.some.injEq] at made
    exact made ▸ mem
  · intro v mem
    obtain ⟨source, _, made⟩ := MapM.memRight each (place, v) mem
    simp only [declaredPlace, bind, Option.bind_eq_some_iff] at made
    obtain ⟨placeTy, hty, last⟩ := made
    obtain ⟨same, rfl⟩ := Prod.mk.inj (Option.some.inj last)
    rw [same, typed] at hty
    cases Option.some.inj hty
    rfl

theorem wpBottom {inst : Instance} {args : ArgTys} (isFunction : c.currentFunction = .function inst args)
    {P : CollectorDomain → Prop} (session : Session)
    (post : ∀ entries places,
      (tcx.allPlaces c.defId c.substitutedBody).mapM (declaredPlace tcx c) = some entries →
      augmentWithArgs tcx c.substitutedBody c.defId (HashMap.fromIter entries) args = .ok places →
        P (.new places)) :
    Exec.wp (bottomValue tcx c) (fun bottom _ => P bottom) (fun _ => True) session := by
  unfold bottomValue
  simp only [Exec.wpBind, Exec.wpGet, Exec.wpModify, Exec.wpLift, Exec.wpPure, implies_true, and_true]
  intro closures _ places initial
  simp only [initialPlaces, isFunction, bind, Option.bind_eq_some_iff] at initial
  obtain ⟨entries, declared_, started, same, injected⟩ := initial
  cases Option.some.inj same
  have trackedArgs : (PartialFunctionInfo.function inst args).trackedArgs = args := rfl
  rw [trackedArgs] at injected
  exact post entries places declared_ (Exec.toOptionSome.mp injected)

theorem wpAssign {place : Place} {rvalue : Rvalue} {state : CollectorDomain}
    {P : CollectorDomain → Prop} (session : Session) (fixed : tcx.normalize c.defId place = place)
    (post : ∀ tracked closures after,
      rvalue.trackedTy tcx c.substitutedBody c.currentFunction.inst state session.closures =
        some (tracked, closures) →
      state.updateWith tcx c.substitutedBody c.defId place tracked = .ok after → P after) :
    Exec.wp (applyStatementEffect tcx c state (.assign place rvalue)) (fun after _ => P after)
      (fun _ => True) session := by
  simp only [applyStatementEffect, Exec.wpBind, Exec.wpGet, Exec.wpLift, Exec.wpModify,
    implies_true, and_true, fixed]
  intro pair known after updated
  exact post pair.1 pair.2 after known (Exec.toOptionSome.mp updated)

end Collector
end Scrutinizer
