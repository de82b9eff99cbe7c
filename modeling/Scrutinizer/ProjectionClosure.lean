import Scrutinizer.DerivedStates
import Scrutinizer.PlainCrate
import Scrutinizer.Projections

/-! The states of the analysis under projection. What a place collects, its parts collect: a type
of an erased place, projected to an erased place inside it, is a type of that place. An update
reaches the places inside the one it changes, and those only. -/
namespace Scrutinizer

def PlaceElem.isInterior : PlaceElem → Bool
  | .field _ | .downcast _ => true
  | _ => false

def Place.DerefFree (p : Place) : Prop := ∀ elem ∈ p.projection, elem.isInterior = true

instance (p : Place) : Decidable p.DerefFree := by
  unfold Place.DerefFree
  infer_instance

namespace CollectorDomain
variable {tcx : TyCtxt} {body : Body}

/- What rustc_utils and the normalization say of tracked places: the interior paths of a place are
it and the tracked places inside it, not behind a reference; its referent is behind one. -/
structure InteriorPaths (tcx : TyCtxt) (body : Body) (defId : DefId) (tracked : PlaceMap) : Prop where
  interior : ∀ p, (tracked.get p).isSome = true → ∀ q,
    q ∈ (tcx.interiorPaths defId body p).map (tcx.normalize defId) ↔
      (tracked.get q).isSome = true ∧ ∃ path, .deref ∉ path ∧ q = p.extend path
  referent : ∀ p, (tracked.get p).isSome = true →
    .deref ∈ (tcx.normalize defId (p.extend [.deref])).projection

def Closed (tcx : TyCtxt) (body : Body) (places : PlaceMap) : Prop :=
  ∀ p path deps deps', (p.extend path).DerefFree → places.get p = some (.erased deps) →
    places.get (p.extend path) = some (.erased deps') → ∀ d ∈ deps, ∃ e ∈ deps',
      projectTail tcx body p (p.extend path) d = .ok e

/- A value that may be passed for a place of the bottom state. It is known where the type declared
for the place is; and what a known value has at an unknown place inside is not known either. -/
structure Agrees (tcx : TyCtxt) (body : Body) (bottom : PlaceMap) (place : Place)
    (tracked : TrackedTy) : Prop where
  variant : ∃ declared, bottom.get place = some declared ∧ declared.isPresent = tracked.isPresent
  parts : ∀ ty, tracked = .present ty → ∀ path deps part, (place.extend path).DerefFree →
    bottom.get (place.extend path) = some (.erased deps) →
    projectTail tcx body place (place.extend path) ty = .ok part → containsErased part = true

section
variable {defId : DefId} {bottom before after : PlaceMap} {place p : Place} {value tracked : TrackedTy}

theorem interiorListed {path : List PlaceElem} (paths : InteriorPaths tcx body defId bottom)
    (known : (bottom.get place).isSome = true) (free : (place.extend path).DerefFree)
    (inner : (bottom.get (place.extend path)).isSome = true) :
    place.extend path ∈ propagationPaths tcx body defId place value := by
  have inside : .deref ∉ path := fun mem => by
    have interior := free .deref (List.mem_append_right _ mem)
    cases interior
  have listed := (paths.interior place known _).mpr ⟨inner, path, inside, rfl⟩
  rw [propagationPaths, List.map_append]
  exact List.mem_append_left _ listed

theorem broughtAround {brought : TrackedTy} {changes : List (Place × TrackedTy)}
    (paths : InteriorPaths tcx body defId bottom) (known : (bottom.get place).isSome = true)
    (free : p.DerefFree) (made : transformedPaths tcx body defId place value = .ok changes)
    (mem : brought ∈ broughtTo p changes) : ∃ path, p = place.extend path ∧
      value.tryMap tcx.hashOrder (projectTail tcx body place p) = .ok brought := by
  obtain ⟨listed, projected⟩ := broughtMade made mem
  suffices around : ∃ path, p = place.extend path from
    around.elim fun path same => ⟨path, same, projected⟩
  rw [propagationPaths, List.map_append, List.mem_append] at listed
  cases listed with
  | inl inside =>
    obtain ⟨_, path, _, same⟩ := (paths.interior place known _).mp inside
    exact ⟨path, same⟩
  | inr behind =>
    split at behind
    · obtain rfl := List.mem_singleton.mp behind
      have interior := free .deref (paths.referent place known)
      cases interior
    · cases behind

structure Change (tcx : TyCtxt) (body : Body) (defId : DefId) (bottom : PlaceMap) (place : Place)
    (tracked spread : TrackedTy) (before after : PlaceMap) : Prop where
  known : (bottom.get place).isSome = true
  covered : ∀ deps, before.get place = some (.erased deps) →
    ∃ deps', spread = .erased deps' ∧ tracked.types ⊆ deps'
  quiet : ∀ ty, spread = .present ty → ∀ path deps part, (place.extend path).DerefFree →
    bottom.get (place.extend path) = some (.erased deps) →
    projectTail tcx body place (place.extend path) ty = .ok part → containsErased part = true
  joined : ∃ changes, transformedPaths tcx body defId place spread = .ok changes ∧
    ∀ p, after.get p = (before.get p).map (fun old =>
      (if p = place then (old.join tracked).1 else old).joinMany (broughtTo p changes))

def FormOf (bottom places : PlaceMap) : Prop := SameForm (.new bottom) (.new places)

theorem changedTypes {changes : List (Place × TrackedTy)} {deps : Finset Ty}
    (get : ∀ p, after.get p = (before.get p).map (fun old =>
      (if p = place then (old.join tracked).1 else old).joinMany (broughtTo p changes)))
    (held : after.get p = some (.erased deps)) : ∃ old, before.get p = some (.erased old) ∧
      ∀ d, d ∈ deps ↔ d ∈ old ∨ (p = place ∧ d ∈ tracked.types) ∨
        ∃ brought ∈ broughtTo p changes, d ∈ brought.types := by
  rw [get p, Option.map_eq_some_iff] at held
  obtain ⟨old, known, joined⟩ := held
  cases old with
  | present ty =>
    have stays : (if p = place then ((TrackedTy.present ty).join tracked).1 else .present ty) =
        .present ty := by
      rw [TrackedTy.joinPresent]
      exact ite_self _
    rw [stays, TrackedTy.joinManyPresent] at joined
    cases joined
  | erased old =>
    refine ⟨old, known, fun d => ?_⟩
    by_cases here : p = place
    · rw [if_pos here, TrackedTy.joinErased, TrackedTy.joinManyErased] at joined
      obtain rfl := TrackedTy.erased.inj joined
      simp [here]
    · rw [if_neg here, TrackedTy.joinManyErased] at joined
      obtain rfl := TrackedTy.erased.inj joined
      simp [here]

theorem FormOf.known {old : TrackedTy} (form : FormOf bottom before) (held : before.get place = some old) :
    ∃ declared, bottom.get place = some declared ∧ declared.form = old.form := form.found held

theorem FormOf.listed {old : TrackedTy} (form : FormOf bottom before)
    (held : before.get place = some old) : (bottom.get place).isSome = true := by
  obtain ⟨declared, known, _⟩ := form.known held
  exact Option.isSome_iff_exists.mpr ⟨declared, known⟩

theorem FormOf.erased {deps : Finset Ty} (form : FormOf bottom before)
    (held : before.get place = some (.erased deps)) :
    ∃ declared, bottom.get place = some (.erased declared) := by
  obtain ⟨declared, known, same⟩ := form.known held
  cases declared with
  | present ty => cases same
  | erased declared => exact ⟨declared, known⟩

theorem erasedReaches {types : Finset Ty} {changes : List (Place × TrackedTy)}
    (made : transformedPaths tcx body defId place (.erased types) = .ok changes)
    (listed : p ∈ propagationPaths tcx body defId place (.erased types)) {ty : Ty} (mem : ty ∈ types) :
    ∃ e, projectTail tcx body place p ty = .ok e ∧ ∃ brought ∈ broughtTo p changes, e ∈ brought.types := by
  obtain ⟨_, _, transformed⟩ := MapM.memLeft (MapM.okIff.mp made) p listed
  obtain ⟨_, tried, _⟩ := bindOk transformed
  obtain ⟨_, mapped, _⟩ := bindOk tried
  obtain ⟨e, _, projected⟩ :=
    MapM.memLeft (MapM.okIff.mp mapped) ty ((tcx.hashOrder.mem types ty).mpr mem)
  exact ⟨e, projected, broughtIn made listed mem projected⟩

/- A change at any place keeps the state closed. Where it is above the outer place, what the outer
place gets and what the inner place gets are projections of the same types; where it is the outer
place, the inner one gets what its types become; anywhere else the outer place gets nothing. -/
theorem closedChange {spread : TrackedTy} (paths : InteriorPaths tcx body defId bottom)
    (typed : ∀ p, (bottom.get p).isSome = true → ∃ placeTy, p.ty tcx body = .ok placeTy)
    (form : FormOf bottom before) (closed : Closed tcx body before)
    (change : Change tcx body defId bottom place tracked spread before after) :
    Closed tcx body after := by
  obtain ⟨known, covered, quiet, changes, made, get⟩ := change
  intro p path deps deps' free held inner d mem
  obtain ⟨old, heldBefore, types⟩ := changedTypes get held
  obtain ⟨old', innerBefore, types'⟩ := changedTypes get inner
  have outerFree : p.DerefFree := fun elem member => free elem (List.mem_append_left _ member)
  have innerKnown := form.listed innerBefore
  rcases (types d).mp mem with before_ | ⟨rfl, joined⟩ | ⟨brought, arrived, member⟩
  · obtain ⟨e, there, projected⟩ := closed p path old old' free heldBefore innerBefore d before_
    exact ⟨e, (types' e).mpr (.inl there), projected⟩
  · obtain ⟨all, rfl, sub⟩ := covered old heldBefore
    obtain ⟨e, projected, there⟩ :=
      erasedReaches made (interiorListed paths known free innerKnown) (sub joined)
    exact ⟨e, (types' e).mpr (.inr (.inr there)), projected⟩
  · obtain ⟨way, rfl, tried⟩ := broughtAround paths known outerFree made arrived
    cases spread with
    | present ty =>
      obtain ⟨part, projected, last⟩ := bindOk tried
      obtain ⟨declared, erased⟩ := form.erased heldBefore
      have unknown := quiet ty rfl way declared part outerFree erased projected
      rw [TrackedTy.fromTyErased unknown] at last
      cases Except.ok.inj last
      cases member
    | erased all =>
      obtain ⟨mapped, each, last⟩ := bindOk tried
      cases Except.ok.inj last
      obtain ⟨s, listed, outer⟩ := MapM.memRight (MapM.okIff.mp each) d (List.mem_toFinset.mp member)
      have source := (tcx.hashOrder.mem all s).mp listed
      have further : (place.extend way).extend path = place.extend (way ++ path) := by
        simp [Place.extend]
      rw [further] at free innerKnown types' ⊢
      obtain ⟨e, whole, there⟩ := erasedReaches made (interiorListed paths known free innerKnown) source
      obtain ⟨midTy, declared⟩ := typed (place.extend way) (form.listed heldBefore)
      have inside := projectTailInside declared outer whole
      rw [further] at inside
      exact ⟨e, (types' e).mpr (.inr (.inr there)), inside⟩

theorem formChange {spread : TrackedTy} (form : FormOf bottom before)
    (change : Change tcx body defId bottom place tracked spread before after) : FormOf bottom after := by
  intro p
  obtain ⟨_, _, get⟩ := change.joined
  have here : (bottom.get p).map TrackedTy.form = (before.get p).map TrackedTy.form := form p
  show (bottom.get p).map TrackedTy.form = (after.get p).map TrackedTy.form
  rw [get p, Option.map_map, here]
  refine congrArg (fun f => (before.get p).map f) (funext fun old => ?_)
  simp only [Function.comp, TrackedTy.formJoinMany]
  split
  · exact (TrackedTy.formJoin old tracked).symm
  · rfl

def Declared (tcx : TyCtxt) (body : Body) (bottom : PlaceMap) : Prop :=
  ∀ p tracked, bottom.get p = some tracked → ∃ placeTy, p.ty tcx body = .ok placeTy ∧
    tracked = .fromTy placeTy.ty

theorem Declared.typed (declared : Declared tcx body bottom) (p : Place)
    (known : (bottom.get p).isSome = true) : ∃ placeTy, p.ty tcx body = .ok placeTy := by
  obtain ⟨tracked, held⟩ := Option.isSome_iff_exists.mp known
  obtain ⟨placeTy, typed, _⟩ := declared p tracked held
  exact ⟨placeTy, typed⟩

theorem Declared.agrees (declared : Declared tcx body bottom) (held : bottom.get place = some tracked) :
    Agrees tcx body bottom place tracked := by
  refine ⟨⟨tracked, held, rfl⟩, ?_⟩
  rintro ty rfl path deps part _ inner projected
  obtain ⟨placeTy, typed, same⟩ := declared place _ held
  obtain ⟨partTy, partTyped, erased⟩ := declared _ _ inner
  obtain ⟨placeTy', out, typed', reached, rfl⟩ := projectTailIff.mp projected
  cases Except.ok.inj (typed.symm.trans typed')
  have itself : ty = placeTy.ty := by
    cases unknown : containsErased placeTy.ty with
    | true =>
      rw [TrackedTy.fromTyErased unknown] at same
      cases same
    | false =>
      rw [TrackedTy.fromTyPresent unknown] at same
      exact TrackedTy.present.inj same
  subst itself
  have found : projectAll tcx placeTy path = .ok partTy := by
    rw [Place.tyExtend, typed] at partTyped
    exact partTyped
  cases Except.ok.inj (reached.symm.trans found)
  cases unknown : containsErased partTy.ty with
  | true => rfl
  | false =>
    rw [TrackedTy.fromTyPresent unknown] at erased
    cases erased

theorem FormOf.present {ty : Ty} (form : FormOf bottom before)
    (held : before.get place = some (.present ty)) : bottom.get place = some (.present ty) := by
  obtain ⟨declared, known, same⟩ := form.known held
  cases declared with
  | present ty' =>
    cases Option.some.inj same
    exact known
  | erased deps => cases same

theorem changeUpdate {s s' : CollectorDomain} (declared : Declared tcx body bottom)
    (form : FormOf bottom s.places) (ok : s.updateWith tcx body defId place tracked = .ok s') :
    ∃ spread, Change tcx body defId bottom place tracked spread s.places s'.places := by
  obtain ⟨old, changes, held, made, get⟩ := updateWithGet ok
  refine ⟨_, ⟨form.listed held, ?_, ?_, changes, made, get⟩⟩
  · intro deps erased
    cases Option.some.inj (held.symm.trans erased)
    exact ⟨_, TrackedTy.joinErased deps tracked, Finset.subset_union_right⟩
  · intro ty present
    cases old with
    | present ty' =>
      cases TrackedTy.present.inj present
      exact (declared.agrees (form.present held)).parts ty rfl
    | erased deps =>
      rw [TrackedTy.joinErased] at present
      cases present

theorem changeInject (form : FormOf bottom before) (agrees : Agrees tcx body bottom place tracked)
    (ok : inject tcx body defId before place tracked = .ok after) :
    Change tcx body defId bottom place tracked tracked before after := by
  obtain ⟨start, known, variant⟩ := agrees.variant
  obtain ⟨old, held, same⟩ := form.symm.found known
  obtain ⟨changes, made, get⟩ := injectGet held ok
  refine ⟨form.listed held, ?_, agrees.parts, changes, made, get⟩
  intro deps erased
  cases Option.some.inj (held.symm.trans erased)
  cases start with
  | present ty => cases same
  | erased deps' =>
    cases tracked with
    | present ty => cases variant
    | erased types => exact ⟨types, rfl, Finset.Subset.refl _⟩

theorem joinedTypes {s t joined : CollectorDomain} {changed : Bool} {deps : Finset Ty}
    (form : FormOf t.places s.places) (ok : s.join t = some (joined, changed))
    (held : joined.places.get p = some (.erased deps)) : ∃ left right,
      s.places.get p = some (.erased left) ∧ t.places.get p = some (.erased right) ∧
      deps = left ∪ right := by
  rw [joinGet ok p, Option.map_eq_some_iff] at held
  obtain ⟨old, known, joined⟩ := held
  cases old with
  | present ty =>
    rw [TrackedTy.joinManyPresent] at joined
    cases joined
  | erased left =>
    obtain ⟨right, known'⟩ := form.erased known
    rw [known', TrackedTy.joinManyErased] at joined
    obtain rfl := TrackedTy.erased.inj joined
    exact ⟨left, right, known, known', by simp [TrackedTy.types]⟩

theorem closedJoin {s t joined : CollectorDomain} {changed : Bool} (left : Closed tcx body s.places)
    (right : Closed tcx body t.places) (form : FormOf t.places s.places)
    (ok : s.join t = some (joined, changed)) : Closed tcx body joined.places := by
  intro p path deps deps' free held inner d mem
  obtain ⟨own, other, known, known', rfl⟩ := joinedTypes form ok held
  obtain ⟨own', other', inside, inside', rfl⟩ := joinedTypes form ok inner
  cases Finset.mem_union.mp mem with
  | inl here =>
    obtain ⟨e, there, projected⟩ := left p path own own' free known inside d here
    exact ⟨e, Finset.mem_union_left _ there, projected⟩
  | inr here =>
    obtain ⟨e, there, projected⟩ := right p path other other' free known' inside' d here
    exact ⟨e, Finset.mem_union_right _ there, projected⟩

theorem injectAll {α : Type} {placeOf : α → Place} {valueOf : α → TrackedTy} {values : List α}
    (paths : InteriorPaths tcx body defId bottom) (declared : Declared tcx body bottom)
    (agree : ∀ value ∈ values, Agrees tcx body bottom (placeOf value) (valueOf value)) :
    ∀ {before after : PlaceMap}, FormOf bottom before → Closed tcx body before →
      values.foldlM (fun places value => inject tcx body defId places (placeOf value) (valueOf value))
        before = .ok after → FormOf bottom after ∧ Closed tcx body after := by
  induction values with
  | nil =>
    intro before after form closed ok
    cases Except.ok.inj ok
    exact ⟨form, closed⟩
  | cons value rest ih =>
    intro before after form closed ok
    simp only [List.foldlM_cons, bind] at ok
    obtain ⟨next, first, ok⟩ := bindOk ok
    have change := changeInject form (agree value List.mem_cons_self) first
    exact ih (fun later mem => agree later (List.mem_cons_of_mem _ mem)) (formChange form change)
      (closedChange paths declared.typed form closed change) ok

end

end CollectorDomain

namespace Collector
open CollectorDomain
variable {tcx : TyCtxt} {c : Collector}

def argPlace (tcx : TyCtxt) (c : Collector) (idx : Nat) : Place :=
  tcx.normalize c.defId (.fromLocal (idx + 1))

def declaredState (tcx : TyCtxt) (c : Collector) : Option CollectorDomain :=
  ((tcx.allPlaces c.defId c.substitutedBody).mapM (declaredPlace tcx c)).map fun entries =>
    .new (HashMap.fromIter entries)

/- The states made from the declared types by the operations of an analysis, where the arguments
agree with them. The injection of upvars is not among them: it leaves out what is inside an upvar. -/
inductive Reached (tcx : TyCtxt) (c : Collector) (bottom : CollectorDomain) : CollectorDomain → Prop where
  | declared : Reached tcx c bottom bottom
  | augmentWithArgs {s places args} (before : Reached tcx c bottom s)
      (agree : ∀ arg ∈ args.argTys.zipIdx.drop (if tcx.isClosure c.defId then 1 else 0),
        Agrees tcx c.substitutedBody bottom.places (argPlace tcx c arg.2) arg.1)
      (ok : CollectorDomain.augmentWithArgs tcx c.substitutedBody c.defId s.places args =
        .ok places) : Reached tcx c bottom {s with places := places}
  | updateWith {s s' place tracked} (before : Reached tcx c bottom s)
      (ok : s.updateWith tcx c.substitutedBody c.defId place tracked = .ok s') : Reached tcx c bottom s'
  | addCall {s} (call : FunctionCall) (before : Reached tcx c bottom s) :
      Reached tcx c bottom (s.addCall call)
  | addUnhandled {s} (ty : Ty) (before : Reached tcx c bottom s) :
      Reached tcx c bottom (s.addUnhandled ty)
  | join {s t joined changed} (left : Reached tcx c bottom s) (right : Reached tcx c bottom t)
      (ok : s.join t = some (joined, changed)) : Reached tcx c bottom joined

theorem declaredTypes {bottom : CollectorDomain} (started : declaredState tcx c = some bottom) :
    Declared tcx c.substitutedBody bottom.places := by
  obtain ⟨entries, made, rfl⟩ := Option.map_eq_some_iff.mp started
  intro p tracked held
  obtain ⟨source, _, entry⟩ := MapM.memRight (MapM.someIff.mp made) _ (HashMap.fromIterFound held)
  simp only [declaredPlace, bind, Option.bind_eq_some_iff] at entry
  obtain ⟨placeTy, typed, last⟩ := entry
  obtain ⟨rfl, rfl⟩ := Prod.mk.inj (Option.some.inj last)
  exact ⟨placeTy, Exec.toOptionSome.mp typed, rfl⟩

theorem declaredClosed {bottom : CollectorDomain} (declared : Declared tcx c.substitutedBody bottom.places) :
    Closed tcx c.substitutedBody bottom.places := by
  intro p path deps deps' _ held _ d mem
  obtain ⟨placeTy, _, same⟩ := declared p _ held
  cases unknown : containsErased placeTy.ty with
  | true =>
    rw [TrackedTy.fromTyErased unknown] at same
    cases same
    cases mem
  | false =>
    rw [TrackedTy.fromTyPresent unknown] at same
    cases same

theorem reachedInvariant {bottom s : CollectorDomain} (started : declaredState tcx c = some bottom)
    (paths : InteriorPaths tcx c.substitutedBody c.defId bottom.places) (reached : Reached tcx c bottom s) :
    FormOf bottom.places s.places ∧ Closed tcx c.substitutedBody s.places := by
  have declared := declaredTypes started
  induction reached with
  | declared => exact ⟨fun _ => rfl, declaredClosed declared⟩
  | augmentWithArgs before agree ok ih => exact injectAll paths declared agree ih.1 ih.2 ok
  | updateWith before ok ih =>
    obtain ⟨spread, change⟩ := changeUpdate declared ih.1 ok
    exact ⟨formChange ih.1 change, closedChange paths declared.typed ih.1 ih.2 change⟩
  | addCall call before ih => exact ih
  | addUnhandled ty before ih => exact ih
  | join left right ok ihLeft ihRight =>
    exact ⟨ihLeft.1.trans (formJoined ok).symm,
      closedJoin ihLeft.2 ihRight.2 (ihRight.1.symm.trans ihLeft.1) ok⟩

def layeredAdts (did : DefId) : AdtDef :=
  match did with
  | 1 => ⟨[[.tuple [.fnPtr [] Ty.unit]]], none, false, false, false⟩
  | 2 => ⟨[[.adt 3 []]], none, false, false, false⟩
  | _ => ⟨[[.rawPtr Ty.usize .not]], none, false, false, false⟩

def layer (depth : Nat) : Place := (Place.fromLocal 1).extend (List.replicate depth (.field 0))

def layeredPlaces : List Place := [.returnPlace, layer 0, layer 1, layer 2]

def encloses (p q : Place) : Bool :=
  decide (q.base = p.base) && decide (p.projection <+: q.projection) &&
    decide (.deref ∉ q.projection.drop p.projection.length)

def someFunction : Ty := .fnDef 5 []

noncomputable def layered : TyCtxt :=
  {TyCtxt.plain (.listed [.tuple [someFunction], someFunction] (by decide)) with
    adtDef := layeredAdts
    allPlaces := fun _ _ => layeredPlaces
    interiorPaths := fun _ _ place => layeredPlaces.filter (encloses place)}

def layeredHolder : Collector :=
  ⟨[], [], .function ⟨.item, 0, []⟩ ⟨[]⟩, ⟨1, [Ty.unit, .adt 1 []], [], [], 0⟩, false⟩

def layeredBottom : CollectorDomain :=
  .new (.fromIter [(.returnPlace, .present Ty.unit), (layer 0, .present (.adt 1 [])),
    (layer 1, .erased ∅), (layer 2, .erased ∅)])

theorem layeredStarts : declaredState layered layeredHolder = some layeredBottom := by
  have entries : (layered.allPlaces layeredHolder.defId layeredHolder.substitutedBody).mapM
      (declaredPlace layered layeredHolder) = some [(.returnPlace, .present Ty.unit),
        (layer 0, .present (.adt 1 [])), (layer 1, .erased ∅), (layer 2, .erased ∅)] := by
    decide +kernel
  rw [declaredState, entries]
  rfl

theorem enclosesIff (p q : Place) :
    encloses p q = true ↔ ∃ path, .deref ∉ path ∧ q = p.extend path := by
  obtain ⟨base, elems⟩ := q
  simp only [encloses, Bool.and_eq_true, decide_eq_true_eq]
  constructor
  · rintro ⟨⟨rfl, path, rfl⟩, inside⟩
    exact ⟨path, by simpa using inside, rfl⟩
  · rintro ⟨path, inside, same⟩
    cases same
    exact ⟨⟨rfl, List.prefix_append _ _⟩, by simpa [Place.extend] using inside⟩

theorem layeredPaths : InteriorPaths layered layeredHolder.substitutedBody layeredHolder.defId
    layeredBottom.places := by
  have keys : layeredBottom.places.keys = layeredPlaces := by decide
  have tracked : ∀ q, (layeredBottom.places.get q).isSome = true ↔ q ∈ layeredPlaces := by
    intro q
    rw [Option.isSome_iff_exists, HashMap.getSome, keys]
  constructor
  · intro p _ q
    rw [tracked q, ← enclosesIff]
    show q ∈ (layeredPlaces.filter (encloses p)).map id ↔ _
    rw [List.map_id, List.mem_filter]
  · intro p _
    exact List.mem_append_right _ (List.mem_singleton_self _)

structure Passed (tcx : TyCtxt) (c : Collector) (bottom : CollectorDomain) : Prop where
  function : c.currentFunction.isClosure = false
  args : ∀ arg ∈ c.currentFunction.trackedArgs.argTys.zipIdx.drop (if tcx.isClosure c.defId then 1 else 0),
    Agrees tcx c.substitutedBody bottom.places (argPlace tcx c arg.2) arg.1

theorem bottomReached {places : PlaceMap} {bottom : CollectorDomain}
    (started : declaredState tcx c = some bottom) (passed : Passed tcx c bottom)
    (made : initialPlaces tcx c = some places) : Reached tcx c bottom (.new places) := by
  obtain ⟨entries, declared, rfl⟩ := Option.map_eq_some_iff.mp started
  simp only [initialPlaces, declared, bind, Option.bind_some] at made
  cases current : c.currentFunction with
  | function inst args =>
    simp only [current] at made
    exact Reached.declared.augmentWithArgs passed.args (current ▸ Exec.toOptionSome.mp made)
  | closure inst args info =>
    have function := passed.function
    rw [current] at function
    cases function

theorem reachedRule (tcx : TyCtxt) (c : Collector) (descend : Collector → Exec Session CollectorDomain)
    (bottom : CollectorDomain) : BodyRule tcx descend c (fun _ => True) (Reached tcx c bottom) :=
  stateRule .updateWith .addCall .addUnhandled .join

theorem analysisClosed {descend : Collector → Exec Session CollectorDomain}
    {bottom results : CollectorDomain} {places : PlaceMap} {fuel blocks : Nat} {order : List Nat}
    {s t : Session} (started : declaredState tcx c = some bottom)
    (paths : InteriorPaths tcx c.substitutedBody c.defId bottom.places) (passed : Passed tcx c bottom)
    (made : initialPlaces tcx c = some places)
    (ran : (analysis tcx descend c).run fuel (.new places) blocks order s = (some results, t)) :
    Closed tcx c.substitutedBody results.places := by
  have reached := (reachedRule tcx c descend bottom).analysisHeld (bottomReached started passed made) ran
  exact (reachedInvariant started paths reached).2

end Collector
end Scrutinizer
