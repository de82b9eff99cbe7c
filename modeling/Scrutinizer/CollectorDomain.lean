import Scrutinizer.Library.MapM
import Scrutinizer.Storage

/-! The state of the dataflow analysis: a tracked type for each place of the body, the calls
seen so far and the callee types that were not handled. -/
namespace Scrutinizer

structure CollectorDomain where
  places : PlaceMap
  calls : Finset FunctionCall
  unhandled : Finset Ty

namespace CollectorDomain

def new (places : PlaceMap) : CollectorDomain := ⟨places, ∅, ∅⟩

def fromRegularFnInfo : FunctionInfo → Option CollectorDomain
  | .withBody _ places calls _ _ unhandled => some ⟨places, calls, unhandled⟩
  | .withoutBody _ _ => none

def get (self : CollectorDomain) (place : Place) : Option TrackedTy := self.places.get place

def projectTail (tcx : TyCtxt) (body : Body) (place interiorPath : Place) (ty : Ty) :
    Except ProjectError Ty := do
  let placeTy ← place.ty tcx body
  let tail := interiorPath.projection.drop place.projection.length
  let projected ← projectAll tcx ⟨ty, placeTy.variantIndex⟩ tail
  .ok projected.ty

def propagationPaths (tcx : TyCtxt) (body : Body) (defId : DefId) (place : Place)
    (ty : TrackedTy) : List Place :=
  let inner := if (ty.intoVec tcx.hashOrder).any Ty.isRef then [place.extend [.deref]] else []
  (tcx.interiorPaths defId body place ++ inner).map (tcx.normalize defId)

/- `get_mut(place).unwrap().join(ty)`. -/
def joinAt (places : PlaceMap) (place : Place) (ty : TrackedTy) : Except ProjectError PlaceMap := do
  let old ← orMissing (places.get place)
  .ok (places.insert place (old.join ty).1)

def transformedPaths (tcx : TyCtxt) (body : Body) (defId : DefId) (place : Place)
    (ty : TrackedTy) : Except ProjectError (List (Place × TrackedTy)) :=
  (propagationPaths tcx body defId place ty).mapM (fun interiorPath => do
    let transformed ← ty.tryMap tcx.hashOrder (projectTail tcx body place interiorPath)
    .ok (interiorPath, transformed))

def joinAll (places : PlaceMap) (paths : List (Place × TrackedTy)) : Except ProjectError PlaceMap :=
  paths.foldlM (fun places path => joinAt places path.1 path.2) places

/- Every projection is computed before the first place changes. -/
def propagate (tcx : TyCtxt) (body : Body) (defId : DefId) (places : PlaceMap) (place : Place)
    (ty : TrackedTy) : Except ProjectError PlaceMap := do
  let paths ← transformedPaths tcx body defId place ty
  joinAll places paths

/- An error is a panic of the code, which unwraps the result of `propagate`. -/
def updateWith (tcx : TyCtxt) (body : Body) (defId : DefId) (self : CollectorDomain)
    (place : Place) (trackedTy : TrackedTy) : Except ProjectError CollectorDomain := do
  let old ← orMissing (self.places.get place)
  let placeTy := (old.join trackedTy).1
  let places ← propagate tcx body defId (self.places.insert place placeTy) place placeTy
  .ok {self with places := places}

def inject (tcx : TyCtxt) (body : Body) (defId : DefId) (places : PlaceMap) (place : Place)
    (ty : TrackedTy) : Except ProjectError PlaceMap :=
  propagate tcx body defId (places.modifyOrInsert place (fun old => (old.join ty).1) ty) place ty

/- `propagate` at the place of an upvar. The code makes this place with `unit` for the type of
its field, so that its interior paths are the place alone, whatever the upvar is. -/
def propagateUpvar (tcx : TyCtxt) (defId : DefId) (places : PlaceMap) (place : Place)
    (ty : TrackedTy) : Except ProjectError PlaceMap := do
  let inner := if (ty.intoVec tcx.hashOrder).any Ty.isRef then [place.extend [.deref]] else []
  let paths ← ((place :: inner).map (tcx.normalize defId)).mapM (fun interiorPath => do
    let tail := interiorPath.projection.drop place.projection.length
    let transformed ← ty.tryMap tcx.hashOrder
      (fun ty => (projectAll tcx (.fromTy ty) tail).map PlaceTy.ty)
    .ok (interiorPath, transformed))
  joinAll places paths

def augmentClosureWithUpvars (tcx : TyCtxt) (body : Body) (defId : DefId) (places : PlaceMap)
    (closureInfo : ClosureInfo) : Except ProjectError PlaceMap :=
  closureInfo.upvars.zipIdx.foldlM (fun places upvar => do
    let receiver ← orMissing body.localDecls[1]?
    let projection := if receiver.isRef then [.deref, .field upvar.2] else [.field upvar.2]
    let upvarPlace := tcx.normalize defId ((Place.fromLocal 1).extend projection)
    let places := places.modifyOrInsert upvarPlace (fun old => (old.join upvar.1).1) upvar.1
    propagateUpvar tcx defId places upvarPlace upvar.1) places

def augmentWithArgs (tcx : TyCtxt) (body : Body) (defId : DefId) (places : PlaceMap)
    (argTys : ArgTys) : Except ProjectError PlaceMap :=
  let skipped := if tcx.isClosure defId then 1 else 0
  (argTys.argTys.zipIdx.drop skipped).foldlM (fun places arg =>
    inject tcx body defId places (tcx.normalize defId (.fromLocal (arg.2 + 1))) arg.1) places

def returnType (tcx : TyCtxt) (body : Body) (defId : DefId) (self : CollectorDomain) :
    Option TrackedTy := do
  let returnPlace := tcx.normalize defId .returnPlace
  let inferred ← self.places.get returnPlace
  let declared ← (returnPlace.ty tcx body).toOption
  match TrackedTy.fromTy declared.ty with
  | .present ty => some (.present ty)
  | .erased _ => some inferred

def constructArg (tcx : TyCtxt) (body : Body) (defId : DefId) (self : CollectorDomain)
    (arg : Operand) : Option TrackedTy :=
  match arg.place.bind (fun place => self.get (tcx.normalize defId place)) with
  | some ty => some ty
  | none => ((arg.ty tcx body).map TrackedTy.fromTy).toOption

def constructArgs (tcx : TyCtxt) (body : Body) (defId : DefId) (self : CollectorDomain)
    (args : List Operand) : Option ArgTys :=
  (args.mapM (constructArg tcx body defId self)).map ArgTys.mk

def addCall (self : CollectorDomain) (call : FunctionCall) : CollectorDomain :=
  {self with calls := insert call self.calls}

def addUnhandled (self : CollectorDomain) (unhandled : Ty) : CollectorDomain :=
  {self with unhandled := insert unhandled self.unhandled}

def joinPlaces (self other : PlaceMap) : Option (PlaceMap × Bool) :=
  other.entries.foldlM (fun acc entry => do
    let old ← acc.1.get entry.1
    let joined := old.join entry.2
    some (acc.1.insert entry.1 joined.1, acc.2 || joined.2)) (self, false)

/- The joined state and whether it differs from the left one; `none` is the panic on a place
that the left state does not have. -/
def join (self other : CollectorDomain) : Option (CollectorDomain × Bool) := do
  let (places, updatedPlaces) ← joinPlaces self.places other.places
  let updatedCalls := decide (¬ other.calls ⊆ self.calls)
  let updatedUnhandled := decide (¬ other.unhandled ⊆ self.unhandled)
  some (⟨places, self.calls ∪ other.calls, self.unhandled ∪ other.unhandled⟩,
    updatedPlaces || updatedCalls || updatedUnhandled)

theorem joinAtGet {places places' : PlaceMap} {place : Place} {ty : TrackedTy}
    (h : joinAt places place ty = .ok places') (p : Place) :
    places'.get p = (places.get p).map (fun old => if p = place then (old.join ty).1 else old) := by
  obtain ⟨old, found, last⟩ := bindOk h
  have held := orMissingOk.mp found
  cases Except.ok.inj last
  rw [HashMap.getInsert]
  by_cases same : p = place
  · simp [same, held]
  · simp [same]

def broughtTo (p : Place) (paths : List (Place × TrackedTy)) : List TrackedTy :=
  (paths.filter (fun path => decide (path.1 = p))).map Prod.snd

theorem joinAllGet {paths : List (Place × TrackedTy)} : ∀ {places places' : PlaceMap},
    joinAll places paths = .ok places' → ∀ p,
      places'.get p = (places.get p).map (fun old => old.joinMany (broughtTo p paths)) := by
  induction paths with
  | nil =>
    intro places places' h p
    cases Except.ok.inj h
    simp [broughtTo, TrackedTy.joinMany]
  | cons path rest ih =>
    intro places places' h p
    rw [joinAll, List.foldlM_cons] at h
    cases hj : joinAt places path.1 path.2 with
    | error e =>
      rw [hj] at h
      contradiction
    | ok next =>
      rw [hj] at h
      have tail := ih h p
      have head := joinAtGet hj p
      rw [tail, head, Option.map_map]
      congr 1
      funext old
      by_cases here : path.1 = p
      · simp [broughtTo, here, TrackedTy.joinMany]
      · have there : ¬ p = path.1 := fun same => here same.symm
        simp [broughtTo, here, there]

section
variable {tcx : TyCtxt} {body : Body} {defId : DefId} {self other : CollectorDomain}

theorem propagateGet {places places' : PlaceMap} {place : Place} {ty : TrackedTy}
    (h : propagate tcx body defId places place ty = .ok places') :
    ∃ paths, transformedPaths tcx body defId place ty = .ok paths ∧
      ∀ p, places'.get p =
        (places.get p).map (fun before => before.joinMany (broughtTo p paths)) := by
  obtain ⟨paths, hp, joined⟩ := bindOk h
  exact ⟨paths, hp, joinAllGet joined⟩

theorem broughtMade {place p : Place} {ty brought : TrackedTy} {paths : List (Place × TrackedTy)}
    (h : transformedPaths tcx body defId place ty = .ok paths) (arrived : brought ∈ broughtTo p paths) :
    p ∈ propagationPaths tcx body defId place ty ∧
      ty.tryMap tcx.hashOrder (projectTail tcx body place p) = .ok brought := by
  simp only [broughtTo, List.mem_map, List.mem_filter, decide_eq_true_eq] at arrived
  obtain ⟨path, ⟨listed, rfl⟩, rfl⟩ := arrived
  obtain ⟨q, mem, made⟩ := MapM.memRight (MapM.okIff.mp h) path listed
  obtain ⟨mapped, projected, last⟩ := bindOk made
  cases Except.ok.inj last
  exact ⟨mem, projected⟩

theorem broughtIn {place p : Place} {deps : Finset Ty} {paths : List (Place × TrackedTy)}
    (h : transformedPaths tcx body defId place (.erased deps) = .ok paths)
    (mem : p ∈ propagationPaths tcx body defId place (.erased deps)) {ty e : Ty}
    (inside : ty ∈ deps) (project : projectTail tcx body place p ty = .ok e) :
    ∃ brought ∈ broughtTo p paths, e ∈ brought.types := by
  obtain ⟨path, hpath, made⟩ := MapM.memLeft (MapM.okIff.mp h) p mem
  obtain ⟨transformed, tried, last⟩ := bindOk made
  obtain ⟨mapped, hm, last'⟩ := bindOk tried
  cases Except.ok.inj last
  cases Except.ok.inj last'
  obtain ⟨e', he', projected⟩ :=
    MapM.memLeft (MapM.okIff.mp hm) ty ((tcx.hashOrder.mem deps ty).mpr inside)
  cases Except.ok.inj (project.symm.trans projected)
  have here : (p, TrackedTy.erased mapped.toFinset) ∈
      paths.filter (fun path => decide (path.1 = p)) := by
    simp [hpath]
  exact ⟨_, List.mem_map_of_mem here, List.mem_toFinset.mpr he'⟩

theorem injectGet {places places' : PlaceMap} {place : Place} {ty old : TrackedTy}
    (known : places.get place = some old)
    (h : inject tcx body defId places place ty = .ok places') :
    ∃ paths, transformedPaths tcx body defId place ty = .ok paths ∧
      ∀ p, places'.get p = (places.get p).map (fun before =>
        (if p = place then (before.join ty).1 else before).joinMany (broughtTo p paths)) := by
  obtain ⟨paths, hp, after⟩ := propagateGet h
  refine ⟨paths, hp, ?_⟩
  intro p
  rw [after p, HashMap.getModifyOrInsert]
  by_cases same : p = place
  · subst same
    simp [known]
  · simp [same]

theorem updateWithGet {s' : CollectorDomain} {place : Place} {ty : TrackedTy}
    (h : updateWith tcx body defId self place ty = .ok s') :
    ∃ old paths, self.places.get place = some old ∧
      transformedPaths tcx body defId place (old.join ty).1 = .ok paths ∧
      ∀ p, s'.places.get p = (self.places.get p).map (fun before =>
        (if p = place then (before.join ty).1 else before).joinMany (broughtTo p paths)) := by
  obtain ⟨old, found, later⟩ := bindOk h
  obtain ⟨places, hj, last⟩ := bindOk later
  have held := orMissingOk.mp found
  cases Except.ok.inj last
  obtain ⟨paths, hp, after⟩ := propagateGet hj
  refine ⟨old, paths, held, hp, ?_⟩
  intro p
  rw [after p, HashMap.getInsert]
  by_cases same : p = place
  · subst same
    simp [held]
  · simp [same]

theorem joinPlacesGet {entries : List (Place × TrackedTy)} :
    ∀ {acc out : PlaceMap × Bool}, (entries.map Prod.fst).Nodup →
      entries.foldlM (fun acc entry => do
        let old ← acc.1.get entry.1
        let joined := old.join entry.2
        some (acc.1.insert entry.1 joined.1, acc.2 || joined.2)) acc = some out →
      ∀ p, out.1.get p = (acc.1.get p).map (fun old =>
        old.joinMany (entries.lookup p).toList) := by
  induction entries with
  | nil =>
    intro acc out _ h p
    cases Option.some.inj h
    simp [TrackedTy.joinMany]
  | cons entry rest ih =>
    intro acc out distinct h p
    obtain ⟨fresh, distinct⟩ := List.nodup_cons.mp distinct
    simp only [List.foldlM_cons, bind, Option.bind_eq_some_iff] at h
    obtain ⟨next, ⟨old, hold, last⟩, h⟩ := h
    cases Option.some.inj last
    rw [ih distinct h p, List.lookup_cons, HashMap.getInsert]
    by_cases here : p = entry.1
    · have absent : rest.lookup p = none := HashMap.lookupNone.mpr (here ▸ fresh)
      simp [here, here ▸ absent, hold, TrackedTy.joinMany]
    · simp [here, beq_eq_false_iff_ne.mpr here]

theorem joinGet {s' : CollectorDomain} {changed : Bool} (h : self.join other = some (s', changed))
    (p : Place) : s'.places.get p =
      (self.places.get p).map (fun old => old.joinMany (other.places.get p).toList) := by
  simp only [join, bind, Option.bind_eq_some_iff] at h
  obtain ⟨joined, hj, last⟩ := h
  cases Option.some.inj last
  exact joinPlacesGet other.places.distinct hj p

theorem updateWithCalls {s' : CollectorDomain} {place : Place} {ty : TrackedTy}
    (h : updateWith tcx body defId self place ty = .ok s') :
    s'.calls = self.calls ∧ s'.unhandled = self.unhandled := by
  obtain ⟨_, _, later⟩ := bindOk h
  obtain ⟨_, _, last⟩ := bindOk later
  cases Except.ok.inj last
  exact ⟨rfl, rfl⟩

theorem joinCalls {s' : CollectorDomain} {changed : Bool}
    (h : self.join other = some (s', changed)) :
    s'.calls = self.calls ∪ other.calls ∧ s'.unhandled = self.unhandled ∪ other.unhandled := by
  simp only [join, bind, Option.bind_eq_some_iff] at h
  obtain ⟨_, _, last⟩ := h
  cases last
  exact ⟨rfl, rfl⟩

end

end CollectorDomain
end Scrutinizer
