import Scrutinizer.JoinedPlaces
import Scrutinizer.TupleMachine

/-! Whether the tracked types of places cover what the places hold after a run of assignments.
The type tracked for a tuple follows the assignments to the tuple and to tuples around it; it
does not follow a write into the tuple. -/
namespace Scrutinizer
open CollectorDomain

/- What rustc and rustc_utils say of a body whose locals hold tuples, and no closures. -/
structure TupleFragment (tcx : TyCtxt) (defId : DefId) (body : Body) : Prop where
  normalized : ∀ place ty, declared body place = some ty → tcx.normalize defId place = place
  listed : ∀ place ty, declared body place = some ty → place ∈ tcx.allPlaces defId body
  interior : ∀ place ty path part, declared body place = some ty →
    ty.component path = some part → path ≠ [] →
      place.extend path ∈ tcx.interiorPaths defId body place
  closureFree : ∀ ty ∈ body.localDecls, ty.containsClosure = false

structure Tracks (ty : Ty) (tracked : TrackedTy) (value : Ty) : Prop where
  hidden : ∀ path part, ty.component path = some part → part.isHidden = true →
    ∃ d ∈ tracked.types, d.component path = value.component path
  plain : containsErased ty = false → value ∈ tracked.types

structure Sound (body : Body) (m : Machine) (places : PlaceMap) : Prop where
  shape : ∀ place ty, declared body place = some ty →
    ∃ tracked, places.get place = some tracked ∧ TrackedTy.Describes ty tracked
  fits : m.Fits body
  gave : ∀ place ty tracked given, declared body place = some ty →
    places.get place = some tracked → m.Gave place given → Tracks ty tracked given
  current : m.Current body

namespace Tracks
variable {ty value : Ty} {tracked wider : TrackedTy}

theorem mono (h : Tracks ty tracked value) (grows : tracked.types ⊆ wider.types) :
    Tracks ty wider value := by
  constructor
  · intro path part hc hidden
    obtain ⟨d, hd, same⟩ := h.hidden path part hc hidden
    exact ⟨d, grows hd, same⟩
  · exact fun plain => grows (h.plain plain)

theorem nonempty (h : Tracks ty tracked value) : tracked.types.Nonempty := by
  cases erased : containsErased ty with
  | true =>
    obtain ⟨path, part, hc, hidden⟩ := Ty.hiddenInside erased
    obtain ⟨d, hd, _⟩ := h.hidden path part hc hidden
    exact ⟨d, hd⟩
  | false => exact ⟨value, h.plain erased⟩

theorem itself (mem : value ∈ tracked.types) : Tracks ty tracked value :=
  ⟨fun _ _ _ _ => ⟨value, mem, rfl⟩, fun _ => mem⟩

end Tracks

theorem allPresent {members : List TrackedTy} (h : members.all TrackedTy.isPresent = true) :
    ∃ tys : List Ty, members = tys.map .present := by
  induction members with
  | nil => exact ⟨[], rfl⟩
  | cons t rest ih =>
    rw [List.all_cons, Bool.and_eq_true] at h
    obtain ⟨tys, rfl⟩ := ih h.2
    cases t with
    | present ty => exact ⟨ty :: tys, rfl⟩
    | erased => simp [TrackedTy.isPresent] at h

theorem tuplePresent (order : HashOrder Ty) {tys : List Ty}
    (known : ∀ ty ∈ tys, containsErased ty = false) :
    tupleTrackedTy order (tys.map .present) = .present (.tuple tys) := by
  have all : (tys.map TrackedTy.present).all TrackedTy.isPresent = true := by
    simp [TrackedTy.isPresent]
  have same : (tys.map TrackedTy.present).flatMap (TrackedTy.intoVec order) = tys := by
    simp [List.flatMap_map, TrackedTy.intoVec]
  have whole : containsErased (.tuple tys) = false := by
    have none := mt (Ty.erasedTuple tys).mp (by grind)
    simpa using none
  rw [tupleTrackedTy, all, if_pos rfl, same, TrackedTy.fromTyPresent whole]

def Settled (tracked : TrackedTy) : Prop := ∀ ty, tracked = .present ty → containsErased ty = false

theorem memTuple (order : HashOrder Ty) {members : List TrackedTy} {picks : List Ty}
    (settled : ∀ t ∈ members, Settled t)
    (h : List.Forall₂ (fun t (pick : Ty) => pick ∈ t.types) members picks) :
    .tuple picks ∈ (tupleTrackedTy order members).types := by
  cases all : members.all TrackedTy.isPresent with
  | true =>
    obtain ⟨tys, rfl⟩ := allPresent all
    have same : picks = tys := by
      rw [List.forall₂_map_left_iff] at h
      exact (List.forall₂_eq_eq_eq ▸ h.imp (fun ty pick mem => (Finset.mem_singleton.mp mem).symm)
        : tys = picks).symm
    have known : ∀ ty ∈ tys, containsErased ty = false := fun ty mem =>
      settled _ (List.mem_map_of_mem mem) ty rfl
    rw [tuplePresent order known, same]
    exact Finset.mem_singleton_self _
  | false =>
    have nonempty : members.map (TrackedTy.intoVec order) ≠ [] := by
      intro none
      simp [List.map_eq_nil_iff.mp none] at all
    have listed : List.Forall₂ (fun pick options => pick ∈ options) picks
        (members.map (TrackedTy.intoVec order)) := by
      rw [List.forall₂_map_right_iff]
      exact h.flip.imp (fun pick t mem => (TrackedTy.memIntoVec order t pick).mpr mem)
    rw [tupleTrackedTy, all]
    simp only [Bool.false_eq_true, if_false, TrackedTy.types, List.mem_toFinset]
    exact List.mem_map_of_mem (memProduct.mpr ⟨nonempty, listed⟩)

theorem pickEach {members : List TrackedTy} (some_ : ∀ t ∈ members, t.types.Nonempty) :
    ∃ picks, List.Forall₂ (fun t (pick : Ty) => pick ∈ t.types) members picks := by
  induction members with
  | nil => exact ⟨[], .nil⟩
  | cons t rest ih =>
    obtain ⟨pick, mem⟩ := some_ t List.mem_cons_self
    obtain ⟨picks, all⟩ := ih (fun t' mem' => some_ t' (List.mem_cons_of_mem _ mem'))
    exact ⟨pick :: picks, .cons mem all⟩

inductive TracksEach : List Ty → List TrackedTy → List Ty → Prop where
  | nil : TracksEach [] [] []
  | cons {ty tys t ts v vs} (first : Tracks ty t v) (tail : TracksEach tys ts vs) :
      TracksEach (ty :: tys) (t :: ts) (v :: vs)

namespace TracksEach
variable {tys values : List Ty} {members : List TrackedTy}

theorem at_ (h : TracksEach tys members values) : ∀ {idx : Nat} {ty : Ty},
    tys[idx]? = some ty → ∃ t v, members[idx]? = some t ∧ values[idx]? = some v ∧ Tracks ty t v := by
  induction h with
  | nil => intro idx ty none; simp at none
  | cons first tail ih =>
    intro idx ty there
    cases idx with
    | zero => cases Option.some.inj there; exact ⟨_, _, rfl, rfl, first⟩
    | succ idx => exact ih there

theorem nonempty (h : TracksEach tys members values) : ∀ t ∈ members, t.types.Nonempty := by
  induction h with
  | nil => intro t mem; cases mem
  | cons first tail ih =>
    intro t mem
    cases List.mem_cons.mp mem with
    | inl head => exact head ▸ first.nonempty
    | inr later => exact ih t later

theorem plain (h : TracksEach tys members values) (known : ∀ ty ∈ tys, containsErased ty = false) :
    List.Forall₂ (fun t v => v ∈ t.types) members values := by
  induction h with
  | nil => exact .nil
  | cons first tail ih =>
    obtain ⟨head, rest⟩ := List.forall_mem_cons.mp known
    exact .cons (first.plain head) (ih rest)

theorem tuple (order : HashOrder Ty) (h : TracksEach tys members values)
    (closureFree : (Ty.tuple tys).containsClosure = false)
    (settled : ∀ t ∈ members, Settled t) :
    Tracks (.tuple tys) (tupleTrackedTy order members) (.tuple values) := by
  constructor
  · intro path part hc hidden
    cases path with
    | nil =>
      rw [Ty.componentNil] at hc
      cases Option.some.inj hc
      simp [Ty.isHidden] at hidden
    | cons elem rest =>
      obtain ⟨_, idx, field, same, rfl, hf, hc⟩ := Ty.componentCons hc
      cases Ty.tuple.inj same
      obtain ⟨t, v, ht, hv, tracks⟩ := h.at_ hf
      obtain ⟨d, hd, agree⟩ := tracks.hidden rest part hc hidden
      obtain ⟨picks, all⟩ := pickEach h.nonempty
      have exchanged := MapM.setRight all ht hd
      have there : (picks.set idx d)[idx]? = some d := by
        obtain ⟨pick, hp, _⟩ := MapM.atLeft all ht
        obtain ⟨bound, _⟩ := List.getElem?_eq_some_iff.mp hp
        simp [bound]
      refine ⟨_, memTuple order settled exchanged, ?_⟩
      rw [Ty.componentField there, Ty.componentField hv, agree]
  · intro known
    have clean : ∀ ty ∈ tys, containsErased ty = false := by
      have none := mt (Ty.erasedTuple tys).mpr (by simp [known])
      grind
    exact memTuple order settled (h.plain clean)

end TracksEach

section
variable {tcx : TyCtxt} {defId : DefId} {body : Body} {m : Machine} {place : Place} {ty value : Ty}

theorem TupleFragment.free (fragment : TupleFragment tcx defId body)
    (h : declared body place = some ty) : ty.containsClosure = false := by
  simp only [declared, Option.bind_eq_some_iff] at h
  obtain ⟨decl, hd, hc⟩ := h
  exact (Ty.componentPlain hc (fragment.closureFree decl (List.mem_of_getElem? hd))).1

theorem placeTracks (fragment : TupleFragment tcx defId body) {s : CollectorDomain}
    (sound : Sound body m s.places) (h : declared body place = some ty)
    (fresh : m.UpToDate body place) (read : m.read place = some value) {tracked : TrackedTy}
    (known : s.get place = some tracked) : Tracks ty tracked value ∧ Settled tracked := by
  obtain ⟨tracked', known', shape⟩ := sound.shape place ty h
  cases Option.some.inj (known.symm.trans known')
  constructor
  · constructor
    · intro path part hc hidden
      obtain ⟨given, gave, same⟩ := fresh ty path part h hc hidden
      obtain ⟨d, hd, agree⟩ := (sound.gave place ty tracked given h known gave).hidden path part hc hidden
      exact ⟨d, hd, by rw [agree, same, Machine.readInside read path]⟩
    · intro plain
      have same := Ty.fitsPlain (fragment.free h) plain (Machine.readFits sound.fits h read)
      rw [TrackedTy.describedPresent shape plain, same]
      exact Finset.mem_singleton_self ty
  · intro t present
    subst present
    exact shape.1 ▸ shape.2

variable (fragment : TupleFragment tcx defId body) {inst : Instance} (here : inst.defId = defId)
  {s : CollectorDomain} (sound : Sound body m s.places)
include fragment here sound

theorem operandTracks {op : Operand} {tracked : TrackedTy} (has : op.HasTy body ty)
    (fresh : ∀ place ∈ op.reads, m.UpToDate body place) (held : m.operand op = some value)
    (known : op.trackedTy tcx body inst s = some tracked) :
    Tracks ty tracked value ∧ Settled tracked ∧ ty.fits value = true := by
  have ofPlace : ∀ place, declared body place = some ty → m.UpToDate body place →
      m.read place = some value → place.trackedTy tcx body inst s = some tracked →
        Tracks ty tracked value ∧ Settled tracked ∧ ty.fits value = true := by
    intro place h fresh read known
    obtain ⟨tracked', known', _⟩ := sound.shape place ty h
    have same : s.get place = some tracked := by
      rw [Place.trackedTy, here, fragment.normalized place ty h, CollectorDomain.get, known'] at known
      rw [CollectorDomain.get, known', Option.some.inj known]
    obtain ⟨tracks, settled⟩ := placeTracks fragment sound h fresh read same
    exact ⟨tracks, settled, Machine.readFits sound.fits h read⟩
  cases has with
  | @copy place _ at_ => exact ofPlace place at_ (fresh place (by simp [Operand.reads, Operand.place])) held known
  | @move place _ at_ => exact ofPlace place at_ (fresh place (by simp [Operand.reads, Operand.place])) held known
  | constant plain fit =>
    cases Option.some.inj held
    cases Option.some.inj known
    rw [TrackedTy.fromTyPresent plain]
    refine ⟨.itself (Finset.mem_singleton_self _), ?_, fit⟩
    intro t same
    cases same
    exact plain

theorem operandsTrack {ops : List Operand} {tys values : List Ty} {members : List TrackedTy}
    (has : List.Forall₂ (Operand.HasTy body) ops tys)
    (fresh : ∀ op ∈ ops, ∀ place ∈ op.reads, m.UpToDate body place)
    (held : ops.mapM m.operand = some values)
    (known : ops.mapM (Operand.trackedTy tcx body inst s) = some members) :
    TracksEach tys members values ∧ (∀ t ∈ members, Settled t) ∧
      List.Forall₂ (fun ty v => ty.fits v = true) tys values := by
  rw [MapM.someIff] at held known
  induction has generalizing values members with
  | nil =>
    cases held
    cases known
    exact ⟨.nil, by simp, .nil⟩
  | cons first rest ih =>
    cases held with
    | cons headValue restValues =>
      cases known with
      | cons headKnown restKnown =>
        obtain ⟨freshHead, freshRest⟩ := List.forall_mem_cons.mp fresh
        obtain ⟨tracks, settled, fit⟩ :=
          operandTracks fragment here sound first freshHead headValue headKnown
        obtain ⟨each, allSettled, fits⟩ := ih freshRest restValues restKnown
        exact ⟨.cons tracks each, List.forall_mem_cons.mpr ⟨settled, allSettled⟩, .cons fit fits⟩

theorem rvalueTracks {rvalue : Rvalue} {tracked : TrackedTy} {closures closures' : ClosureInfoStorage}
    (free : ty.containsClosure = false) (has : rvalue.HasTy body ty)
    (fresh : ∀ place ∈ rvalue.reads, m.UpToDate body place) (held : m.rvalue rvalue = some value)
    (known : rvalue.trackedTy tcx body inst s closures = some (tracked, closures')) :
    Tracks ty tracked value ∧ ty.fits value = true := by
  cases has with
  | useOperand operand =>
    simp only [Rvalue.trackedTy, bind, Option.bind_eq_some_iff] at known
    obtain ⟨t, ht, last⟩ := known
    cases Option.some.inj last
    obtain ⟨tracks, _, fit⟩ := operandTracks fragment here sound operand fresh held ht
    exact ⟨tracks, fit⟩
  | unsize operand single hidden =>
    simp only [Rvalue.trackedTy, bind, Option.bind_eq_some_iff] at known
    obtain ⟨t, ht, last⟩ := known
    cases Option.some.inj last
    obtain ⟨tracks, _, _⟩ := operandTracks fragment here sound operand fresh held ht
    have mem : value ∈ t.types := by
      cases single with
      | inl hides =>
        obtain ⟨d, hd, same⟩ := tracks.hidden [] _ (Ty.componentNil _) hides
        rw [Ty.componentNil, Ty.componentNil] at same
        exact Option.some.inj same ▸ hd
      | inr plain => exact tracks.plain plain
    exact ⟨.itself mem, Ty.fitsHidden hidden value⟩
  | tuple operands =>
    simp only [Rvalue.trackedTy, bind, Option.bind_eq_some_iff] at known
    obtain ⟨members, hm, last⟩ := known
    cases Option.some.inj last
    simp only [Machine.rvalue, Option.map_eq_some_iff] at held
    obtain ⟨values, hv, rfl⟩ := held
    have freshEach : ∀ op ∈ _, ∀ place ∈ Operand.reads op, m.UpToDate body place :=
      fun op mem place inside => fresh place (List.mem_flatMap.mpr ⟨op, mem, inside⟩)
    obtain ⟨each, settled, fits⟩ := operandsTrack fragment here sound operands freshEach hv hm
    exact ⟨each.tuple tcx.hashOrder free settled, Ty.fitsListOf fits⟩

end

section
variable {tcx : TyCtxt} {defId : DefId} {body : Body} {m next : Machine} {place : Place}
  {ty value : Ty} {tracked spread : TrackedTy} {before after : PlaceMap}

theorem arrivesInside (change : Joined tcx defId body ty place tracked spread before after)
    (fragment : TupleFragment tcx defId body) (at_ : declared body place = some ty)
    {path : List PlaceElem} {part d e : Ty} (hc : ty.component path = some part)
    (erased : containsErased part = true) {old new : TrackedTy}
    (hold : before.get (place.extend path) = some old) (shape : TrackedTy.Describes part old)
    (hnew : after.get (place.extend path) = some new) (hd : d ∈ tracked.types)
    (he : d.component path = some e) : e ∈ new.types := by
  obtain ⟨_, up⟩ := Ty.componentPlain hc (fragment.free at_)
  obtain ⟨deps, rfl⟩ := TrackedTy.describedErased shape erased
  refine change.arrives (up erased) hold hnew hd ?_
  by_cases whole : path = []
  · subst whole
    rw [Ty.componentNil] at he
    exact .inl ⟨by simp [Place.extend], (Option.some.inj he).symm⟩
  · have inside := fragment.interior place ty path part at_ hc whole
    have fixed := fragment.normalized (place.extend path) part
      ((declaredInside at_ path).trans hc)
    exact .inr ⟨List.mem_map.mpr ⟨_, List.mem_append_left _ inside, fixed⟩,
      projectTailComponent tcx at_ he⟩

theorem tracksInside (change : Joined tcx defId body ty place tracked spread before after)
    (fragment : TupleFragment tcx defId body) (at_ : declared body place = some ty)
    (fit : ty.fits value = true) (tracks : Tracks ty tracked value) {path : List PlaceElem}
    {part given : Ty} (hc : ty.component path = some part)
    (hv : value.component path = some given) {old new : TrackedTy}
    (hold : before.get (place.extend path) = some old) (shape : TrackedTy.Describes part old)
    (hnew : after.get (place.extend path) = some new) : Tracks part new given := by
  obtain ⟨free, _⟩ := Ty.componentPlain hc (fragment.free at_)
  constructor
  · intro rest inner hi hidden
    have erased : containsErased part = true :=
      (Ty.componentPlain hi free).2 (Ty.hiddenErased hidden)
    have whole : ty.component (path ++ rest) = some inner := by
      rw [Ty.componentAppend, hc]
      exact hi
    obtain ⟨w, hw, _⟩ := Ty.fitsComponent fit whole
    obtain ⟨d, hd, same⟩ := tracks.hidden (path ++ rest) inner whole hidden
    rw [hw, Ty.componentAppend, Option.bind_eq_some_iff] at same
    obtain ⟨e, he, agree⟩ := same
    rw [Ty.componentAppend, hv] at hw
    exact ⟨e, arrivesInside change fragment at_ hc erased hold shape hnew hd he, agree.trans hw.symm⟩
  · intro plain
    obtain ⟨v, hv', fit'⟩ := Ty.fitsComponent fit hc
    cases Option.some.inj (hv.symm.trans hv')
    obtain ⟨new', hnew', _, kept⟩ := change.keeps _ _ hold
    cases Option.some.inj (hnew.symm.trans hnew')
    rw [Ty.fitsPlain free plain fit', TrackedTy.describedPresent (kept part shape) plain]
    exact Finset.mem_singleton_self part

theorem soundWrite (fragment : TupleFragment tcx defId body) (sound : Sound body m before)
    (change : Joined tcx defId body ty place tracked spread before after)
    (at_ : declared body place = some ty) (fit : ty.fits value = true)
    (tracks : Tracks ty tracked value) (wrote : m.write place value = some next) :
    Sound body next after := by
  constructor
  · intro p ty' hp
    obtain ⟨old, ho, shape⟩ := sound.shape p ty' hp
    obtain ⟨new, hn, _, kept⟩ := change.keeps _ _ ho
    exact ⟨new, hn, kept ty' shape⟩
  · exact Machine.writeFits at_ wrote sound.fits fit
  · intro p ty' new given hp hn gave
    obtain ⟨old, ho, shape⟩ := sound.shape p ty' hp
    obtain ⟨changed, rfl, _, _⟩ := Machine.writeHold wrote
    cases Machine.gaveHold.mp gave with
    | inl earlier =>
      obtain ⟨new', hn', grows, _⟩ := change.keeps _ _ ho
      cases Option.some.inj (hn.symm.trans hn')
      exact (sound.gave p ty' old given hp ho earlier).mono grows
    | inr now =>
      obtain ⟨path, rfl, hv⟩ := now
      have hc := (declaredInside at_ path).symm.trans hp
      exact tracksInside change fragment at_ fit tracks hc hv ho shape hn
  · exact Machine.writeCurrent at_ wrote sound.current

end

inductive KnownArgs (body : Body) : Nat → List TrackedTy → List Ty → Prop where
  | nil {idx} : KnownArgs body idx [] []
  | cons {idx tracked rest value values ty} (at_ : body.localDecls[idx + 1]? = some ty)
      (fit : ty.fits value = true) (shape : TrackedTy.Describes ty tracked)
      (passed : value ∈ tracked.types)
      (tail : KnownArgs body (idx + 1) rest values) :
      KnownArgs body idx (tracked :: rest) (value :: values)

section
variable {tcx : TyCtxt} {c : Collector}
  (fragment : TupleFragment tcx c.defId c.substitutedBody)
include fragment

theorem soundDeclared {entries : List (Place × TrackedTy)}
    (h : (tcx.allPlaces c.defId c.substitutedBody).mapM (Collector.declaredPlace tcx c) =
      some entries) :
    Sound c.substitutedBody Machine.empty (HashMap.fromIter entries) := by
  constructor
  · intro place ty at_
    exact ⟨.fromTy ty, Collector.declaredShape h (fragment.listed place ty at_)
      (fragment.normalized place ty at_) (declaredTy tcx at_), TrackedTy.fromTyDescribes ty⟩
  · intro base ty value _ none
    cases none
  · intro place ty tracked given _ _ gave
    obtain ⟨_, _, _, none, _⟩ := gave
    cases none
  · intro place ty value _ _ none
    cases none

theorem soundArgs {tys : List TrackedTy} {values : List Ty} {idx : Nat}
    (known : KnownArgs c.substitutedBody idx tys values) : ∀ {m : Machine} {places places' : PlaceMap},
      Sound c.substitutedBody m places →
      (tys.zipIdx idx).foldlM (fun places arg => inject tcx c.substitutedBody c.defId places
        (tcx.normalize c.defId (.fromLocal (arg.2 + 1))) arg.1) places = .ok places' →
      Sound c.substitutedBody ((values.zipIdx idx).foldl (fun m value =>
        m.hold (value.2 + 1) value.1 (.fromLocal (value.2 + 1)) value.1) m) places' := by
  induction known with
  | nil =>
    intro m places places' sound h
    cases Except.ok.inj h
    exact sound
  | @cons idx tracked rest value values ty at_ fit argShape passed tail ih =>
    intro m places places' sound h
    have here : declared c.substitutedBody (.fromLocal (idx + 1)) = some ty := by
      simp [declared, Place.fromLocal, at_]
    obtain ⟨old, ho, shape⟩ := sound.shape _ ty here
    rw [List.zipIdx_cons, List.foldlM_cons, fragment.normalized _ ty here] at h
    cases hi : inject tcx c.substitutedBody c.defId places (.fromLocal (idx + 1)) tracked with
    | error e =>
      rw [hi] at h
      contradiction
    | ok next =>
      rw [hi] at h
      have change := joinedInject ho (TrackedTy.describedErased argShape) hi
      exact ih (soundWrite fragment sound change here fit (.itself passed) rfl) h

theorem soundBottom {inst : Instance} {args : ArgTys} {values : List Ty}
    (isFunction : c.currentFunction = .function inst args)
    (noClosure : tcx.isClosure c.defId = false)
    (known : KnownArgs c.substitutedBody 0 args.argTys values) (session : Session) :
    Exec.wp (Collector.bottomValue tcx c)
      (fun bottom _ => Sound c.substitutedBody (Machine.called values) bottom.places)
      (fun _ => True) session := by
  refine Collector.wpBottom isFunction session ?_
  intro entries places entered injected
  simp only [augmentWithArgs, noClosure, Bool.false_eq_true, if_false, List.drop_zero] at injected
  exact soundArgs fragment known (soundDeclared fragment entered) injected

theorem soundStep {m next : Machine} {s : CollectorDomain} {statement : Statement}
    (sound : Sound c.substitutedBody m s.places) (has : statement.HasTy c.substitutedBody)
    (fresh : ∀ place ∈ statement.reads, m.UpToDate c.substitutedBody place)
    (stepped : m.step statement = some next) (session : Session) :
    Exec.wp (Collector.applyStatementEffect tcx c s statement)
      (fun s' _ => Sound c.substitutedBody next s'.places) (fun _ => True) session := by
  cases has with
  | other =>
    cases Option.some.inj stepped
    exact sound
  | @assign place rvalue ty at_ has =>
    simp only [Machine.step, Option.bind_eq_some_iff] at stepped
    obtain ⟨value, held, wrote⟩ := stepped
    refine Collector.wpAssign session (fragment.normalized place ty at_) ?_
    intro tracked closures after known updated
    obtain ⟨tracks, fit⟩ :=
      rvalueTracks fragment rfl sound (fragment.free at_) has fresh held known
    obtain ⟨old, ho, shape⟩ := sound.shape place ty at_
    exact soundWrite fragment sound (joinedUpdate ho shape updated) at_ fit tracks wrote

theorem soundRun {statements : List Statement}
    (has : ∀ statement ∈ statements, statement.HasTy c.substitutedBody) :
    ∀ {m final : Machine} {s : CollectorDomain} {session : Session},
      Sound c.substitutedBody m s.places → m.Faithful c.substitutedBody statements →
      m.run statements = some final →
      Exec.wp (statements.foldlM (Collector.applyStatementEffect tcx c) s)
        (fun s' _ => Sound c.substitutedBody final s'.places) (fun _ => True) session := by
  intro m final s session sound faithful ran
  let Follows (rest : List Statement) (m : Machine) (s : CollectorDomain) : Prop :=
    Sound c.substitutedBody m s.places ∧ m.Faithful c.substitutedBody rest ∧ ∀ statement ∈ rest, statement.HasTy c.substitutedBody
  have each : ∀ statement rest m s session next, Follows (statement :: rest) m s →
      m.step statement = some next →
        Exec.wp (Collector.applyStatementEffect tcx c s statement) (fun s' _ => Follows rest next s')
          (fun _ => True) session := by
    intro statement rest m s session next follows stepped
    obtain ⟨sound, ⟨fresh, later⟩, has⟩ := follows
    obtain ⟨first, tail⟩ := List.forall_mem_cons.mp has
    exact Exec.wpMono (soundStep fragment sound first fresh stepped session)
      (fun _ _ sound' => ⟨sound', later next stepped, tail⟩) (fun _ h => h)
  have run := Exec.wpFollows Follows each statements session ⟨sound, faithful, has⟩ ran
  exact Exec.wpMono run (fun _ _ kept => kept.1) (fun _ h => h)

theorem heldIsTracked {inst : Instance} {args : ArgTys} {values : List Ty}
    (isFunction : c.currentFunction = .function inst args)
    (noClosure : tcx.isClosure c.defId = false)
    (known : KnownArgs c.substitutedBody 0 args.argTys values) {statements : List Statement}
    (has : ∀ statement ∈ statements, statement.HasTy c.substitutedBody) {final : Machine}
    (ran : (Machine.called values).run statements = some final)
    (faithful : (Machine.called values).Faithful c.substitutedBody statements)
    {session session' : Session} {state : CollectorDomain}
    (analysed : c.assignments tcx statements session = (some state, session')) :
    ∀ place ty deps value, declared c.substitutedBody place = some ty → ty.isHidden = true →
      state.get place = some (.erased deps) → deps.Nonempty →
        final.read place = some value → value ∈ deps := by
  have run : Exec.wp (c.assignments tcx statements)
      (fun s' _ => Sound c.substitutedBody final s'.places) (fun _ => True) session := by
    rw [Collector.assignments, Exec.wpBind]
    refine Exec.wpMono (soundBottom fragment isFunction noClosure known session) ?_ (fun _ h => h)
    exact fun bottom session' sound => soundRun fragment has sound faithful ran
  have sound := Exec.wpResult run analysed
  intro place ty deps value at_ hidden tracked _ read
  have gave := sound.current place ty value at_ hidden read
  obtain ⟨d, hd, same⟩ := (sound.gave place ty _ value at_ tracked gave).hidden [] ty (Ty.componentNil ty) hidden
  rw [Ty.componentNil, Ty.componentNil] at same
  exact Option.some.inj same ▸ hd

end

theorem plainFragment (order : HashOrder Ty) (defId : DefId) {body : Body}
    (closureFree : ∀ ty ∈ body.localDecls, ty.containsClosure = false) :
    TupleFragment (TyCtxt.plain order) defId body := by
  constructor
  · exact fun place ty _ => rfl
  · intro place ty h
    simp only [declared, Option.bind_eq_some_iff] at h
    obtain ⟨decl, hd, hc⟩ := h
    have there : (decl, place.base) ∈ body.localDecls.zipIdx :=
      List.mem_zipIdx_iff_getElem?.mpr hd
    exact List.mem_flatMap.mpr ⟨_, there, List.mem_map.mpr ⟨_, Ty.memFieldPaths hc, rfl⟩⟩
  · intro place ty path part h hc _
    have found : (body.localDecls[place.base]?).bind
        (fun ty => ty.component place.projection) = some ty := h
    simp only [TyCtxt.plain, found]
    exact List.mem_map_of_mem (Ty.memFieldPaths hc)
  · exact closureFree

def boxOf (did : DefId) : Ty := .adt 8 [.adt did []]

def boxDyn : Ty := .adt 8 [.dynamic 9 []]

noncomputable def boxCrate : TyCtxt := TyCtxt.plain
  (.listed [boxOf 1, boxOf 2, .tuple [boxOf 1], .tuple [boxOf 2]] (by decide))

def boxBody : Body :=
  ⟨2, [Ty.unit, boxOf 1, boxOf 2, .tuple [boxDyn], .tuple [boxDyn], boxDyn, boxDyn],
    [.returning], [], 0⟩

def boxArgs : ArgTys := ⟨[.present (boxOf 1), .present (boxOf 2)]⟩

def boxWriter : Collector := ⟨[], [], .function ⟨.item, 0, []⟩ boxArgs, boxBody, false⟩

def overwritten : List Statement :=
  [.assign (.fromLocal 5) (.cast .unsize (.move (.fromLocal 1)) boxDyn),
   .assign (.fromLocal 6) (.cast .unsize (.move (.fromLocal 2)) boxDyn),
   .assign (.fromLocal 3) (.aggregate .tuple [.move (.fromLocal 5)]),
   .assign ⟨3, [.field 0]⟩ (.useOperand (.move (.fromLocal 6))),
   .assign (.fromLocal 4) (.useOperand (.move (.fromLocal 3)))]

theorem boxKnown : KnownArgs boxBody 0 boxArgs.argTys [boxOf 1, boxOf 2] :=
  .cons rfl rfl ⟨rfl, rfl⟩ (by decide) (.cons rfl rfl ⟨rfl, rfl⟩ (by decide) .nil)

theorem overwrittenTyped : ∀ statement ∈ overwritten, statement.HasTy boxBody := by
  simp only [overwritten, List.forall_mem_cons, List.not_mem_nil, false_implies, implies_true, and_true]
  refine ⟨.assign rfl (.unsize (.move rfl) (.inr rfl) rfl), .assign rfl (.unsize (.move rfl) (.inr rfl) rfl),
    .assign rfl (.tuple (.cons (.move rfl) .nil)), .assign rfl (.useOperand (.move rfl)),
    .assign rfl (.useOperand (.move rfl))⟩

theorem staleTuple : (∀ statement ∈ overwritten, statement.HasTy boxBody) ∧
    KnownArgs boxBody 0 boxArgs.argTys [boxOf 1, boxOf 2] ∧
    TupleFragment boxCrate boxWriter.defId boxBody ∧
    declared boxBody ⟨4, [.field 0]⟩ = some boxDyn ∧ boxDyn.isHidden = true ∧
    ((boxWriter.assignments boxCrate overwritten (Collector.startSession ⟨.item, 0, []⟩)).1.bind
      (fun state => state.get ⟨4, [.field 0]⟩)) = some (.erased {boxOf 1}) ∧
    ((Machine.called [boxOf 1, boxOf 2]).run overwritten).bind
      (fun final => final.read ⟨4, [.field 0]⟩) = some (boxOf 2) := by
  refine ⟨overwrittenTyped, boxKnown, plainFragment _ _ (by decide), rfl, rfl, ?_, rfl⟩
  decide +kernel

theorem Machine.upToDateWhole {m : Machine} {body : Body} {place : Place} {value : Ty}
    (gave : m.Gave place value) (read : m.read place = some value) : m.UpToDate body place :=
  fun _ path _ _ _ _ => ⟨value, gave, (readInside read path).symm⟩

def copied : List Statement :=
  [.assign (.fromLocal 5) (.cast .unsize (.move (.fromLocal 1)) boxDyn),
   .assign (.fromLocal 3) (.aggregate .tuple [.move (.fromLocal 5)]),
   .assign (.fromLocal 4) (.useOperand (.move (.fromLocal 3)))]

theorem copiedTracked : ∃ state session final,
    boxWriter.assignments boxCrate copied (Collector.startSession ⟨.item, 0, []⟩) =
      (some state, session) ∧
    (Machine.called [boxOf 1, boxOf 2]).run copied = some final ∧
    ∀ place ty deps value, declared boxBody place = some ty → ty.isHidden = true →
      state.get place = some (.erased deps) → deps.Nonempty →
        final.read place = some value → value ∈ deps := by
  have typed : ∀ statement ∈ copied, statement.HasTy boxBody := by
    simp only [copied, List.forall_mem_cons, List.not_mem_nil, false_implies, implies_true, and_true]
    exact ⟨.assign rfl (.unsize (.move rfl) (.inr rfl) rfl),
      .assign rfl (.tuple (.cons (.move rfl) .nil)), .assign rfl (.useOperand (.move rfl))⟩
  have faithful : (Machine.called [boxOf 1, boxOf 2]).Faithful boxBody copied := by
    refine ⟨?_, fun _ h1 => ⟨?_, fun _ h2 => ⟨?_, fun _ _ => trivial⟩⟩⟩
    · intro place mem
      cases List.mem_singleton.mp mem
      exact Machine.upToDateWhole ⟨.fromLocal 1, boxOf 1, [], by decide, rfl, rfl⟩ rfl
    · cases Option.some.inj h1
      intro place mem
      cases List.mem_singleton.mp mem
      exact Machine.upToDateWhole ⟨.fromLocal 5, boxOf 1, [], by decide, rfl, rfl⟩ rfl
    · cases Option.some.inj h1
      cases Option.some.inj h2
      intro place mem
      cases List.mem_singleton.mp mem
      exact Machine.upToDateWhole ⟨.fromLocal 3, .tuple [boxOf 1], [], by decide, rfl, rfl⟩ rfl
  obtain ⟨state, session, analysed⟩ : ∃ state session, boxWriter.assignments boxCrate copied
      (Collector.startSession ⟨.item, 0, []⟩) = (some state, session) := ⟨_, _, rfl⟩
  obtain ⟨final, ran⟩ : ∃ final, (Machine.called [boxOf 1, boxOf 2]).run copied = some final :=
    ⟨_, rfl⟩
  exact ⟨state, session, final, analysed, ran,
    heldIsTracked (plainFragment _ _ (by decide)) rfl rfl boxKnown typed ran faithful analysed⟩

end Scrutinizer
