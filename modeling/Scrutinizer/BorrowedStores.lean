import Scrutinizer.Borrows
import Scrutinizer.JoinedPlaces
import Scrutinizer.PlainCrate

/-! Whether the tracked types of places cover what references refer to after a run of
assignments. A type is tracked under the names it is assigned to; a store through a reference
is not tracked under the other names of the place that it changes. -/
namespace Scrutinizer
namespace Borrows
open CollectorDomain

/- What rustc_utils says of a body whose locals hold references. -/
structure Fragment (tcx : TyCtxt) (defId : DefId) (body : Body) : Prop where
  normalized : ∀ place ty, declared body place = some ty → tcx.normalize defId place = place
  listed : ∀ place ty, declared body place = some ty → place ∈ tcx.allPlaces defId body
  interior : ∀ place ty path part, declared body place = some ty →
    ty.pointee path = some part → place.extend path ∈ tcx.interiorPaths defId body place

def Shaped (body : Body) (places : PlaceMap) : Prop :=
  ∀ place ty, declared body place = some ty →
    ∃ tracked, places.get place = some tracked ∧ TrackedTy.Describes ty tracked

def Spread (body : Body) (places : PlaceMap) (place : Place) (assigned : Ty) : Prop :=
  ∀ path part shown, declared body (place.extend path) = some part → containsErased part = true →
    assigned.pointee path = some shown →
      ∃ deps, places.get (place.extend path) = some (.erased deps) ∧ shown ∈ deps

structure Sound (body : Body) (m : Machine) (places : PlaceMap) : Prop where
  shaped : Shaped body places
  spread : ∀ place assigned, (place, assigned) ∈ m.history → Spread body places place assigned

section
variable {tcx : TyCtxt} {defId : DefId} {body : Body} {place : Place} {ty assigned : Ty}
  {tracked spread : TrackedTy} {before after : PlaceMap}

theorem shapedKept (keeps : Keeps before after) (shaped : Shaped body before) :
    Shaped body after := by
  intro p ty at_
  obtain ⟨old, ho, shape⟩ := shaped p ty at_
  obtain ⟨new, hn, _, kept⟩ := keeps p old ho
  exact ⟨new, hn, kept ty shape⟩

theorem spreadKept (keeps : Keeps before after) (h : Spread body before place assigned) :
    Spread body after place assigned := by
  intro path part shown at_ erased hp
  obtain ⟨deps, ho, mem⟩ := h path part shown at_ erased hp
  obtain ⟨new, hn, grows, kept⟩ := keeps _ _ ho
  obtain ⟨deps', rfl⟩ := TrackedTy.describedErased (kept part erased) erased
  exact ⟨deps', hn, grows mem⟩

theorem spreadJoined (fragment : Fragment tcx defId body) (shaped : Shaped body before)
    (change : Joined tcx defId body ty place tracked spread before after)
    (at_ : declared body place = some ty)
    (mem : containsErased ty = true → assigned ∈ tracked.types) :
    Spread body after place assigned := by
  intro path part shown inside erased hp
  have hd := (declaredInside at_ path).symm.trans inside
  have whole : containsErased ty = true := (Ty.erasedPointee hd).trans erased
  obtain ⟨old, ho, shape⟩ := shaped _ part inside
  obtain ⟨deps, rfl⟩ := TrackedTy.describedErased shape erased
  obtain ⟨new, hn, _, kept⟩ := change.keeps _ _ ho
  obtain ⟨deps', rfl⟩ := TrackedTy.describedErased (kept part erased) erased
  refine ⟨deps', hn, change.arrives whole ho hn (mem whole) (.inr ⟨?_, projectTailPointee tcx at_ hp⟩)⟩
  have listed := fragment.interior place ty path part at_ hd
  have fixed := fragment.normalized _ part inside
  exact List.mem_map.mpr ⟨_, List.mem_append_left _ listed, fixed⟩

end

section
variable {tcx : TyCtxt} {defId : DefId} {body : Body} {m : Machine} {place : Place} {ty shown : Ty}
  {s : CollectorDomain} {inst : Instance}

theorem gaveTracked (sound : Sound body m s.places) (at_ : declared body place = some ty)
    (erased : containsErased ty = true) (gave : m.Gave place shown) :
    ∃ deps, s.places.get place = some (.erased deps) ∧ shown ∈ deps := by
  obtain ⟨target, assigned, path, mem, rfl, hp⟩ := gave
  exact sound.spread target assigned mem path ty shown at_ erased hp

theorem readTracked (fragment : Fragment tcx defId body) (here : inst.defId = defId)
    (sound : Sound body m s.places) (at_ : declared body place = some ty)
    (erased : containsErased ty = true) (fresh : m.UpToDate body place)
    (read : m.read body place = some shown) {tracked : TrackedTy}
    (known : place.trackedTy tcx body inst s = some tracked) :
    ∃ deps, tracked = .erased deps ∧ shown ∈ deps := by
  obtain ⟨deps, hg, mem⟩ := gaveTracked sound at_ erased (fresh ty shown at_ erased read)
  rw [Place.trackedTy, here, fragment.normalized place ty at_, CollectorDomain.get, hg] at known
  exact ⟨deps, (Option.some.inj known).symm, mem⟩

theorem plainTracked (fragment : Fragment tcx defId body) (here : inst.defId = defId)
    (sound : Sound body m s.places) (at_ : declared body place = some ty)
    (plain : containsErased ty = false) {tracked : TrackedTy}
    (known : place.trackedTy tcx body inst s = some tracked) : tracked = .present ty := by
  obtain ⟨tracked', hg, shape⟩ := sound.shaped place ty at_
  rw [Place.trackedTy, here, fragment.normalized place ty at_, CollectorDomain.get, hg] at known
  cases Option.some.inj known
  exact TrackedTy.describedPresent shape plain

theorem rvalueTracked (fragment : Fragment tcx defId body) (here : inst.defId = defId)
    (sound : Sound body m s.places) {rvalue : Rvalue} (has : HasTy body rvalue ty)
    (erased : containsErased ty = true) (fresh : ∀ place ∈ reads rvalue, m.UpToDate body place)
    {cell : Cell} (got : m.rvalue body rvalue = some cell)
    (shown_ : shows m.memory ty cell = some shown) {tracked : TrackedTy}
    {closures closures' : ClosureInfoStorage}
    (known : rvalue.trackedTy tcx body inst s closures = some (tracked, closures')) :
    shown ∈ tracked.types := by
  have copied : ∀ place, declared body place = some ty → m.UpToDate body place →
      fetch m.memory place = some cell → place.trackedTy tcx body inst s = some tracked →
        shown ∈ tracked.types := by
    intro place at_ fresh got known
    have read := fetchShows at_ got shown_
    obtain ⟨deps, rfl, mem⟩ := readTracked fragment here sound at_ erased fresh read known
    exact mem
  cases has with
  | constant plain => exact absurd (erased.symm.trans plain) (by simp)
  | copy at_ =>
    simp only [Rvalue.trackedTy, bind, Option.bind_eq_some_iff] at known
    obtain ⟨t, ht, last⟩ := known
    cases Option.some.inj last
    exact copied _ at_ (fresh _ (by simp [reads, Operand.place])) got ht
  | move at_ =>
    simp only [Rvalue.trackedTy, bind, Option.bind_eq_some_iff] at known
    obtain ⟨t, ht, last⟩ := known
    cases Option.some.inj last
    exact copied _ at_ (fresh _ (by simp [reads, Operand.place])) got ht
  | copyForDeref at_ =>
    simp only [Rvalue.trackedTy, bind, Option.bind_eq_some_iff] at known
    obtain ⟨t, ht, last⟩ := known
    cases Option.some.inj last
    exact copied _ at_ (fresh _ (by simp [reads])) got ht
  | ref at_ =>
    -- the referent is tracked, and a reference to each of its types
    simp only [Rvalue.trackedTy, bind, Option.bind_eq_some_iff] at known
    obtain ⟨t, ht, last⟩ := known
    cases Option.some.inj last
    obtain ⟨inner, read, rfl⟩ := borrowShows at_ got shown_
    rw [Ty.erasedRef] at erased
    obtain ⟨deps, rfl, mem⟩ :=
      readTracked fragment here sound at_ erased (fresh _ (by simp [reads])) read ht
    exact Finset.mem_image_of_mem _ mem
  | @unsize op place referent mutbl _ _ from_ at_ plain =>
    have plainRef : containsErased (.ref referent mutbl) = false :=
      (Ty.erasedRef referent mutbl).trans plain
    have cast : m.unsize body place = some cell →
        place.trackedTy tcx body inst s = some tracked → shown ∈ tracked.types := by
      intro got known
      rw [unsizeShows at_ got shown_, plainTracked fragment here sound at_ plainRef known]
      exact Finset.mem_singleton_self _
    simp only [Rvalue.trackedTy, bind, Option.bind_eq_some_iff] at known
    obtain ⟨t, ht, last⟩ := known
    cases Option.some.inj last
    cases from_ with
    | inl copy => subst copy; exact cast got ht
    | inr move => subst move; exact cast got ht

end

/- What the machine starts with: whatever its memory holds, the types its history names are
those of arguments, and the caller passed them. -/
def Passed (body : Body) (args : ArgTys) (start : Machine) : Prop :=
  ∀ place shown, (place, shown) ∈ start.history → ∃ tracked idx ty,
    (tracked, idx) ∈ args.argTys.zipIdx ∧ place = .fromLocal (idx + 1) ∧
    declared body place = some ty ∧ TrackedTy.Describes ty tracked ∧ shown ∈ tracked.types

section
variable {tcx : TyCtxt} {c : Collector} (fragment : Fragment tcx c.defId c.substitutedBody)

def injectArg (tcx : TyCtxt) (c : Collector) (places : PlaceMap) (arg : TrackedTy × Nat) :
    Except ProjectError PlaceMap :=
  inject tcx c.substitutedBody c.defId places (tcx.normalize c.defId (.fromLocal (arg.2 + 1))) arg.1

theorem injectsKeep {args : List (TrackedTy × Nat)} : ∀ {before after : PlaceMap},
    args.foldlM (injectArg tcx c) before = .ok after → Keeps before after := by
  induction args with
  | nil =>
    intro before after h
    cases Except.ok.inj h
    exact Keeps.refl before
  | cons arg rest ih =>
    intro before after h
    rw [List.foldlM_cons] at h
    cases hi : injectArg tcx c before arg with
    | error e => rw [hi] at h; contradiction
    | ok next =>
      rw [hi] at h
      exact Keeps.trans (keptInject hi) (ih h)

include fragment

theorem soundDeclared {entries : List (Place × TrackedTy)}
    (h : (tcx.allPlaces c.defId c.substitutedBody).mapM (Collector.declaredPlace tcx c) =
      some entries) : Shaped c.substitutedBody (HashMap.fromIter entries) := by
  intro place ty at_
  exact ⟨.fromTy ty, Collector.declaredShape h (fragment.listed place ty at_)
    (fragment.normalized place ty at_) (declaredTy tcx at_), TrackedTy.fromTyDescribes ty⟩

theorem injectsSpread {args : List (TrackedTy × Nat)} {tracked : TrackedTy} {idx : Nat}
    {ty shown : Ty} (mem : (tracked, idx) ∈ args)
    (at_ : declared c.substitutedBody (.fromLocal (idx + 1)) = some ty)
    (argShape : TrackedTy.Describes ty tracked) (passed : shown ∈ tracked.types) :
    ∀ {before after : PlaceMap}, Shaped c.substitutedBody before →
      args.foldlM (injectArg tcx c) before = .ok after →
      Spread c.substitutedBody after (.fromLocal (idx + 1)) shown := by
  induction args with
  | nil => exact absurd mem List.not_mem_nil
  | cons arg rest ih =>
    intro before after shaped h
    rw [List.foldlM_cons] at h
    cases hi : injectArg tcx c before arg with
    | error e => rw [hi] at h; contradiction
    | ok next =>
      rw [hi] at h
      cases List.mem_cons.mp mem with
      | inl head =>
        subst head
        obtain ⟨old, ho, _⟩ := shaped _ ty at_
        rw [injectArg, fragment.normalized _ ty at_] at hi
        have change := joinedInject ho (TrackedTy.describedErased argShape) hi
        exact spreadKept (injectsKeep h) (spreadJoined fragment shaped change at_ (fun _ => passed))
      | inr later => exact ih later (shapedKept (keptInject hi) shaped) h

theorem soundBottom {inst : Instance} {args : ArgTys} {start : Machine}
    (isFunction : c.currentFunction = .function inst args)
    (noClosure : tcx.isClosure c.defId = false)
    (passed : Passed c.substitutedBody args start) (session : Session) :
    Exec.wp (Collector.bottomValue tcx c)
      (fun bottom _ => Sound c.substitutedBody start bottom.places) (fun _ => True) session := by
  refine Collector.wpBottom isFunction session ?_
  intro entries places entered injected
  simp only [augmentWithArgs, noClosure, Bool.false_eq_true, if_false, List.drop_zero] at injected
  have shaped := soundDeclared fragment entered
  constructor
  · exact shapedKept (injectsKeep injected) shaped
  · intro place shown mem
    obtain ⟨tracked, idx, ty, arg, rfl, at_, shape, inside⟩ := passed place shown mem
    exact injectsSpread fragment arg at_ shape inside shaped injected

theorem soundStep {m next : Machine} {s : CollectorDomain} {statement : Statement}
    (sound : Sound c.substitutedBody m s.places) (typed : Typed c.substitutedBody statement)
    (fresh : ∀ place ∈ readsOf statement, m.UpToDate c.substitutedBody place)
    (stepped : m.step c.substitutedBody statement = some next) (session : Session) :
    Exec.wp (Collector.applyStatementEffect tcx c s statement)
      (fun s' _ => Sound c.substitutedBody next s'.places) (fun _ => True) session := by
  cases typed with
  | other =>
    cases Option.some.inj stepped
    exact sound
  | @assign place rvalue ty at_ has =>
    simp only [Machine.step, at_, bind, Option.bind_some, Option.bind_eq_some_iff] at stepped
    obtain ⟨cell, got, shown, shown_, wrote⟩ := stepped
    refine Collector.wpAssign session (fragment.normalized place ty at_) ?_
    intro tracked closures after known updated
    obtain ⟨old, ho, shape⟩ := sound.shaped place ty at_
    have change := joinedUpdate ho shape updated
    unfold Machine.write at wrote
    split at wrote
    · cases Option.some.inj wrote
      constructor
      · exact shapedKept change.keeps sound.shaped
      · intro p assigned mem
        cases List.mem_append.mp mem with
        | inl earlier => exact spreadKept change.keeps (sound.spread p assigned earlier)
        | inr now =>
          obtain ⟨rfl, rfl⟩ := Prod.mk.inj (List.mem_singleton.mp now)
          exact spreadJoined fragment sound.shaped change at_ (fun erased =>
            rvalueTracked fragment rfl sound has erased fresh got shown_ known)
    · cases wrote

theorem soundRun {statements : List Statement}
    (typed : ∀ statement ∈ statements, Typed c.substitutedBody statement) :
    ∀ {m final : Machine} {s : CollectorDomain} {session : Session},
      Sound c.substitutedBody m s.places → Faithful c.substitutedBody m statements →
      m.run c.substitutedBody statements = some final →
      Exec.wp (statements.foldlM (Collector.applyStatementEffect tcx c) s)
        (fun s' _ => Sound c.substitutedBody final s'.places) (fun _ => True) session := by
  intro m final s session sound faithful ran
  let Follows (rest : List Statement) (m : Machine) (s : CollectorDomain) : Prop :=
    Sound c.substitutedBody m s.places ∧ Faithful c.substitutedBody m rest ∧ ∀ statement ∈ rest, Typed c.substitutedBody statement
  have each : ∀ statement rest m s session next, Follows (statement :: rest) m s →
      m.step c.substitutedBody statement = some next →
        Exec.wp (Collector.applyStatementEffect tcx c s statement) (fun s' _ => Follows rest next s')
          (fun _ => True) session := by
    intro statement rest m s session next follows stepped
    obtain ⟨sound, ⟨fresh, later⟩, typed⟩ := follows
    obtain ⟨first, tail⟩ := List.forall_mem_cons.mp typed
    exact Exec.wpMono (soundStep fragment sound first fresh stepped session)
      (fun _ _ sound' => ⟨sound', later next stepped, tail⟩) (fun _ h => h)
  have run := Exec.wpFollows Follows each statements session ⟨sound, faithful, typed⟩ ran
  exact Exec.wpMono run (fun _ _ kept => kept.1) (fun _ h => h)

theorem referentIsTracked {inst : Instance} {args : ArgTys} {start : Machine}
    (isFunction : c.currentFunction = .function inst args)
    (noClosure : tcx.isClosure c.defId = false)
    (passed : Passed c.substitutedBody args start) {statements : List Statement}
    (typed : ∀ statement ∈ statements, Typed c.substitutedBody statement) {final : Machine}
    (ran : start.run c.substitutedBody statements = some final)
    (faithful : Faithful c.substitutedBody start statements)
    {session session' : Session} {state : CollectorDomain}
    (analysed : c.assignments tcx statements session = (some state, session')) :
    ∀ place ty deps shown, declared c.substitutedBody place = some ty → containsErased ty = true →
      state.get place = some (.erased deps) → deps.Nonempty →
        final.UpToDate c.substitutedBody place →
          final.read c.substitutedBody place = some shown → shown ∈ deps := by
  have run : Exec.wp (c.assignments tcx statements)
      (fun s' _ => Sound c.substitutedBody final s'.places) (fun _ => True) session := by
    rw [Collector.assignments, Exec.wpBind]
    refine Exec.wpMono (soundBottom fragment isFunction noClosure passed session) ?_ (fun _ h => h)
    exact fun bottom session' sound => soundRun fragment typed sound faithful ran
  have sound := Exec.wpResult run analysed
  intro place ty deps shown at_ erased tracked _ fresh read
  obtain ⟨deps', known, mem⟩ := gaveTracked sound at_ erased (fresh ty shown at_ erased read)
  cases Option.some.inj (tracked.symm.trans known)
  exact mem

end

def borrowing (order : HashOrder Ty) : TyCtxt :=
  {TyCtxt.plain order with
    allPlaces _ body := body.localDecls.zipIdx.flatMap (fun decl =>
      decl.1.derefPaths.map (fun path => ⟨decl.2, path⟩))
    interiorPaths _ body place :=
      match declared body place with
      | some ty => ty.derefPaths.map place.extend
      | none => [place]}

theorem borrowingFragment (order : HashOrder Ty) (defId : DefId) (body : Body) :
    Fragment (borrowing order) defId body := by
  constructor
  · exact fun place ty _ => rfl
  · intro place ty h
    simp only [declared, Option.bind_eq_some_iff] at h
    obtain ⟨decl, hd, hp⟩ := h
    have there : (decl, place.base) ∈ body.localDecls.zipIdx :=
      List.mem_zipIdx_iff_getElem?.mpr hd
    exact List.mem_flatMap.mpr ⟨_, there, List.mem_map.mpr ⟨_, Ty.memDerefPaths hp, rfl⟩⟩
  · intro place ty path part h hp
    simp only [borrowing, h]
    exact List.mem_map_of_mem (Ty.memDerefPaths hp)

def known (did : DefId) : Ty := .adt did []

def object : Ty := .dynamic 9 []

def shared (ty : Ty) : Ty := .ref ty .not

noncomputable def traitCrate : TyCtxt := borrowing (.listed
  [known 1, known 2, shared (known 1), shared (known 2), .ref (shared (known 1)) .mut] (by decide))

def traitBody : Body :=
  ⟨0, [Ty.unit, known 1, shared (known 1), shared object, .ref (shared object) .mut, known 2,
    shared (known 2), shared object], [.returning], [], 0⟩

def storer : Collector := ⟨[], [], .function ⟨.item, 0, []⟩ ⟨[]⟩, traitBody, false⟩

def made : List Statement :=
  [.assign (.fromLocal 1) (.useOperand (.constant (known 1))),
   .assign (.fromLocal 2) (.ref .shared (.fromLocal 1)),
   .assign (.fromLocal 3) (.cast .unsize (.move (.fromLocal 2)) (shared object))]

def stored : List Statement := made ++
  [.assign (.fromLocal 4) (.ref .mut (.fromLocal 3)),
   .assign (.fromLocal 5) (.useOperand (.constant (known 2))),
   .assign (.fromLocal 6) (.ref .shared (.fromLocal 5)),
   .assign (.fromLocal 7) (.cast .unsize (.move (.fromLocal 6)) (shared object)),
   .assign ⟨4, [.deref]⟩ (.useOperand (.copy (.fromLocal 7)))]

def Machine.empty : Machine := ⟨fun _ => none, []⟩

theorem madeTyped : ∀ statement ∈ made, Typed traitBody statement := by
  simp only [made, List.forall_mem_cons, List.not_mem_nil, false_implies, implies_true, and_true]
  exact ⟨.assign rfl (.constant rfl), .assign rfl (.ref rfl), .assign rfl (.unsize (.inr rfl) rfl rfl)⟩

theorem storedTyped : ∀ statement ∈ stored, Typed traitBody statement := by
  simp only [stored, List.forall_mem_append, List.forall_mem_cons, List.not_mem_nil, false_implies,
    implies_true, and_true]
  exact ⟨madeTyped, .assign rfl (.ref rfl), .assign rfl (.constant rfl), .assign rfl (.ref rfl),
    .assign rfl (.unsize (.inr rfl) rfl rfl), .assign rfl (.copy rfl)⟩

theorem missedStore : (∀ statement ∈ stored, Typed traitBody statement) ∧
    Fragment traitCrate storer.defId traitBody ∧
    declared traitBody (.fromLocal 3) = some (shared object) ∧
    ((storer.assignments traitCrate stored (Collector.startSession ⟨.item, 0, []⟩)).1.bind
      (fun state => state.get (.fromLocal 3))) = some (.erased {shared (known 1)}) ∧
    (Machine.empty.run traitBody stored).bind (fun final => final.read traitBody (.fromLocal 3)) =
      some (shared (known 2)) := by
  refine ⟨storedTyped, borrowingFragment _ _ _, rfl, ?_, rfl⟩
  decide +kernel

section
variable {m next : Machine} {body : Body} {place : Place} {ty shown : Ty} {statement : Statement}
  {rest : List Statement}

theorem plainFresh (at_ : declared body place = some ty) (plain : containsErased ty = false) :
    m.UpToDate body place := by
  intro ty' shown at_' erased
  cases Option.some.inj (at_.symm.trans at_')
  exact absurd (erased.symm.trans plain) (by simp)

theorem gaveFresh (read : m.read body place = some shown) (gave : m.Gave place shown) :
    m.UpToDate body place := by
  intro ty shown' _ _ read'
  cases Option.some.inj (read.symm.trans read')
  exact gave

theorem faithfulStep (fresh : ∀ place ∈ readsOf statement, m.UpToDate body place)
    (stepped : m.step body statement = some next) (later : Faithful body next rest) :
    Faithful body m (statement :: rest) := by
  refine ⟨fresh, fun next' stepped' => ?_⟩
  cases Option.some.inj (stepped.symm.trans stepped')
  exact later

end

theorem storedFaithful : Faithful traitBody Machine.empty stored := by
  refine faithfulStep (by simp [readsOf, reads, Operand.place]) rfl ?_
  refine faithfulStep (List.forall_mem_singleton.mpr (plainFresh rfl rfl)) rfl ?_
  refine faithfulStep (by simp [readsOf, reads]) rfl ?_
  refine faithfulStep (List.forall_mem_singleton.mpr ?borrowed) rfl ?_
  case borrowed => exact @gaveFresh _ _ _ (shared (known 1)) rfl ⟨.fromLocal 3, shared (known 1), [], by decide, rfl, rfl⟩
  refine faithfulStep (by simp [readsOf, reads, Operand.place]) rfl ?_
  refine faithfulStep (List.forall_mem_singleton.mpr (plainFresh rfl rfl)) rfl ?_
  refine faithfulStep (by simp [readsOf, reads]) rfl ?_
  refine faithfulStep (List.forall_mem_singleton.mpr ?copied) rfl trivial
  exact @gaveFresh _ _ _ (shared (known 2)) rfl ⟨.fromLocal 7, shared (known 2), [], by decide, rfl, rfl⟩

def afterStored : Machine := (Machine.empty.run traitBody stored).getD Machine.empty

theorem storedTracked : ∃ state session deps,
    storer.assignments traitCrate stored (Collector.startSession ⟨.item, 0, []⟩) =
      (some state, session) ∧
    Machine.empty.run traitBody stored = some afterStored ∧
    state.get ⟨4, [.deref]⟩ = some (.erased deps) ∧ deps.Nonempty ∧
    afterStored.read traitBody ⟨4, [.deref]⟩ = some (shared (known 2)) ∧ shared (known 2) ∈ deps := by
  have passed : Passed traitBody ⟨[]⟩ Machine.empty := fun _ _ mem => absurd mem List.not_mem_nil
  obtain ⟨state, session, analysed⟩ : ∃ state session, storer.assignments traitCrate stored
      (Collector.startSession ⟨.item, 0, []⟩) = (some state, session) := ⟨_, _, rfl⟩
  have ran : Machine.empty.run traitBody stored = some afterStored := rfl
  have held : ((storer.assignments traitCrate stored (Collector.startSession ⟨.item, 0, []⟩)).1.bind
      (fun state => state.get ⟨4, [.deref]⟩)) =
        some (.erased {shared (known 1), shared (known 2)}) := by
    decide +kernel
  rw [analysed, Option.bind_some] at held
  have shown : afterStored.read traitBody ⟨4, [.deref]⟩ = some (shared (known 2)) := rfl
  have fresh : afterStored.UpToDate traitBody ⟨4, [.deref]⟩ :=
    gaveFresh shown ⟨⟨4, [.deref]⟩, shared (known 2), [], by decide, rfl, rfl⟩
  have some_ : Finset.Nonempty {shared (known 1), shared (known 2)} := Finset.insert_nonempty _ _
  exact ⟨state, session, _, analysed, ran, held, some_, shown,
    referentIsTracked (borrowingFragment _ _ _) rfl rfl passed storedTyped ran storedFaithful analysed
      ⟨4, [.deref]⟩ (shared object) _ _ rfl rfl held some_ fresh shown⟩

end Borrows
end Scrutinizer
