import Scrutinizer.CollectionRule
import Scrutinizer.PlainCrate
import Scrutinizer.Resolve

/-! What the closure storage holds after a sequence of registrations. The generic arguments
of a closure are those of its first registration; later ones add to its upvars only, and only
where the first upvars left something open. -/
namespace Scrutinizer

/- One call of `update_with`. -/
structure Registration where
  closureTy : Ty
  outerInstance : Instance
  upvars : List TrackedTy

namespace Registration

def apply (closures : ClosureInfoStorage) (r : Registration) : Option ClosureInfoStorage :=
  closures.updateWith r.closureTy r.outerInstance r.upvars

def resolvedTy (r : Registration) : Ty := r.outerInstance.substMir r.closureTy

def closes (did : DefId) (r : Registration) : Bool :=
  match r.closureTy with
  | .closure defId _ => decide (defId = did)
  | _ => false

def replay (history : List Registration) : Option ClosureInfoStorage :=
  history.foldlM apply HashMap.empty

def firstUpvars (entries : List Registration) : List TrackedTy :=
  ((entries.map upvars).find? (fun us => decide (us ≠ []))).getD []

def Includes (stored passed : List TrackedTy) : Prop :=
  ∀ (i : Nat) (u : TrackedTy), passed[i]? = some u →
    ∃ v, stored[i]? = some v ∧ u.types ⊆ v.types

structure Accumulates (entries : List Registration) (stored : List TrackedTy) : Prop where
  length : stored.length = (firstUpvars entries).length
  agree : ∀ r ∈ entries, r.upvars = [] ∨ r.upvars.length = stored.length
  known : ∀ (i : Nat) (ty : Ty), (firstUpvars entries)[i]? = some (.present ty) →
    stored[i]? = some (.present ty)
  collected : ∀ (i : Nat) (deps : Finset Ty), (firstUpvars entries)[i]? = some (.erased deps) →
    ∃ all, stored[i]? = some (.erased all) ∧
      ∀ r ∈ entries, ∀ u, r.upvars[i]? = some u → u.types ⊆ all

structure Stored (entries : List Registration) (info : ClosureInfo) : Prop where
  withSubsts : ∀ first, entries.head? = some first → info.withSubsts = first.resolvedTy
  upvars : Accumulates entries info.upvars

theorem firstUpvarsAppend (entries : List Registration) (r : Registration) :
    firstUpvars (entries ++ [r]) = if firstUpvars entries = [] then r.upvars else firstUpvars entries := by
  unfold firstUpvars
  rw [List.map_append, List.find?_append]
  cases found : (entries.map upvars).find? (fun us => decide (us ≠ [])) with
  | none =>
    by_cases empty : r.upvars = []
    · simp [empty]
    · simp [empty]
  | some us =>
    have nonempty : us ≠ [] := by simpa using List.find?_some found
    simp [nonempty]

theorem firstUpvarsEmpty {entries : List Registration} (h : firstUpvars entries = []) :
    ∀ r ∈ entries, r.upvars = [] := by
  intro r mem
  by_contra nonempty
  unfold firstUpvars at h
  cases found : (entries.map upvars).find? (fun us => decide (us ≠ [])) with
  | none =>
    have none := List.find?_eq_none.mp found r.upvars (List.mem_map.mpr ⟨r, mem, rfl⟩)
    exact none (by simpa using nonempty)
  | some us =>
    have filled : us ≠ [] := by simpa using List.find?_some found
    rw [found] at h
    exact filled h

theorem accumulatesFirst (r : Registration) : Accumulates [r] r.upvars := by
  have first : firstUpvars [r] = r.upvars := by
    have append := firstUpvarsAppend [] r
    simpa [firstUpvars] using append
  constructor
  · rw [first]
  · intro other mem
    rw [List.mem_singleton.mp mem]
    exact .inr rfl
  · intro i ty h
    rw [first] at h
    exact h
  · intro i deps h
    rw [first] at h
    refine ⟨deps, h, ?_⟩
    intro other mem u hu
    rw [List.mem_singleton.mp mem, h] at hu
    cases Option.some.inj hu
    exact Finset.Subset.refl _

theorem accumulatesEmpty {entries : List Registration} {stored : List TrackedTy}
    {r : Registration} (h : Accumulates entries stored) (empty : r.upvars = []) :
    Accumulates (entries ++ [r]) stored := by
  have first : firstUpvars (entries ++ [r]) = firstUpvars entries := by
    rw [firstUpvarsAppend]
    split
    · rename_i none; rw [none, empty]
    · rfl
  constructor
  · rw [first, h.length]
  · intro other mem
    cases List.mem_append.mp mem with
    | inl old => exact h.agree other old
    | inr last => exact .inl (List.mem_singleton.mp last ▸ empty)
  · intro i ty hi
    rw [first] at hi
    exact h.known i ty hi
  · intro i deps hi
    rw [first] at hi
    obtain ⟨all, hall, covers⟩ := h.collected i deps hi
    refine ⟨all, hall, ?_⟩
    intro other mem u hu
    cases List.mem_append.mp mem with
    | inl old => exact covers other old u hu
    | inr last =>
      rw [List.mem_singleton.mp last, empty] at hu
      simp at hu

theorem joinUpvarsGet (old new : List TrackedTy) (i : Nat) {v u : TrackedTy}
    (hv : old[i]? = some v) (hu : new[i]? = some u) :
    (ClosureInfo.joinUpvars old new)[i]? = some (v.join u).1 := by
  simp [ClosureInfo.joinUpvars, List.getElem?_zipWith, hv, hu]

theorem accumulatesJoin {entries : List Registration} {stored : List TrackedTy}
    {r : Registration} (h : Accumulates entries stored) (nonempty : stored ≠ [])
    (length : r.upvars.length = stored.length) :
    Accumulates (entries ++ [r]) (ClosureInfo.joinUpvars stored r.upvars) := by
  have known : firstUpvars entries ≠ [] := by
    intro none
    apply nonempty
    rw [← List.length_eq_zero_iff, h.length, none, List.length_nil]
  have first : firstUpvars (entries ++ [r]) = firstUpvars entries := by
    rw [firstUpvarsAppend, if_neg known]
  have joinedLength : (ClosureInfo.joinUpvars stored r.upvars).length = stored.length := by
    simp [ClosureInfo.joinUpvars, length]
  have passed : ∀ (i : Nat) (v : TrackedTy), stored[i]? = some v → ∃ u, r.upvars[i]? = some u := by
    intro i v hv
    have bound : i < r.upvars.length := length ▸ (List.getElem?_eq_some_iff.mp hv).1
    exact ⟨_, List.getElem?_eq_getElem bound⟩
  constructor
  · rw [joinedLength, first, h.length]
  · intro other mem
    rw [joinedLength]
    cases List.mem_append.mp mem with
    | inl old => exact h.agree other old
    | inr last => exact .inr (List.mem_singleton.mp last ▸ length)
  · intro i ty hi
    rw [first] at hi
    have hv := h.known i ty hi
    obtain ⟨u, hu⟩ := passed i _ hv
    rw [joinUpvarsGet stored r.upvars i hv hu, TrackedTy.joinPresent]
  · intro i deps hi
    rw [first] at hi
    obtain ⟨all, hv, covers⟩ := h.collected i deps hi
    obtain ⟨u, hu⟩ := passed i _ hv
    refine ⟨all ∪ u.types, ?_, ?_⟩
    · rw [joinUpvarsGet stored r.upvars i hv hu, TrackedTy.joinErased]
    · intro other mem w hw
      cases List.mem_append.mp mem with
      | inl old => exact (covers other old w hw).trans Finset.subset_union_left
      | inr last =>
        rw [List.mem_singleton.mp last, hu] at hw
        cases Option.some.inj hw
        exact Finset.subset_union_right

theorem storedAdd {entries : List Registration} {info info' : ClosureInfo} {r : Registration}
    (known : entries ≠ []) (h : Stored entries info) (added : info.addUpvars r.upvars = some info') :
    Stored (entries ++ [r]) info' := by
  have head : (entries ++ [r]).head? = entries.head? := by
    cases entries with
    | nil => contradiction
    | cons e rest => rfl
  unfold ClosureInfo.addUpvars at added
  split at added
  · rename_i empty
    cases Option.some.inj added
    have none : firstUpvars entries = [] := by
      rw [← List.length_eq_zero_iff, ← h.upvars.length, empty, List.length_nil]
    refine ⟨fun first hf => h.withSubsts first (head ▸ hf), ?_⟩
    have first : firstUpvars (entries ++ [r]) = firstUpvars [r] := by
      rw [firstUpvarsAppend, if_pos none]
      have append := firstUpvarsAppend [] r
      simpa [firstUpvars] using append.symm
    have alone := accumulatesFirst r
    constructor
    · rw [first]; exact alone.length
    · intro other mem
      cases List.mem_append.mp mem with
      | inl old => exact .inl (firstUpvarsEmpty none other old)
      | inr last => exact alone.agree other last
    · intro i ty hi
      exact alone.known i ty (first ▸ hi)
    · intro i deps hi
      obtain ⟨all, hall, covers⟩ := alone.collected i deps (first ▸ hi)
      refine ⟨all, hall, ?_⟩
      intro other mem u hu
      cases List.mem_append.mp mem with
      | inl old =>
        rw [firstUpvarsEmpty none other old] at hu
        simp at hu
      | inr last => exact covers other last u hu
  · rename_i nonempty
    split at added
    · rename_i empty
      cases Option.some.inj added
      exact ⟨fun first hf => h.withSubsts first (head ▸ hf), accumulatesEmpty h.upvars empty⟩
    · split at added
      · rename_i length
        cases Option.some.inj added
        exact ⟨fun first hf => h.withSubsts first (head ▸ hf),
          accumulatesJoin h.upvars nonempty length⟩
      · contradiction

theorem applyGet {closures closures' : ClosureInfoStorage} {r : Registration}
    (applied : r.apply closures = some closures') (did : DefId) :
    (r.closes did = false ∧ closures'.get did = closures.get did) ∨
    (r.closes did = true ∧ closures.get did = none ∧
      closures'.get did = some ⟨r.resolvedTy, r.upvars⟩) ∨
    (r.closes did = true ∧ ∃ info info', closures.get did = some info ∧
      info.addUpvars r.upvars = some info' ∧ closures'.get did = some info') := by
  unfold apply ClosureInfoStorage.updateWith at applied
  split at applied
  · rename_i defId args hty
    by_cases same : defId = did
    · subst same
      have yes : r.closes defId = true := by simp [closes, hty]
      cases known : closures.get defId with
      | none =>
        rw [known] at applied
        cases Option.some.inj applied
        exact .inr (.inl ⟨yes, rfl, by simp [HashMap.getInsert, resolvedTy, hty]⟩)
      | some info =>
        simp only [known, bind, Option.bind_eq_some_iff] at applied
        obtain ⟨info', added, last⟩ := applied
        cases Option.some.inj last
        exact .inr (.inr ⟨yes, info, info', rfl, added, by simp [HashMap.getInsert]⟩)
    · have no : r.closes did = false := by simp [closes, hty, same]
      have other : ¬ did = defId := fun h => same h.symm
      split at applied
      · simp only [bind, Option.bind_eq_some_iff] at applied
        obtain ⟨info', _, last⟩ := applied
        cases Option.some.inj last
        exact .inl ⟨no, by rw [HashMap.getInsert, if_neg other]⟩
      · cases Option.some.inj applied
        exact .inl ⟨no, by rw [HashMap.getInsert, if_neg other]⟩
  · rename_i noClosure
    cases Option.some.inj applied
    have no : r.closes did = false := by
      unfold closes
      split
      · rename_i defId args hty
        exact absurd hty (noClosure defId args)
      · rfl
    exact .inl ⟨no, rfl⟩

theorem replayAppend (history : List Registration) (r : Registration) :
    replay (history ++ [r]) = (replay history).bind (fun closures => r.apply closures) := by
  simp only [replay, List.foldlM_append, List.foldlM_cons, List.foldlM_nil, bind_pure]
  rfl

theorem replayGet (did : DefId) (history : List Registration) : ∀ {closures : ClosureInfoStorage},
    replay history = some closures →
      (history.filter (closes did) = [] ∧ closures.get did = none) ∨
      (history.filter (closes did) ≠ [] ∧ ∃ info, closures.get did = some info ∧
        Stored (history.filter (closes did)) info) := by
  induction history using List.reverseRecOn with
  | nil =>
    intro closures h
    cases Option.some.inj h
    exact .inl ⟨rfl, rfl⟩
  | append_singleton history r ih =>
    intro closures' h
    rw [replayAppend, Option.bind_eq_some_iff] at h
    obtain ⟨closures, before, applied⟩ := h
    have old := ih before
    rw [List.filter_append]
    rcases applyGet applied did with ⟨no, same⟩ | ⟨yes, unknown, now⟩ | ⟨yes, info, info', known, added, now⟩
    · have none : [r].filter (closes did) = [] := by simp [no]
      rw [none, List.append_nil, same]
      exact old
    · have one : [r].filter (closes did) = [r] := by simp [yes]
      cases old with
      | inl fresh =>
        rw [one, fresh.1, now]
        refine .inr ⟨by simp, _, rfl, ?_, accumulatesFirst r⟩
        intro first hf
        cases Option.some.inj hf
        rfl
      | inr there =>
        obtain ⟨_, info, hinfo, _⟩ := there
        rw [unknown] at hinfo
        contradiction
    · have one : [r].filter (closes did) = [r] := by simp [yes]
      cases old with
      | inl fresh =>
        rw [fresh.2] at known
        contradiction
      | inr there =>
        obtain ⟨entries, info1, hinfo, stored⟩ := there
        cases Option.some.inj (known.symm.trans hinfo)
        rw [one, now]
        exact .inr ⟨by simp, info', rfl, storedAdd entries stored added⟩

theorem includesIff {entries : List Registration} {stored : List TrackedTy} {r : Registration}
    (h : Accumulates entries stored) (mem : r ∈ entries) :
    Includes stored r.upvars ↔ ∀ (i : Nat) (ty : Ty) (u : TrackedTy),
      (firstUpvars entries)[i]? = some (.present ty) → r.upvars[i]? = some u → u.types ⊆ {ty} := by
  constructor
  · intro includes i ty u first passed
    obtain ⟨v, hv, sub⟩ := includes i u passed
    rw [h.known i ty first] at hv
    cases Option.some.inj hv
    exact sub
  · intro opened i u passed
    have bound : i < r.upvars.length := (List.getElem?_eq_some_iff.mp passed).1
    have length : r.upvars.length = stored.length := by
      cases h.agree r mem with
      | inl empty => rw [empty] at bound; exact absurd bound (Nat.not_lt_zero i)
      | inr same => exact same
    have within : i < (firstUpvars entries).length := by rw [← h.length, ← length]; exact bound
    cases first : (firstUpvars entries)[i] with
    | present ty =>
      have hf : (firstUpvars entries)[i]? = some (.present ty) := by
        rw [List.getElem?_eq_getElem within, first]
      exact ⟨_, h.known i ty hf, opened i ty u hf passed⟩
    | erased deps =>
      have hf : (firstUpvars entries)[i]? = some (.erased deps) := by
        rw [List.getElem?_eq_getElem within, first]
      obtain ⟨all, hv, covers⟩ := h.collected i deps hf
      exact ⟨_, hv, covers r mem u passed⟩

def Keeps (did : DefId) (history : List Registration) (r : Registration) : Prop :=
  (∀ first, (history.filter (closes did)).head? = some first → first.resolvedTy = r.resolvedTy) ∧
    ∀ (i : Nat) (ty : Ty) (u : TrackedTy),
      (firstUpvars (history.filter (closes did)))[i]? = some (.present ty) →
        r.upvars[i]? = some u → u.types ⊆ {ty}

end Registration

namespace Registration

theorem closesResolved {did : DefId} {r : Registration} (h : r.closes did = true) :
    ∃ args, r.resolvedTy = .closure did args := by
  unfold closes at h
  split at h
  · rename_i defId args hty
    have same : defId = did := of_decide_eq_true h
    unfold resolvedTy Instance.substMir
    split
    · exact ⟨args, by rw [hty, same]⟩
    · exact ⟨Ty.instantiateList r.outerInstance.args args, by rw [hty, same, Ty.instantiate]⟩
  · contradiction

theorem registered {history : List Registration} {closures : ClosureInfoStorage} {did : DefId}
    {info : ClosureInfo} (replayed : replay history = some closures)
    (entry : closures.get did = some info) : ∃ args, info.withSubsts = .closure did args := by
  cases replayGet did history replayed with
  | inl fresh =>
    rw [fresh.2] at entry
    contradiction
  | inr known =>
    obtain ⟨nonempty, info', entry', stored⟩ := known
    cases Option.some.inj (entry.symm.trans entry')
    have head := List.head?_eq_some_head nonempty
    have closes := (List.mem_filter.mp (List.head_mem nonempty)).2
    obtain ⟨args, ty⟩ := closesResolved closes
    exact ⟨args, (stored.withSubsts _ head).trans ty⟩

theorem closureKeepsIff {tcx : TyCtxt}
    (resolvesItself : ∀ did args, tcx.isClosure did = true →
      tcx.resolve did args = some ⟨.item, did, args⟩)
    {history : List Registration} {closures : ClosureInfoStorage}
    (replayed : replay history = some closures) {r : Registration} (mem : r ∈ history)
    {self : PartialFunctionInfo} (inside : self.inst = r.outerInstance)
    {did : DefId} {substs : List Ty} {argTys : ArgTys} {fns : List PartialFunctionInfo}
    (resolved : self.resolve tcx closures did substs argTys = some (.ok fns))
    {inst : Instance} {trackedArgs : ArgTys} {info : ClosureInfo}
    (returned : .closure inst trackedArgs info ∈ fns) (called : r.closes inst.defId = true) :
    (Ty.closure inst.defId inst.args = self.inst.substMir r.closureTy ∧
      Includes info.upvars r.upvars) ↔ Keeps inst.defId history r := by
  obtain ⟨closureDid, isClosure, entry, extracted⟩ :=
    PartialFunctionInfo.resolveClosure resolved returned
  have stored : Stored (history.filter (closes closureDid)) info ∧
      history.filter (closes closureDid) ≠ [] := by
    cases replayGet closureDid history replayed with
    | inl fresh =>
      rw [fresh.2] at entry
      contradiction
    | inr known =>
      obtain ⟨nonempty, info', entry', stored⟩ := known
      cases Option.some.inj (entry.symm.trans entry')
      exact ⟨stored, nonempty⟩
  obtain ⟨⟨withSubsts, upvars⟩, nonempty⟩ := stored
  obtain ⟨first, hfirst⟩ : ∃ first, (history.filter (closes closureDid)).head? = some first :=
    ⟨_, List.head?_eq_some_head nonempty⟩
  have closesFirst : first.closes closureDid = true :=
    (List.mem_filter.mp (List.mem_of_mem_head? hfirst)).2
  obtain ⟨args, firstTy⟩ := closesResolved closesFirst
  have found : inst = ⟨.item, closureDid, args⟩ := by
    rw [ClosureInfo.extractInstance, withSubsts first hfirst, firstTy] at extracted
    exact Option.some.inj (extracted.symm.trans (resolvesItself closureDid args isClosure))
  subst found
  have entryMem : r ∈ history.filter (closes closureDid) := List.mem_filter.mpr ⟨mem, called⟩
  have own : self.inst.substMir r.closureTy = r.resolvedTy := by rw [inside]; rfl
  have sameArgs : Ty.closure closureDid args = self.inst.substMir r.closureTy ↔
      ∀ other, (history.filter (closes closureDid)).head? = some other →
        other.resolvedTy = r.resolvedTy := by
    rw [own, ← firstTy]
    constructor
    · intro same other hother
      cases Option.some.inj (hfirst.symm.trans hother)
      exact same
    · intro all
      exact all first hfirst
  exact and_congr sameArgs (includesIff upvars entryMem)

def genericClosure : Ty :=
  .closure 1 [.param 0, Ty.unit, .fnPtr [Ty.unit] Ty.unit, .tuple [.param 0]]

def registrationFor (ty : Ty) : Registration := ⟨genericClosure, ⟨.item, 0, [ty]⟩, [.present ty]⟩

/- `FnOnce::call_once` is definition 2: it resolves to the closure that it is called for. -/
noncomputable def closureCrate : TyCtxt := {TyCtxt.plain (.listed [] List.nodup_nil) with
  isClosure := fun did => decide (did = 1)
  loadBodyAndFacts := fun did => if did = 1 then some ⟨1, [Ty.unit], [], [], 0⟩ else none
  resolve := fun did args => match did, args with
    | 2, [.closure did args] => some ⟨.item, did, args⟩
    | did, args => some ⟨.item, did, args⟩}

noncomputable def resolvedFrom (ty : Ty) (closures : ClosureInfoStorage) :
    Option (Except ResolveError (List PartialFunctionInfo)) :=
  (PartialFunctionInfo.function ⟨.item, 0, [ty]⟩ ⟨[]⟩).resolve closureCrate closures 2
    [(registrationFor ty).resolvedTy] ⟨[.present Ty.unit, .present Ty.unit]⟩

def closureArgs (ty : Ty) : List Ty := [ty, Ty.unit, .fnPtr [Ty.unit] Ty.unit, .tuple [ty]]

def closureFor (own stored : Ty) : PartialFunctionInfo :=
  .closure ⟨.item, 1, closureArgs stored⟩
    ⟨[.present (.ref (.closure 1 (closureArgs own)) .not)]⟩
    ⟨.closure 1 (closureArgs stored), [.present stored]⟩

theorem secondInstanceLost : ∃ closures,
    replay [registrationFor Ty.bool, registrationFor Ty.usize] = some closures ∧
      resolvedFrom Ty.usize closures = some (.ok [closureFor Ty.usize Ty.bool]) ∧
      Ty.closure 1 (closureArgs Ty.bool) ≠ (registrationFor Ty.usize).resolvedTy ∧
      ¬ Includes [.present Ty.bool] (registrationFor Ty.usize).upvars := by
  refine ⟨_, rfl, ?_, ?_, ?_⟩
  · decide +kernel
  · decide +kernel
  · intro includes
    obtain ⟨v, hv, sub⟩ := includes 0 _ rfl
    cases Option.some.inj hv
    exact absurd sub (by decide)

theorem onlyInstanceKept :
    (Ty.closure 1 (closureArgs Ty.bool) = (registrationFor Ty.bool).resolvedTy ∧
      Includes [.present Ty.bool] (registrationFor Ty.bool).upvars) ↔
      Keeps 1 [registrationFor Ty.bool] (registrationFor Ty.bool) := by
  have resolves : ∀ did args, closureCrate.isClosure did = true →
      closureCrate.resolve did args = some ⟨.item, did, args⟩ := by
    intro did args closure
    have one : did = 1 := of_decide_eq_true closure
    subst one
    rfl
  have resolved : resolvedFrom Ty.bool ⟨[(1, ⟨.closure 1 (closureArgs Ty.bool), [.present Ty.bool]⟩)],
      List.nodup_singleton _⟩ = some (.ok [closureFor Ty.bool Ty.bool]) := by
    decide +kernel
  exact closureKeepsIff resolves rfl List.mem_cons_self rfl resolved List.mem_cons_self rfl

end Registration

namespace Collector
open Registration

theorem collectClosuresReplays {tcx : TyCtxt} {c : Collector} {history : List Registration}
    {closures closures' : ClosureInfoStorage} (before : replay history = some closures)
    (h : c.collectClosures tcx closures = some closures') :
    ∃ more, replay (history ++ more) = some closures' := by
  refine ⟨(tcx.visitedTys c.substitutedBody).map (fun ty => ⟨ty, c.currentFunction.inst, []⟩), ?_⟩
  have started : history.foldlM apply HashMap.empty = some closures := before
  rw [replay, List.foldlM_append, started]
  simp only [bind, Option.bind_some, List.foldlM_map]
  exact h

theorem rvalueClosures {tcx : TyCtxt} {body : Body} {inst : Instance} {state : CollectorDomain}
    {closures closures' : ClosureInfoStorage} {rvalue : Rvalue} {ty : TrackedTy}
    (h : rvalue.trackedTy tcx body inst state closures = some (ty, closures')) :
    closures' = closures ∨ ∃ did substs upvars,
      closures.updateWith (.closure did substs) inst upvars = some closures' := by
  cases rvalue with
  | aggregate kind ops =>
    cases kind with
    | closure did substs =>
      simp only [Rvalue.trackedTy, bind, Option.bind_eq_some_iff] at h
      obtain ⟨upvars, _, updated, hu, last⟩ := h
      cases Option.some.inj last
      exact .inr ⟨did, substs, upvars, hu⟩
    | generator did args => cases h
    | array | tuple | adt =>
      simp only [Rvalue.trackedTy, bind, Option.bind_eq_some_iff, Option.some.injEq,
        Prod.mk.injEq] at h
      grind
  | _ =>
    simp only [Rvalue.trackedTy, bind, Option.bind_eq_some_iff, Option.some.injEq,
      Prod.mk.injEq] at h
    grind

theorem rvalueReplays {tcx : TyCtxt} {body : Body} {inst : Instance} {state : CollectorDomain}
    {history : List Registration} {closures closures' : ClosureInfoStorage} {rvalue : Rvalue}
    {ty : TrackedTy} (before : replay history = some closures)
    (h : rvalue.trackedTy tcx body inst state closures = some (ty, closures')) :
    ∃ more, replay (history ++ more) = some closures' := by
  cases rvalueClosures h with
  | inl same => exact ⟨[], by rw [List.append_nil, before, same]⟩
  | inr registered =>
    obtain ⟨did, substs, upvars, updated⟩ := registered
    refine ⟨[⟨.closure did substs, inst, upvars⟩], ?_⟩
    rw [replayAppend, before]
    exact updated

theorem replayInvariant (tcx : TyCtxt) : Invariant tcx (fun _ => True)
    (fun s => ∃ history, replay history = some s.closures) (fun _ _ => True) where
  fitEmpty _ := trivial
  fitMono _ _ _ _ _ := trivial
  fitUnion _ _ _ _ _ := trivial
  fitInsert _ _ _ _ _ := trivial
  fitCached _ _ _ _ _ _ := trivial
  enter _ _ _ _ _ _ := trivial
  closures c s closures _ good h := by
    obtain ⟨history, before⟩ := good
    obtain ⟨more, after⟩ := collectClosuresReplays before h
    exact ⟨history ++ more, after⟩
  rvalue c s state rvalue ty closures _ good h := by
    obtain ⟨history, before⟩ := good
    obtain ⟨more, after⟩ := rvalueReplays before h
    exact ⟨history ++ more, after⟩
  unresolved _ _ _ _ good := good
  round _ _ _ _ good := good
  withoutBody _ _ _ good := good
  descended _ _ _ _ _ _ _ _ _ _ good _ _ _ _ := good
  processed _ _ _ _ _ _ good _ := good

theorem collectReplays (tcx : TyCtxt) (fuel : Nat) (inst : Instance) (shallow : Bool) :
    ∃ history, replay history =
      some (collect tcx fuel inst shallow (startSession inst)).2.closures := by
  have run := wpCollect (replayInvariant tcx) fuel inst shallow ⟨[], rfl⟩ (fun _ _ => trivial)
    (fun s body results good _ => good)
  have kept := Exec.wpMono run (fun _ t h => And.intro h.1 h.2.1) (fun _ h => h)
  exact (Exec.wpState kept).1

end Collector
end Scrutinizer
