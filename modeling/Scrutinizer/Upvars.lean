import Scrutinizer.Closures
import Scrutinizer.DerivedStates

/-! The upvars that are stored for a closure whose captures always have the same form: the union,
position by position, of all that were passed. -/
namespace Scrutinizer
namespace Registration

def OneForm (vectors : List (List TrackedTy)) : Prop :=
  ∀ us ∈ vectors, us ≠ [] → ∀ vs ∈ vectors, vs ≠ [] → us.map TrackedTy.form = vs.map TrackedTy.form

structure IsUnion (vectors : List (List TrackedTy)) (stored : List TrackedTy) : Prop where
  empty : stored = [] ↔ ∀ us ∈ vectors, us = []
  form : ∀ us ∈ vectors, us ≠ [] → stored.map TrackedTy.form = us.map TrackedTy.form
  types : ∀ (i : Nat) (tracked : TrackedTy), stored[i]? = some tracked → ∀ ty,
    ty ∈ tracked.types ↔ ∃ us ∈ vectors, ∃ u : TrackedTy, us[i]? = some u ∧ ty ∈ u.types

section
variable {vectors others : List (List TrackedTy)} {stored us : List TrackedTy}

theorem IsUnion.single (us : List TrackedTy) : IsUnion [us] us where
  empty := by simp
  form vs mem _ := by rw [List.mem_singleton.mp mem]
  types i tracked known ty := by simp [known]

theorem IsUnion.unique {stored' : List TrackedTy} (h : IsUnion vectors stored)
    (h' : IsUnion others stored') (same : ∀ us, us ≠ [] → (us ∈ vectors ↔ us ∈ others)) :
    stored = stored' := by
  by_cases none_ : ∀ us ∈ vectors, us = []
  · have noOther : ∀ us ∈ others, us = [] := by
      intro us mem
      by_contra filled
      exact filled (none_ us ((same us filled).mpr mem))
    rw [h.empty.mpr none_, h'.empty.mpr noOther]
  · push Not at none_
    obtain ⟨us, mem, filled⟩ := none_
    have forms : stored.map TrackedTy.form = stored'.map TrackedTy.form :=
      (h.form us mem filled).trans (h'.form us ((same us filled).mp mem) filled).symm
    have lengths : stored.length = stored'.length := by simpa using congrArg List.length forms
    apply List.ext_getElem lengths
    intro i bound bound'
    apply TrackedTy.formTypesInj
    · have here := congrArg (fun forms => forms[i]?) forms
      simpa [bound, bound'] using here
    · ext ty
      rw [h.types i _ (List.getElem?_eq_getElem bound), h'.types i _ (List.getElem?_eq_getElem bound')]
      constructor
      · intro found
        obtain ⟨us, mem, u, known, inside⟩ := found
        have filled : us ≠ [] := by rintro rfl; simp at known
        exact ⟨us, (same us filled).mp mem, u, known, inside⟩
      · intro found
        obtain ⟨us, mem, u, known, inside⟩ := found
        have filled : us ≠ [] := by rintro rfl; simp at known
        exact ⟨us, (same us filled).mpr mem, u, known, inside⟩

theorem IsUnion.start (h : IsUnion vectors []) : IsUnion (vectors ++ [us]) us := by
  have none_ := h.empty.mp rfl
  refine ⟨?_, ?_, ?_⟩
  · constructor
    · intro empty vs mem
      rcases List.mem_append.mp mem with old | last
      · exact none_ vs old
      · rw [List.mem_singleton.mp last, empty]
    · intro all
      exact all us (by simp)
  · intro vs mem filled
    rcases List.mem_append.mp mem with old | last
    · exact absurd (none_ vs old) filled
    · rw [List.mem_singleton.mp last]
  · intro i tracked known ty
    constructor
    · intro inside
      exact ⟨us, by simp, tracked, known, inside⟩
    · intro found
      obtain ⟨vs, mem, u, there, inside⟩ := found
      rcases List.mem_append.mp mem with old | last
      · rw [none_ vs old] at there
        simp at there
      · rw [List.mem_singleton.mp last, known] at there
        cases Option.some.inj there
        exact inside

theorem IsUnion.skip (h : IsUnion vectors stored) : IsUnion (vectors ++ [[]]) stored := by
  refine ⟨?_, ?_, ?_⟩
  · rw [h.empty]
    constructor
    · intro all us mem
      rcases List.mem_append.mp mem with old | last
      · exact all us old
      · exact List.mem_singleton.mp last
    · intro all us mem
      exact all us (List.mem_append_left _ mem)
  · intro us mem filled
    rcases List.mem_append.mp mem with old | last
    · exact h.form us old filled
    · exact absurd (List.mem_singleton.mp last) filled
  · intro i tracked known ty
    rw [h.types i tracked known]
    constructor
    · intro found
      obtain ⟨us, mem, rest⟩ := found
      exact ⟨us, List.mem_append_left _ mem, rest⟩
    · intro found
      obtain ⟨us, mem, u, there, inside⟩ := found
      rcases List.mem_append.mp mem with old | last
      · exact ⟨us, old, u, there, inside⟩
      · rw [List.mem_singleton.mp last] at there
        simp at there

theorem IsUnion.more (h : IsUnion vectors stored) (filled : stored ≠ [])
    (same : stored.map TrackedTy.form = us.map TrackedTy.form) :
    IsUnion (vectors ++ [us]) (ClosureInfo.joinUpvars stored us) := by
  have lengths : stored.length = us.length := by simpa using congrArg List.length same
  have joinedForm : (ClosureInfo.joinUpvars stored us).map TrackedTy.form = stored.map TrackedTy.form := by
    apply List.ext_getElem
    · simp [ClosureInfo.joinUpvars, lengths]
    · intro i _ _
      simp [ClosureInfo.joinUpvars, TrackedTy.formJoin]
  have kept : ClosureInfo.joinUpvars stored us ≠ [] := by
    intro none_
    rw [none_] at joinedForm
    exact filled (List.map_eq_nil_iff.mp joinedForm.symm)
  refine ⟨?_, ?_, ?_⟩
  · constructor
    · exact fun none_ => absurd none_ kept
    · intro all
      exact absurd (h.empty.mpr (fun us mem => all us (List.mem_append_left _ mem))) filled
  · intro vs mem filled'
    rw [joinedForm]
    rcases List.mem_append.mp mem with old | last
    · exact h.form vs old filled'
    · rw [List.mem_singleton.mp last, same]
  · intro i tracked known ty
    have bound : i < stored.length := by
      have inside := (List.getElem?_eq_some_iff.mp known).1
      simpa [ClosureInfo.joinUpvars, lengths] using inside
    have hold := List.getElem?_eq_getElem bound
    have hnew := List.getElem?_eq_getElem (lengths ▸ bound)
    rw [joinUpvarsGet stored us i hold hnew] at known
    cases Option.some.inj known
    have forms : stored[i].form = us[i].form := by
      have here := congrArg (fun forms => forms[i]?) same
      simpa [bound, lengths ▸ bound] using here
    rw [TrackedTy.joinTypesUnion forms, Finset.mem_union, h.types i _ hold]
    constructor
    · intro found
      rcases found with ⟨vs, mem, rest⟩ | inside
      · exact ⟨vs, List.mem_append_left _ mem, rest⟩
      · exact ⟨us, by simp, _, hnew, inside⟩
    · intro found
      obtain ⟨vs, mem, u, there, inside⟩ := found
      rcases List.mem_append.mp mem with old | last
      · exact .inl ⟨vs, old, u, there, inside⟩
      · rw [List.mem_singleton.mp last, hnew] at there
        cases Option.some.inj there
        exact .inr inside

theorem addUpvarsUnion {info : ClosureInfo} (h : IsUnion vectors info.upvars)
    (one : OneForm (vectors ++ [us])) : ∃ info', info.addUpvars us = some info' ∧
      info'.withSubsts = info.withSubsts ∧ IsUnion (vectors ++ [us]) info'.upvars := by
  unfold ClosureInfo.addUpvars
  by_cases first : info.upvars = []
  · exact ⟨_, if_pos first, rfl, (first ▸ h).start⟩
  · rw [if_neg first]
    by_cases empty : us = []
    · subst empty
      exact ⟨info, if_pos rfl, rfl, h.skip⟩
    · rw [if_neg empty]
      obtain ⟨vs, mem, filled⟩ : ∃ vs ∈ vectors, vs ≠ [] := by
        by_contra none_
        push Not at none_
        exact first (h.empty.mpr none_)
      have same : info.upvars.map TrackedTy.form = us.map TrackedTy.form :=
        (h.form vs mem filled).trans
          (one vs (List.mem_append_left _ mem) filled us (by simp) empty)
      have lengths : us.length = info.upvars.length := by simpa using (congrArg List.length same).symm
      exact ⟨_, if_pos lengths, rfl, h.more first same⟩

end

section
variable {did : DefId} {closures : ClosureInfoStorage}

theorem applyKnown {r : Registration} {info info' : ClosureInfo} (on : r.closes did = true)
    (known : closures.get did = some info) (added : info.addUpvars r.upvars = some info') :
    r.apply closures = some (closures.insert did info') := by
  unfold closes at on
  split at on
  · rename_i defId args hty
    cases of_decide_eq_true on
    simp only [apply, ClosureInfoStorage.updateWith, hty, known, added, bind, Option.bind_some]
  · cases on

theorem applyNew {r : Registration} (on : r.closes did = true) (fresh : closures.get did = none) :
    r.apply closures = some (closures.insert did ⟨r.resolvedTy, r.upvars⟩) := by
  unfold closes at on
  split at on
  · rename_i defId args hty
    cases of_decide_eq_true on
    simp only [apply, ClosureInfoStorage.updateWith, hty, fresh, resolvedTy]
  · cases on

theorem entryUnion (fresh : closures.get did = none) (first : Registration) (later : List Registration) :
    (∀ r ∈ first :: later, r.closes did = true) → OneForm ((first :: later).map upvars) →
      ∃ after info, (first :: later).foldlM apply closures = some after ∧ after.get did = some info ∧
        info.withSubsts = first.resolvedTy ∧ IsUnion ((first :: later).map upvars) info.upvars ∧
        ∀ other, other ≠ did → after.get other = closures.get other := by
  induction later using List.reverseRecOn with
  | nil =>
    intro on _
    refine ⟨closures.insert did ⟨first.resolvedTy, first.upvars⟩, ⟨first.resolvedTy, first.upvars⟩, ?_,
      by rw [HashMap.getInsert, if_pos rfl], rfl, .single first.upvars, ?_⟩
    · simp only [List.foldlM_cons, List.foldlM_nil, applyNew (on first List.mem_cons_self) fresh]
      rfl
    · intro other different
      rw [HashMap.getInsert, if_neg different]
  | append_singleton later r ih =>
    intro on one
    rw [← List.cons_append] at on one ⊢
    rw [List.map_append] at one
    obtain ⟨mid, info, ran, known, substs, union, apart⟩ := ih
      (fun r mem => on r (List.mem_append_left _ mem))
      (fun us mem filled vs mem' filled' =>
        one us (List.mem_append_left _ mem) filled vs (List.mem_append_left _ mem') filled')
    obtain ⟨info', added, same, union'⟩ := addUpvarsUnion union one
    refine ⟨mid.insert did info', info', ?_, by rw [HashMap.getInsert, if_pos rfl], same.trans substs, ?_, ?_⟩
    · rw [List.foldlM_append, ran]
      simp only [List.foldlM_cons, List.foldlM_nil, bind, Option.bind_some,
        applyKnown (on r (by simp)) known added]
      rfl
    · rw [List.map_append]
      exact union'
    · intro other different
      rw [HashMap.getInsert, if_neg different, apart other different]

theorem upvarsUnion (fresh : closures.get did = none) {first : Registration} {later : List Registration}
    (on : ∀ r ∈ first :: later, r.closes did = true) (one : OneForm ((first :: later).map upvars)) :
    ∃ after info, (first :: later).foldlM apply closures = some after ∧ after.get did = some info ∧
      info.withSubsts = first.resolvedTy ∧ IsUnion ((first :: later).map upvars) info.upvars ∧
      (∀ other, other ≠ did → after.get other = closures.get other) ∧
      ∀ calls : List Registration, (∀ r ∈ calls, r.closes did = true) →
        (∀ us, us ≠ [] → (us ∈ (first :: later).map upvars ↔ us ∈ calls.map upvars)) →
        ∀ after' info', calls.foldlM apply closures = some after' → after'.get did = some info' →
          info'.upvars = info.upvars := by
  obtain ⟨after, info, ran, known, substs, union, apart⟩ := entryUnion fresh first later on one
  refine ⟨after, info, ran, known, substs, union, apart, ?_⟩
  intro calls on' same after' info' ran' known'
  cases calls with
  | nil =>
    cases Option.some.inj ran'
    cases fresh.symm.trans known'
  | cons head rest =>
    have one' : OneForm ((head :: rest).map upvars) :=
      fun us mem filled vs mem' filled' =>
        one us ((same us filled).mpr mem) filled vs ((same vs filled').mpr mem') filled'
    obtain ⟨other, entry, ranOther, knownOther, _, unionOther, _⟩ := entryUnion fresh head rest on' one'
    cases Option.some.inj (ran'.symm.trans ranOther)
    cases Option.some.inj (known'.symm.trans knownOther)
    exact (union.unique unionOther same).symm

def pointerCapture (tys : Finset Ty) : Registration :=
  ⟨genericClosure, ⟨.item, 0, [Ty.bool]⟩, [.erased tys]⟩

def visitedClosure : Registration := ⟨genericClosure, ⟨.item, 0, [Ty.bool]⟩, []⟩

theorem pointerCapturesUnion :
    ∃ after info, [visitedClosure, pointerCapture {Ty.usize}, pointerCapture {Ty.bool}].foldlM apply
        HashMap.empty = some after ∧ after.get 1 = some info ∧
      info.withSubsts = visitedClosure.resolvedTy ∧
      IsUnion [[], [.erased {Ty.usize}], [.erased {Ty.bool}]] info.upvars ∧
      (∀ other, other ≠ 1 → after.get other = HashMap.empty.get other) ∧
      ∀ calls : List Registration, (∀ r ∈ calls, r.closes 1 = true) →
        (∀ us, us ≠ [] → (us ∈ [[], [.erased {Ty.usize}], [.erased {Ty.bool}]] ↔ us ∈ calls.map upvars)) →
        ∀ after' info', calls.foldlM apply HashMap.empty = some after' → after'.get 1 = some info' →
          info'.upvars = info.upvars := by
  refine @upvarsUnion 1 HashMap.empty rfl visitedClosure
    [pointerCapture {Ty.usize}, pointerCapture {Ty.bool}] (by decide) ?_
  intro us mem filled vs mem' filled'
  simp only [visitedClosure, pointerCapture, List.map_cons, List.map_nil, List.mem_cons,
    List.not_mem_nil, or_false] at mem mem'
  rcases mem with rfl | rfl | rfl
  · exact absurd rfl filled
  all_goals
    rcases mem' with rfl | rfl | rfl
    · exact absurd rfl filled'
    · rfl
    · rfl

end
end Registration
end Scrutinizer
