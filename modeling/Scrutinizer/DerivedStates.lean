import Mathlib.Order.Lattice
import Scrutinizer.BodyRule

/-! The states of the analysis of one body as a join semilattice. A state denotes the types at
each place, the calls and the unhandled types, three sets; on states that agree on the form of
every place the join of the code is the union of these sets. -/
namespace Scrutinizer

def TrackedTy.form : TrackedTy → Option Ty
  | .present ty => some ty
  | .erased _ => none

namespace TrackedTy

theorem formJoin (self other : TrackedTy) : (self.join other).1.form = self.form := by
  cases self with
  | present ty => rfl
  | erased deps => rw [joinErased]; rfl

theorem formJoinMany (self : TrackedTy) (others : List TrackedTy) :
    (self.joinMany others).form = self.form := by
  cases self with
  | present ty => rw [joinManyPresent]
  | erased deps => rw [joinManyErased]; rfl

theorem joinTypesUnion {self other : TrackedTy} (same : self.form = other.form) :
    (self.join other).1.types = self.types ∪ other.types := by
  cases self with
  | present ty =>
    cases other with
    | present ty' =>
      cases Option.some.inj same
      exact (Finset.union_self _).symm
    | erased deps => cases same
  | erased deps => rw [joinErased]; rfl

theorem formTypesInj {self other : TrackedTy} (same : self.form = other.form)
    (types : self.types = other.types) : self = other := by
  cases self with
  | present ty =>
    cases other with
    | present ty' => rw [Option.some.inj same]
    | erased deps => cases same
  | erased deps =>
    cases other with
    | present ty' => cases same
    | erased deps' => exact congrArg erased types

theorem joinChanged (self other : TrackedTy) :
    (self.join other).2 = true ↔ (self.join other).1 ≠ self := by
  cases self with
  | present ty => simp
  | erased deps =>
    cases other with
    | present ty => simp [join]
    | erased depsOther => simp [join]

end TrackedTy

namespace CollectorDomain

/- Equality of states: maps and sets have no order. -/
structure Same (s t : CollectorDomain) : Prop where
  places : ∀ p, s.get p = t.get p
  calls : s.calls = t.calls
  unhandled : s.unhandled = t.unhandled

def SameForm (s t : CollectorDomain) : Prop :=
  ∀ p, (s.get p).map TrackedTy.form = (t.get p).map TrackedTy.form

structure KeptBy (s t : CollectorDomain) : Prop where
  places : ∀ p tracked, s.get p = some tracked →
    ∃ kept, t.get p = some kept ∧ tracked.types ⊆ kept.types
  calls : s.calls ⊆ t.calls
  unhandled : s.unhandled ⊆ t.unhandled

inductive Derived (tcx : TyCtxt) (body : Body) (defId : DefId) (bottom : CollectorDomain) :
    CollectorDomain → Prop where
  | bottom : Derived tcx body defId bottom bottom
  | updateWith {s s' place tracked} (before : Derived tcx body defId bottom s)
      (ok : s.updateWith tcx body defId place tracked = .ok s') : Derived tcx body defId bottom s'
  | propagate {s place tracked places} (before : Derived tcx body defId bottom s)
      (ok : CollectorDomain.propagate tcx body defId s.places place tracked = .ok places) :
      Derived tcx body defId bottom {s with places := places}
  | addCall {s} (call : FunctionCall) (before : Derived tcx body defId bottom s) :
      Derived tcx body defId bottom (s.addCall call)
  | addUnhandled {s} (ty : Ty) (before : Derived tcx body defId bottom s) :
      Derived tcx body defId bottom (s.addUnhandled ty)
  | join {s t joined changed} (left : Derived tcx body defId bottom s)
      (right : Derived tcx body defId bottom t) (ok : s.join t = some (joined, changed)) :
      Derived tcx body defId bottom joined

/- The abstract domain: a set of types for each place, a set of calls and one of types. -/
abbrev Content := (Place → Finset Ty) × Finset FunctionCall × Finset Ty

def content (s : CollectorDomain) : Content :=
  (fun p => ((s.get p).map TrackedTy.types).getD ∅, s.calls, s.unhandled)

theorem SameForm.refl (s : CollectorDomain) : s.SameForm s := fun _ => rfl

theorem SameForm.symm {s t : CollectorDomain} (h : s.SameForm t) : t.SameForm s :=
  fun p => (h p).symm

theorem SameForm.trans {s t u : CollectorDomain} (h : s.SameForm t) (h' : t.SameForm u) :
    s.SameForm u := fun p => (h p).trans (h' p)

section
variable {s t u joined : CollectorDomain} {changed : Bool}

theorem SameForm.found (h : s.SameForm t) {p : Place} {tracked : TrackedTy}
    (known : t.get p = some tracked) : ∃ old, s.get p = some old ∧ old.form = tracked.form := by
  have here := h p
  rw [known] at here
  cases held : s.get p with
  | none =>
    rw [held] at here
    cases here
  | some old =>
    rw [held] at here
    exact ⟨old, rfl, Option.some.inj here⟩

theorem sameOfContent (form : s.SameForm t) (content : s.content = t.content) : s.Same t := by
  have calls := congrArg (fun c => c.2.1) content
  have unhandled := congrArg (fun c => c.2.2) content
  refine ⟨?_, calls, unhandled⟩
  intro p
  have types := congrArg (fun c => c.1 p) content
  cases known : t.get p with
  | none =>
    have here := form p
    rw [known] at here
    exact Option.map_eq_none_iff.mp here
  | some tracked =>
    obtain ⟨old, held, same⟩ := form.found known
    simp only [CollectorDomain.content, held, known, Option.map_some, Option.getD_some] at types
    rw [held, TrackedTy.formTypesInj same types]

theorem formJoined (ok : s.join t = some (joined, changed)) : joined.SameForm s := by
  intro p
  have after := joinGet ok p
  rw [get, after, Option.map_map]
  cases known : s.places.get p with
  | none => simp [get, known]
  | some old => simp [get, known, TrackedTy.formJoinMany]

theorem contentJoined (form : s.SameForm t) (ok : s.join t = some (joined, changed)) :
    joined.content = s.content ⊔ t.content := by
  obtain ⟨calls, unhandled⟩ := joinCalls ok
  refine Prod.ext ?_ (Prod.ext calls unhandled)
  funext p
  have after := joinGet ok p
  have here := form p
  simp only [content, get, after, Prod.fst_sup, Pi.sup_apply] at here ⊢
  cases known : t.places.get p with
  | none =>
    have absent : s.places.get p = none := by
      rw [known] at here
      exact Option.map_eq_none_iff.mp here
    simp [absent]
  | some tracked =>
    obtain ⟨old, held, same⟩ := form.found known
    rw [get] at held
    simpa [held, TrackedTy.joinMany] using TrackedTy.joinTypesUnion same

theorem joinPlacesSome {entries : List (Place × TrackedTy)} : ∀ {acc : PlaceMap × Bool},
    (∀ entry ∈ entries, ∃ old, acc.1.get entry.1 = some old) →
      ∃ out, entries.foldlM (fun acc entry => do
        let old ← acc.1.get entry.1
        let joined := old.join entry.2
        some (acc.1.insert entry.1 joined.1, acc.2 || joined.2)) acc = some out := by
  induction entries with
  | nil => exact fun _ => ⟨_, rfl⟩
  | cons entry rest ih =>
    intro acc known
    obtain ⟨old, held⟩ := known entry List.mem_cons_self
    have later : ∀ next ∈ rest,
        ∃ old', (acc.1.insert entry.1 (old.join entry.2).1).get next.1 = some old' := by
      intro next mem
      rw [HashMap.getInsert]
      split
      · exact ⟨_, rfl⟩
      · exact known next (List.mem_cons_of_mem _ mem)
    obtain ⟨out, ok⟩ := @ih (_, acc.2 || (old.join entry.2).2) later
    refine ⟨out, ?_⟩
    simp only [List.foldlM_cons, held, bind, Option.bind_some]
    exact ok

theorem joinSome (form : s.SameForm t) : ∃ joined changed, s.join t = some (joined, changed) := by
  have known : ∀ entry ∈ t.places.entries, ∃ old, s.places.get entry.1 = some old := by
    intro entry mem
    obtain ⟨old, held, _⟩ := form.found (HashMap.getMem.mpr mem)
    exact ⟨old, held⟩
  obtain ⟨out, ok⟩ := @joinPlacesSome t.places.entries (s.places, false) known
  have placed : joinPlaces s.places t.places = some out := ok
  simp only [join, placed, bind, Option.bind_some]
  exact ⟨_, _, rfl⟩

theorem joinPlacesChanged {entries : List (Place × TrackedTy)} : ∀ {acc out : PlaceMap × Bool},
    (entries.map Prod.fst).Nodup →
      entries.foldlM (fun acc entry => do
        let old ← acc.1.get entry.1
        let joined := old.join entry.2
        some (acc.1.insert entry.1 joined.1, acc.2 || joined.2)) acc = some out →
      (out.2 = true ↔ acc.2 = true ∨ ∃ p, out.1.get p ≠ acc.1.get p) := by
  induction entries with
  | nil =>
    intro acc out _ h
    cases Option.some.inj h
    simp
  | cons entry rest ih =>
    intro acc out distinct h
    have all := joinPlacesGet distinct h
    obtain ⟨fresh, distinct⟩ := List.nodup_cons.mp distinct
    simp only [List.foldlM_cons, bind, Option.bind_eq_some_iff] at h
    obtain ⟨next, ⟨old, held, last⟩, h⟩ := h
    cases Option.some.inj last
    rw [ih distinct h, Bool.or_eq_true, TrackedTy.joinChanged, or_assoc]
    apply or_congr_right
    -- the place of the entry has its final value now, any other one keeps it so far
    have after := joinPlacesGet distinct h
    have absent : rest.lookup entry.1 = none := HashMap.lookupNone.mpr fresh
    have here : out.1.get entry.1 = some (old.join entry.2).1 := by
      rw [after entry.1, absent, HashMap.getInsert, if_pos rfl]
      rfl
    constructor
    · intro moved
      cases moved with
      | inl grown =>
        refine ⟨entry.1, ?_⟩
        rw [here, held]
        exact fun same => grown (Option.some.inj same)
      | inr other =>
        obtain ⟨p, differs⟩ := other
        refine ⟨p, ?_⟩
        rw [HashMap.getInsert] at differs
        split at differs
        · rename_i same
          exact absurd (same ▸ here) differs
        · exact differs
    · intro moved
      obtain ⟨p, differs⟩ := moved
      by_cases same : p = entry.1
      · left
        rw [same, here, held] at differs
        exact fun kept => differs (congrArg some kept)
      · right
        refine ⟨p, ?_⟩
        rwa [HashMap.getInsert, if_neg same]

theorem joinChanged (ok : s.join t = some (joined, changed)) :
    changed = true ↔ ¬ s.Same joined := by
  have calls := joinCalls ok
  simp only [join, bind, Option.bind_eq_some_iff] at ok
  obtain ⟨⟨places, moved⟩, hp, last⟩ := ok
  cases Option.some.inj last
  have flag := joinPlacesChanged t.places.distinct hp
  have grows : ∀ {α : Type} [DecidableEq α] (a b : Finset α), ¬ b ⊆ a ↔ a ≠ a ∪ b := by
    intro α _ a b
    rw [not_iff_not, eq_comm, Finset.union_eq_left]
  simp only [Bool.or_eq_true, decide_eq_true_eq, flag, grows, Bool.false_eq_true, false_or]
  constructor
  · intro differs same
    rcases differs with (⟨p, there⟩ | more) | more
    · exact there (same.places p).symm
    · exact more same.calls
    · exact more same.unhandled
  · intro differs
    by_contra none_
    push Not at none_
    obtain ⟨⟨places_, calls_⟩, unhandled_⟩ := none_
    exact differs ⟨fun p => (places_ p).symm, calls_, unhandled_⟩

theorem keptLeft (ok : s.join t = some (joined, changed)) : s.KeptBy joined := by
  obtain ⟨calls, unhandled⟩ := joinCalls ok
  refine ⟨?_, calls ▸ Finset.subset_union_left, unhandled ▸ Finset.subset_union_left⟩
  intro p tracked known
  have after := joinGet ok p
  rw [get] at known
  rw [known] at after
  exact ⟨_, after, TrackedTy.joinManyGrows _ _⟩

theorem keptRight (form : s.SameForm t) (ok : s.join t = some (joined, changed)) :
    t.KeptBy joined := by
  obtain ⟨calls, unhandled⟩ := joinCalls ok
  refine ⟨?_, calls ▸ Finset.subset_union_right, unhandled ▸ Finset.subset_union_right⟩
  intro p tracked known
  obtain ⟨old, held, same⟩ := form.found known
  have after := joinGet ok p
  rw [get] at known held
  rw [known, held] at after
  refine ⟨_, after, ?_⟩
  have union := TrackedTy.joinTypesUnion same
  exact union ▸ Finset.subset_union_right

end

section
variable {tcx : TyCtxt} {body : Body} {defId : DefId} {bottom s t : CollectorDomain}

theorem formPropagated {place : Place} {tracked : TrackedTy} {places places' : PlaceMap}
    (ok : propagate tcx body defId places place tracked = .ok places') (p : Place) :
    (places'.get p).map TrackedTy.form = (places.get p).map TrackedTy.form := by
  obtain ⟨paths, _, after⟩ := propagateGet ok
  rw [after p, Option.map_map]
  cases places.get p with
  | none => rfl
  | some old => simp [TrackedTy.formJoinMany]

theorem formUpdated {place : Place} {tracked : TrackedTy} {s' : CollectorDomain}
    (ok : s.updateWith tcx body defId place tracked = .ok s') : s'.SameForm s := by
  intro p
  obtain ⟨old, paths, _, _, after⟩ := updateWithGet ok
  rw [get, after p, Option.map_map]
  cases known : s.places.get p with
  | none => simp [get, known]
  | some before =>
    simp only [get, known, Option.map_some, Function.comp, TrackedTy.formJoinMany]
    split
    · rw [TrackedTy.formJoin]
    · rfl

theorem Derived.form (h : Derived tcx body defId bottom s) : s.SameForm bottom := by
  induction h with
  | bottom => exact .refl bottom
  | updateWith before ok ih => exact (formUpdated ok).trans ih
  | propagate before ok ih => exact fun p => (formPropagated ok p).trans (ih p)
  | addCall call before ih => exact ih
  | addUnhandled ty before ih => exact ih
  | join left right ok ihLeft ihRight => exact (formJoined ok).trans ihLeft

theorem Derived.sameForm (h : Derived tcx body defId bottom s)
    (h' : Derived tcx body defId bottom t) : s.SameForm t := h.form.trans h'.form.symm

end

structure IsSemilattice (states : CollectorDomain → Prop) : Prop where
  form : ∀ s t, states s → states t → s.SameForm t
  joins : ∀ s t, states s → states t → ∃ joined changed, s.join t = some (joined, changed) ∧
    states joined ∧ s.KeptBy joined ∧ t.KeptBy joined ∧ (changed = true ↔ ¬ s.Same joined)
  comm : ∀ s t, states s → states t → ∀ left right, (s.join t).map Prod.fst = some left →
    (t.join s).map Prod.fst = some right → left.Same right
  assoc : ∀ s t u, states s → states t → states u → ∀ st left tu right,
    (s.join t).map Prod.fst = some st → (st.join u).map Prod.fst = some left →
    (t.join u).map Prod.fst = some tu → (s.join tu).map Prod.fst = some right → left.Same right
  idem : ∀ s, states s → ∀ joined, (s.join s).map Prod.fst = some joined → s.Same joined

theorem derivedIsSemilattice (tcx : TyCtxt) (body : Body) (defId : DefId) (bottom : CollectorDomain) :
    IsSemilattice (Derived tcx body defId bottom) where
  form s t hs ht := hs.sameForm ht
  joins s t hs ht := by
    have form := hs.sameForm ht
    obtain ⟨joined, changed, ok⟩ := joinSome form
    exact ⟨joined, changed, ok, hs.join ht ok, keptLeft ok, keptRight form ok, joinChanged ok⟩
  comm s t hs ht left right hl hr := by
    obtain ⟨⟨_, _⟩, okLeft, rfl⟩ := Option.map_eq_some_iff.mp hl
    obtain ⟨⟨_, _⟩, okRight, rfl⟩ := Option.map_eq_some_iff.mp hr
    apply sameOfContent ((hs.join ht okLeft).sameForm (ht.join hs okRight))
    rw [contentJoined (hs.sameForm ht) okLeft, contentJoined (ht.sameForm hs) okRight, sup_comm]
  assoc s t u hs ht hu st left tu right hst hl htu hr := by
    obtain ⟨⟨_, _⟩, okLeft, rfl⟩ := Option.map_eq_some_iff.mp hst
    obtain ⟨⟨_, _⟩, okLeft', rfl⟩ := Option.map_eq_some_iff.mp hl
    obtain ⟨⟨_, _⟩, okRight, rfl⟩ := Option.map_eq_some_iff.mp htu
    obtain ⟨⟨_, _⟩, okRight', rfl⟩ := Option.map_eq_some_iff.mp hr
    have dst := hs.join ht okLeft
    have dtu := ht.join hu okRight
    apply sameOfContent ((dst.join hu okLeft').sameForm (hs.join dtu okRight'))
    rw [contentJoined (dst.sameForm hu) okLeft', contentJoined (hs.sameForm ht) okLeft,
      contentJoined (hs.sameForm dtu) okRight', contentJoined (ht.sameForm hu) okRight, sup_assoc]
  idem s hs joined h := by
    obtain ⟨⟨_, _⟩, ok, rfl⟩ := Option.map_eq_some_iff.mp h
    apply sameOfContent (hs.sameForm (hs.join hs ok))
    rw [contentJoined (.refl s) ok, sup_idem]

end CollectorDomain

namespace Collector
open CollectorDomain

/- The engine makes its states by these operations, so the semilattice is the one it works in:
what the analysis of a body returns is derived from the bottom value. -/
theorem derivedRule (tcx : TyCtxt) (c : Collector) (descend : Collector → Exec Session CollectorDomain)
    (bottom : CollectorDomain) : BodyRule tcx descend c (fun _ => True)
      (Derived tcx c.substitutedBody c.defId bottom) :=
  stateRule .updateWith .addCall .addUnhandled .join

theorem analysisDerived {tcx : TyCtxt} {c : Collector}
    {descend : Collector → Exec Session CollectorDomain} {bottom results : CollectorDomain}
    {fuel blocks : Nat} {order : List Nat} {s t : Session}
    (ran : (analysis tcx descend c).run fuel bottom blocks order s = (some results, t)) :
    Derived tcx c.substitutedBody c.defId bottom results :=
  (derivedRule tcx c descend bottom).analysisHeld .bottom ran

end Collector
end Scrutinizer
