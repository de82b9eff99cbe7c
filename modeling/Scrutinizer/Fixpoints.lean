import Scrutinizer.MonotoneStates
import Scrutinizer.Wrapping

/-! When the fixpoint of a body without calls is reached. The join only adds types, so the chain
of states ends exactly where there are finite sets of types for the places that the assignments
do not lead out of; wrapping a value of a place and storing it there again leads out of any. -/
namespace Scrutinizer
namespace CollectorDomain

section
variable {s t joined : CollectorDomain} {changed : Bool}

theorem keptByIff (form : s.SameForm t) : s.KeptBy t ↔ s.content ≤ t.content := by
  constructor
  · intro kept
    refine ⟨?_, kept.calls, kept.unhandled⟩
    intro p
    cases known : s.get p with
    | none => simp [content, known]
    | some tracked =>
      obtain ⟨more, held, sub⟩ := kept.places p tracked known
      simpa [content, known, held] using sub
  · intro le
    refine ⟨?_, le.2.1, le.2.2⟩
    intro p tracked known
    obtain ⟨more, held, _⟩ := form.symm.found known
    have here := le.1 p
    simp only [content, known, held, Option.map_some, Option.getD_some] at here
    exact ⟨more, held, here⟩

theorem Same.keptBy (same : s.Same t) : t.KeptBy s :=
  ⟨fun p tracked known => ⟨tracked, (same.places p).trans known, Finset.Subset.refl _⟩,
    same.calls.symm.subset, same.unhandled.symm.subset⟩

def rank (places : Finset Place) (s : CollectorDomain) : Nat :=
  ∑ p ∈ places, (s.content.1 p).card + s.calls.card + s.unhandled.card

theorem rankMono (places : Finset Place) (kept : s.KeptBy t) : rank places s ≤ rank places t := by
  have types : ∀ p ∈ places, (s.content.1 p).card ≤ (t.content.1 p).card := by
    intro p _
    apply Finset.card_le_card
    cases known : s.get p with
    | none => simp [content, known]
    | some tracked =>
      obtain ⟨more, held, sub⟩ := kept.places p tracked known
      simpa [content, known, held] using sub
  have calls := Finset.card_le_card kept.calls
  have unhandled := Finset.card_le_card kept.unhandled
  have sum := Finset.sum_le_sum types
  unfold rank
  omega

theorem rankSame {places : Finset Place} (form : s.SameForm t) (all : ∀ p, p ∉ places → t.get p = none)
    (kept : s.KeptBy t) (small : rank places t ≤ rank places s) : s.Same t := by
  have le := (keptByIff form).mp kept
  have types : ∀ p ∈ places, (s.content.1 p).card ≤ (t.content.1 p).card :=
    fun p _ => Finset.card_le_card (le.1 p)
  have calls := Finset.card_le_card kept.calls
  have unhandled := Finset.card_le_card kept.unhandled
  have sum := Finset.sum_le_sum types
  unfold rank at small
  have each := (Finset.sum_eq_sum_iff_of_le types).mp (by omega)
  have sameCalls : s.calls = t.calls := Finset.eq_of_subset_of_card_le kept.calls (by omega)
  have sameUnhandled : s.unhandled = t.unhandled :=
    Finset.eq_of_subset_of_card_le kept.unhandled (by omega)
  apply sameOfContent form
  refine Prod.ext ?_ (Prod.ext sameCalls sameUnhandled)
  funext p
  by_cases mem : p ∈ places
  · exact Finset.eq_of_subset_of_card_le (le.1 p) (each p mem).ge
  · have absent := all p mem
    have absent' : s.get p = none := by
      have here := form p
      rw [absent] at here
      exact Option.map_eq_none_iff.mp here
    simp [content, absent, absent']

end
end CollectorDomain

namespace Collector
open CollectorDomain

section
variable {tcx : TyCtxt} {c : Collector} {descend : Collector → Exec Session CollectorDomain}
  {bottom : CollectorDomain}

theorem formRule (tcx : TyCtxt) (c : Collector) (descend : Collector → Exec Session CollectorDomain)
    (bottom : CollectorDomain) : BodyRule tcx descend c (fun _ => True) (fun s => s.SameForm bottom) :=
  stateRule (fun held ok => (formUpdated ok).trans held) (fun _ held => held) (fun _ held => held)
    (fun held _ ok => (formJoined ok).trans held)

theorem joining (bottom : CollectorDomain) :
    (analysis tcx descend c).Joining (fun s => s.SameForm bottom) KeptBy where
  refl := KeptBy.refl
  trans _ _ _ h h' := h.trans h'
  joinGood _ _ _ _ good _ ok := (formJoined ok).trans good
  left _ _ _ _ _ _ ok := keptLeft ok
  right _ _ _ _ good good' ok := keptRight (good.trans good'.symm) ok
  unchanged a b joined _ _ ok := by
    have same : a.Same joined := by
      by_contra differs
      exact absurd ((joinChanged ok).mpr differs) (by decide)
    exact same.keptBy
  effectGood bb a out good effect := by
    obtain ⟨s, t, ran⟩ := effect
    exact (formRule tcx c descend bottom).blockHeld good ran

theorem ranked (idle : NoCalls tcx c.substitutedBody) (bottom : CollectorDomain) :
    (analysis tcx descend c).Ranked (fun s => s.SameForm bottom) KeptBy
      (rank bottom.places.keys.toFinset) where
  refl := KeptBy.refl
  trans _ _ _ h h' := h.trans h'
  rankMono _ _ kept := rankMono _ kept
  joinGood _ _ _ _ good _ ok := (formJoined ok).trans good
  left _ _ _ _ _ _ ok := keptLeft ok
  right _ _ _ _ good good' ok := keptRight (good.trans good'.symm) ok
  least a b joined changed d good good' goodD ok kept kept' := by
    rw [keptByIff ((formJoined ok).trans (good.trans goodD.symm)),
      contentJoined (good.trans good'.symm) ok]
    exact sup_le ((keptByIff (good.trans goodD.symm)).mp kept)
      ((keptByIff (good'.trans goodD.symm)).mp kept')
  unchanged := (@joining tcx c descend bottom).unchanged
  changed a b joined good good' ok := by
    by_contra small
    apply (joinChanged ok).mp rfl
    refine rankSame (formJoined ok).symm ?_ (keptLeft ok) (not_lt.mp small)
    intro p absent
    have here := (formJoined ok).trans good p
    have none_ : bottom.get p = none := HashMap.getNone.mpr (by simpa using absent)
    rw [none_] at here
    exact Option.map_eq_none_iff.mp here
  effectGood := (@joining tcx c descend bottom).effectGood
  mono bb a b out out' good good' kept effect effect' := by
    obtain ⟨s, t, ran⟩ := effect
    obtain ⟨s', t', ran'⟩ := effect'
    exact (blockLe idle ⟨good.trans good'.symm, kept⟩ ran ran').2

def loopStart (tcx : TyCtxt) (c : Collector) (bottom : CollectorDomain) (s : Session) :
    Analysis.Progress Session CollectorDomain :=
  ⟨List.replicate c.substitutedBody.basicBlocks.length bottom, tcx.reversePostorder c.substitutedBody, s⟩

def ClosedTypes (tcx : TyCtxt) (descend : Collector → Exec Session CollectorDomain) (c : Collector)
    (bottom : CollectorDomain) (table : Nat → CollectorDomain) : Prop :=
  (analysis tcx descend c).ClosedTable (fun s => s.SameForm bottom) KeptBy bottom
    c.substitutedBody.basicBlocks.length (tcx.reversePostorder c.substitutedBody) table

theorem fixpointReachedIff (idle : NoCalls tcx c.substitutedBody)
    (inOrder : ∀ bb ∈ tcx.reversePostorder c.substitutedBody,
      ∀ target ∈ (analysis tcx descend c).edges bb, target ∈ tcx.reversePostorder c.substitutedBody)
    (bottom : CollectorDomain) (s : Session) :
    ((analysis tcx descend c).Ends (loopStart tcx c bottom s) ↔
      (analysis tcx descend c).Fails (loopStart tcx c bottom s) ∨
        ∃ table, ClosedTypes tcx descend c bottom table) ∧
    ((∃ fuel entry t, (analysis tcx descend c).iterateToFixpoint fuel
        (List.replicate c.substitutedBody.basicBlocks.length bottom)
        (tcx.reversePostorder c.substitutedBody) s = (some entry, t)) ↔
      ¬ (analysis tcx descend c).Fails (loopStart tcx c bottom s) ∧
        ∃ table, ClosedTypes tcx descend c bottom table) :=
  Analysis.endsIff (ranked idle bottom) (.refl bottom) inOrder s

end

/- `loop { wrapped = &raw const object; object = wrapped as *const dyn Trait }`, called with a
pointer to a number. -/
def loopBody : Body := ⟨1, [Ty.unit, objectPtr, pointer objectPtr], [⟨wrapInto 1 2 1, .other [0]⟩], [], 0⟩

noncomputable def loopCrate : TyCtxt :=
  localsCrate (fun _ => some loopBody) (fun _ => [objectSig]) (.listed [pointer Ty.usize] (List.nodup_singleton _))

noncomputable def looper : Collector :=
  ⟨[], [], .function ⟨.item, 0, []⟩ ⟨[.erased {pointer Ty.usize}]⟩, loopBody, false⟩

theorem loopIdle : NoCalls loopCrate looper.substitutedBody := by
  intro data mem functionTy takes
  cases List.mem_singleton.mp mem
  exact takes

theorem loopOrder : ∀ bb ∈ loopCrate.reversePostorder looper.substitutedBody,
    ∀ target ∈ (analysis loopCrate (fun _ => Exec.fail) looper).edges bb,
      target ∈ loopCrate.reversePostorder looper.substitutedBody := by
  decide +kernel

theorem loopStarts : (looper.bottomValue loopCrate (startSession ⟨.item, 0, []⟩)).1.isSome = true := by
  decide +kernel

noncomputable def loopBottom : CollectorDomain :=
  (looper.bottomValue loopCrate (startSession ⟨.item, 0, []⟩)).1.get loopStarts

def Looping (state : CollectorDomain) : Prop :=
  ∃ deps kept, state.get (.fromLocal 1) = some (.erased deps) ∧ deps.Nonempty ∧ Pointers deps ∧
    state.get (.fromLocal 2) = some (.erased kept) ∧ Pointers kept

theorem loopBottomLooping : Looping loopBottom := by
  have object : loopBottom.get (.fromLocal 1) = some (.erased {pointer Ty.usize}) := by decide +kernel
  have wrapped : loopBottom.get (.fromLocal 2) = some (.erased ∅) := by decide +kernel
  refine ⟨_, _, object, Finset.singleton_nonempty _, ?_, wrapped, ?_⟩
  · intro ty mem
    exact ⟨Ty.usize, Finset.mem_singleton.mp mem⟩
  · intro ty mem
    cases mem

theorem loopVisit {state : CollectorDomain} (looping : Looping state) (s : Session) : ∃ next,
    (analysis loopCrate (fun _ => Exec.fail) looper).advance ⟨[state], [0], s⟩ = some ⟨[next], [0], s⟩ ∧
      Looping next := by
  obtain ⟨deps, kept, hdeps, nonempty, pointers, hkept, pointers'⟩ := looping
  obtain ⟨out, ran, outWrapped, outTarget, _, _⟩ :=
    @wrapLocal (fun _ => some loopBody) (fun _ => [objectSig])
      (.listed [pointer Ty.usize] (List.nodup_singleton _)) looper s state 1 2 1 deps deps kept (pointer objectPtr) rfl objectPtr rfl (by decide) hdeps hkept pointers'
      hdeps pointers
  have applied : (analysis loopCrate (fun _ => Exec.fail) looper).apply 0 state s = (some out, s) :=
    Exec.bindSome.mpr ⟨_, s, rfl, Exec.bindSome.mpr ⟨out, s, ran, rfl⟩⟩
  have form : out.SameForm state :=
    (formRule loopCrate looper (fun _ => Exec.fail) state).blockHeld (.refl state) applied
  obtain ⟨joined, changed, ok⟩ := joinSome form.symm
  have object : joined.get (.fromLocal 1) =
      some (.erased (deps ∪ (deps ∪ (kept ∪ deps.image pointer)))) := by
    have after := joinGet ok (.fromLocal 1)
    rw [show state.places.get (.fromLocal 1) = _ from hdeps,
      show out.places.get (.fromLocal 1) = _ from outTarget] at after
    exact after.trans (congrArg some (TrackedTy.joinErased deps _))
  have wrapped : joined.get (.fromLocal 2) = some (.erased (kept ∪ (kept ∪ deps.image pointer))) := by
    have after := joinGet ok (.fromLocal 2)
    rw [show state.places.get (.fromLocal 2) = _ from hkept,
      show out.places.get (.fromLocal 2) = _ from outWrapped] at after
    exact after.trans (congrArg some (TrackedTy.joinErased kept _))
  have moved : changed = true := by
    rw [joinChanged ok]
    intro same
    have here := (same.places (.fromLocal 1)).symm.trans hdeps
    rw [object] at here
    have closed := TrackedTy.erased.inj (Option.some.inj here)
    refine wrappedEscapes nonempty (fun ty mem => closed ▸ ?_)
    simp only [Finset.mem_union]
    exact .inr (.inr (.inr mem))
  subst moved
  refine ⟨joined, ?_, _, _, object, nonempty.mono Finset.subset_union_left, ?_, wrapped, ?_⟩
  · have entered : (analysis loopCrate (fun _ => Exec.fail) looper).joinInto out [0] ([state], []) =
        some ([joined], [0]) := by
      have joins : (analysis loopCrate (fun _ => Exec.fail) looper).join state out = some (joined, true) := ok
      simp [Analysis.joinInto, Analysis.joinOne, joins]
    have edges : (analysis loopCrate (fun _ => Exec.fail) looper).edges 0 = [0] := rfl
    simp only [Analysis.advance, List.getElem?_cons_zero, applied, edges, entered, bind, Option.bind_some]
  · exact pointersUnion pointers (pointersUnion pointers (pointersUnion pointers' (pointersWrapped deps)))
  · exact pointersUnion pointers' (pointersUnion pointers' (pointersWrapped deps))

theorem loopGoesOn : NoCalls loopCrate looper.substitutedBody ∧
    looper.bottomValue loopCrate (startSession ⟨.item, 0, []⟩) = (some loopBottom, startSession ⟨.item, 0, []⟩) ∧
    ¬ (analysis loopCrate (fun _ => Exec.fail) looper).Ends
      (loopStart loopCrate looper loopBottom (startSession ⟨.item, 0, []⟩)) ∧
    ¬ (analysis loopCrate (fun _ => Exec.fail) looper).Fails
      (loopStart loopCrate looper loopBottom (startSession ⟨.item, 0, []⟩)) := by
  have always : ∀ n state, Looping state → ∀ s, ∃ next,
      (analysis loopCrate (fun _ => Exec.fail) looper).visits n ⟨[state], [0], s⟩ = some ⟨[next], [0], s⟩ ∧
        Looping next := by
    intro n
    induction n with
    | zero => exact fun state looping s => ⟨state, rfl, looping⟩
    | succ n ih =>
      intro state looping s
      obtain ⟨mid, moved, looping'⟩ := loopVisit looping s
      obtain ⟨next, reached, looping''⟩ := ih mid looping' s
      exact ⟨next, by rw [Analysis.visits, moved, Option.bind_some, reached], looping''⟩
  have never : ¬ (analysis loopCrate (fun _ => Exec.fail) looper).Ends
      (loopStart loopCrate looper loopBottom (startSession ⟨.item, 0, []⟩)) := by
    intro ends
    obtain ⟨n, none_⟩ := ends
    obtain ⟨next, reached, _⟩ := always n loopBottom loopBottomLooping (startSession ⟨.item, 0, []⟩)
    exact absurd (reached.symm.trans none_) (by simp)
  refine ⟨loopIdle, Prod.ext (Option.some_get loopStarts).symm rfl, never, ?_⟩
  exact fun fails => never (Analysis.endsCases.mpr (.inl fails))

theorem loopReachedIff :
    ((analysis loopCrate (fun _ => Exec.fail) looper).Ends
        (loopStart loopCrate looper loopBottom (startSession ⟨.item, 0, []⟩)) ↔
      (analysis loopCrate (fun _ => Exec.fail) looper).Fails
          (loopStart loopCrate looper loopBottom (startSession ⟨.item, 0, []⟩)) ∨
        ∃ table, ClosedTypes loopCrate (fun _ => Exec.fail) looper loopBottom table) ∧
    ((∃ fuel entry t, (analysis loopCrate (fun _ => Exec.fail) looper).iterateToFixpoint fuel
        (List.replicate looper.substitutedBody.basicBlocks.length loopBottom)
        (loopCrate.reversePostorder looper.substitutedBody) (startSession ⟨.item, 0, []⟩) = (some entry, t)) ↔
      ¬ (analysis loopCrate (fun _ => Exec.fail) looper).Fails
          (loopStart loopCrate looper loopBottom (startSession ⟨.item, 0, []⟩)) ∧
        ∃ table, ClosedTypes loopCrate (fun _ => Exec.fail) looper loopBottom table) :=
  fixpointReachedIff loopIdle loopOrder loopBottom (startSession ⟨.item, 0, []⟩)

end Collector
end Scrutinizer
