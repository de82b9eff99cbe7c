import Scrutinizer.DirectCalls

/-! The collection of a program of direct calls is a depth-first search. A function is analysed
once, when the search first comes to it, and its record lacks the calls of the functions that
are on the stack then: those on the first path to it. -/
namespace Scrutinizer

def OnFirstPath (tcx : TyCtxt) (origin caller callee : DefId) : Prop :=
  ∃ path, FirstPath.First (callees tcx) caller [] origin path ∧ callee ∈ origin :: path

def recordedCall (tcx : TyCtxt) (callee : DefId) (args : List Operand) : FunctionCall :=
  if tcx.isMirAvailable callee then .withBody (itemOf callee) args else .withoutBody callee args

def KeptCall (tcx : TyCtxt) (skipped : DefId → Prop) (caller : DefId) (call : FunctionCall) : Prop :=
  ∃ args callee, CallsWith tcx caller args callee ∧ ¬ skipped callee ∧
    call = recordedCall tcx callee args

namespace FunctionInfoStorage

def firstOf (fns : FunctionInfoStorage) (did : DefId) : Option FunctionInfo :=
  fns.fns.find? (fun f => decide (f.key = .withBody (itemOf did)))

def Analysed (fns : FunctionInfoStorage) (did : DefId) : Prop :=
  ∃ f ∈ fns.fns, f.key = .withBody (itemOf did)

theorem analysedFirst {fns : FunctionInfoStorage} {did : DefId} :
    fns.Analysed did ↔ ∃ f, fns.firstOf did = some f := by
  rw [firstOf, ← Option.isSome_iff_exists, List.find?_isSome]
  simp [Analysed]

theorem analysedInsert {fns : FunctionInfoStorage} {info : FunctionInfo} {did : DefId} :
    (fns.insert info).Analysed did ↔ fns.Analysed did ∨ info.key = .withBody (itemOf did) := by
  constructor
  · intro h
    cases known : fns.firstOf did with
    | some f => exact .inl (analysedFirst.mpr ⟨f, known⟩)
    | none =>
      obtain ⟨f, first⟩ := analysedFirst.mp h
      exact .inr (insertNew known first).2
  · intro h
    cases h with
    | inl before =>
      obtain ⟨f, mem, key⟩ := before
      exact ⟨f, (fns.insertPrefix info).subset mem, key⟩
    | inr now =>
      obtain ⟨f, mem, key⟩ := fns.insertHasKey info
      exact ⟨f, mem, key.trans now⟩

end FunctionInfoStorage

open FunctionInfoStorage

/- What the first record of a function says: its calls but those of functions on the first path
to it. -/
def FirstRecordOf (tcx : TyCtxt) (origin did : DefId) (f : FunctionInfo) : Prop :=
  ∃ places calls body span, f = .withBody (itemOf did) places calls body span ∅ ∧
    functionBody tcx did = some body ∧
    ∀ call, call ∈ calls ↔ KeptCall tcx (OnFirstPath tcx origin did) did call

structure Standing (tcx : TyCtxt) (origin : DefId) (fns : FunctionInfoStorage)
    (stack : List DefId) : Prop where
  records : ∀ did f, fns.firstOf did = some f → FirstRecordOf tcx origin did f
  closed : FirstPath.Closed (callees tcx) fns.Analysed stack
  fresh : ∀ did ∈ stack, ¬ fns.Analysed did

section
variable {tcx : TyCtxt} {origin did : DefId} {fns : FunctionInfoStorage} {above : List DefId}

theorem Standing.insertKnown {stack : List DefId} (standing : Standing tcx origin fns stack)
    {info : FunctionInfo} (known : ∀ did, info.key = .withBody (itemOf did) → fns.Analysed did) :
    Standing tcx origin (fns.insert info) stack := by
  have same : ∀ did, (fns.insert info).Analysed did ↔ fns.Analysed did := by
    intro did
    rw [analysedInsert]
    exact ⟨fun h => h.elim id (known did), .inl⟩
  constructor
  · intro did f first
    have before : fns.Analysed did := (same did).mp (analysedFirst.mpr ⟨f, first⟩)
    obtain ⟨f', first'⟩ := analysedFirst.mp before
    cases Option.some.inj (first.symm.trans (insertFirst first' info))
    exact standing.records did f first'
  · intro caller h next edge
    rw [same] at h ⊢
    exact standing.closed caller h next edge
  · intro did mem
    rw [same]
    exact standing.fresh did mem

theorem Standing.insertTop (standing : Standing tcx origin fns (did :: above))
    {before : DefId → Prop} (ready : FirstPath.Ready (callees tcx) origin before (did :: above))
    (new : ¬ before did) {body : Body} {results : CollectorDomain} {span : Nat}
    (hasBody : functionBody tcx did = some body)
    (calls : ∀ call, call ∈ results.calls ↔ KeptCall tcx (· ∈ did :: above) did call)
    (handled : results.unhandled = ∅)
    (searched : ∀ next ∈ callees tcx did, fns.Analysed next ∨ next ∈ did :: above) :
    Standing tcx origin
      (fns.insert (.withBody (itemOf did) results.places results.calls body span results.unhandled))
      above := by
  obtain ⟨path, whole, first⟩ := ready.first new
  have onPath : ∀ callee, OnFirstPath tcx origin did callee ↔ callee ∈ did :: above := by
    intro callee
    have mem : callee ∈ origin :: path ↔ callee ∈ did :: above := by rw [whole, List.mem_reverse]
    constructor
    · intro h
      obtain ⟨path', first', there⟩ := h
      rw [first.unique first'] at there
      exact mem.mp there
    · exact fun there => ⟨path, first, mem.mpr there⟩
  have grown : ∀ other, (fns.insert (.withBody (itemOf did) results.places results.calls body span
      results.unhandled)).Analysed other ↔ fns.Analysed other ∨ other = did := by
    intro other
    rw [analysedInsert]
    simp [FunctionInfo.key, itemOf, eq_comm]
  constructor
  · intro other f found
    cases known : fns.firstOf other with
    | some f' =>
      cases Option.some.inj (found.symm.trans (insertFirst known _))
      exact standing.records other f known
    | none =>
      obtain ⟨rfl, key⟩ := insertNew known found
      have same : did = other := by simpa [FunctionInfo.key, itemOf] using key
      subst same
      refine ⟨results.places, results.calls, body, span, by rw [handled], hasBody, ?_⟩
      intro call
      rw [calls call]
      simp only [KeptCall, onPath]
  · intro caller h next edge
    rw [grown] at h ⊢
    have outside : fns.Analysed next ∨ next ∈ did :: above := by
      cases h with
      | inl earlier => exact standing.closed caller earlier next edge
      | inr now => exact searched next (now ▸ edge)
    rcases outside with known | on
    · exact .inl (.inl known)
    · rcases List.mem_cons.mp on with rfl | deeper
      · exact .inl (.inr rfl)
      · exact .inr deeper
  · intro other mem h
    cases (grown other).mp h with
    | inl known => exact standing.fresh other (List.mem_cons_of_mem _ mem) known
    | inr same => exact ready.distinct (same ▸ mem)

end
end Scrutinizer
