import Scrutinizer.Fixpoints
import Scrutinizer.Library.LeastTable

/-! What the analysis of a body without calls computes: the least sets of types that its
assignments do not lead out of. Neither the order of the blocks nor what other analyses stored
before is left in the result. -/
namespace Scrutinizer
open CollectorDomain

theorem CollectorDomain.sameOfKept {s t : CollectorDomain} (form : s.SameForm t) (kept : s.KeptBy t)
    (back : t.KeptBy s) : s.Same t :=
  sameOfContent form (le_antisymm ((keptByIff form).mp kept) ((keptByIff form.symm).mp back))

namespace Collector
variable {tcx : TyCtxt} {c : Collector} {descend : Collector → Exec Session CollectorDomain}
  {bottom result result' : CollectorDomain}

/- The rest of `analyzeBody` when the engine queues the blocks in another order. -/
def analyzeBodyIn (tcx : TyCtxt) (descend : Collector → Exec Session CollectorDomain) (order : List Nat)
    (fuel : Nat) (c : Collector) : Exec Session CollectorDomain := do
  let bottom ← bottomValue tcx c
  (analysis tcx descend c).run fuel bottom c.substitutedBody.basicBlocks.length order

theorem analyzeBodyOrder (fuel : Nat) :
    analyzeBodyIn tcx descend (tcx.reversePostorder c.substitutedBody) fuel c = analyzeBody tcx descend fuel c :=
  rfl

theorem bottomSame {s t s' t' : Session} {other : CollectorDomain}
    (ran : bottomValue tcx c s = (some bottom, t)) (ran' : bottomValue tcx c s' = (some other, t')) :
    bottom = other := by
  have placesOf : ∀ {s t value}, bottomValue tcx c s = (some value, t) →
      ∃ places, initialPlaces tcx c = some places ∧ value = .new places := by
    intro s t value ran
    obtain ⟨session, _, _, ran⟩ := Exec.bindSome.mp ran
    obtain ⟨closures, _, _, ran⟩ := Exec.bindSome.mp ran
    obtain ⟨_, _, _, ran⟩ := Exec.bindSome.mp ran
    obtain ⟨places, _, started, last⟩ := Exec.bindSome.mp ran
    exact ⟨places, (Exec.liftSome.mp started).1, (Exec.pureSome.mp last).1.symm⟩
  obtain ⟨places, started, rfl⟩ := placesOf ran
  obtain ⟨places', started', rfl⟩ := placesOf ran'
  cases Option.some.inj (started.symm.trans started')
  rfl

section
variable (idle : NoCalls tcx c.substitutedBody) {order : List Nat}
  (inOrder : ∀ bb ∈ order, ∀ target ∈ (analysis tcx descend c).edges bb, target ∈ order)
include idle inOrder

theorem orderSolves {fuel : Nat} {s t : Session}
    (ran : analyzeBodyIn tcx descend order fuel c s = (some result, t)) :
    ∃ bottom s' t', bottomValue tcx c s' = (some bottom, t') ∧ ∃ table,
      (analysis tcx descend c).Solution (fun s => s.SameForm bottom) KeptBy bottom
        c.substitutedBody.basicBlocks.length order table result := by
  obtain ⟨bottom, s', started, ran⟩ := Exec.bindSome.mp ran
  exact ⟨bottom, s, s', started, Analysis.runSolves (ranked idle bottom) (.refl bottom) inOrder ran⟩

end

theorem analysisLeast (idle : NoCalls tcx c.substitutedBody)
    (inOrder : ∀ bb ∈ tcx.reversePostorder c.substitutedBody,
      ∀ target ∈ (analysis tcx descend c).edges bb, target ∈ tcx.reversePostorder c.substitutedBody)
    {fuel : Nat} {s t : Session} (ran : analyzeBody tcx descend fuel c s = (some result, t)) :
    ∃ bottom table, (bottomValue tcx c s).1 = some bottom ∧ ClosedTypes tcx descend c bottom table ∧
      (∀ other, ClosedTypes tcx descend c bottom other →
        ∀ bb < c.substitutedBody.basicBlocks.length, (table bb).KeptBy (other bb)) ∧
      (∀ bb < c.substitutedBody.basicBlocks.length, ∀ out,
        (analysis tcx descend c).Effect bb (table bb) out → out.KeptBy result) ∧
      ∀ larger, larger.SameForm bottom →
        (∀ bb < c.substitutedBody.basicBlocks.length, ∀ out,
          (analysis tcx descend c).Effect bb (table bb) out → out.KeptBy larger) → result.KeptBy larger := by
  obtain ⟨bottom, s', started, ran⟩ := Exec.bindSome.mp ran
  obtain ⟨table, solution⟩ := Analysis.runSolves (ranked idle bottom) (.refl bottom) inOrder ran
  refine ⟨bottom, table, by rw [started], solution.closed, solution.least, ?_, solution.lowest⟩
  intro bb small out effect
  -- an effect has one result at a state, up to the order
  obtain ⟨out', effect', up⟩ := solution.ends bb small
  have good := solution.closed.good bb small
  exact ((ranked idle bottom).mono bb _ _ _ _ good good (.refl _) effect effect').trans up

theorem scheduleFree (idle : NoCalls tcx c.substitutedBody) {order order' : List Nat}
    (inOrder : ∀ bb ∈ order, ∀ target ∈ (analysis tcx descend c).edges bb, target ∈ order)
    (same : ∀ bb, bb ∈ order ↔ bb ∈ order') {fuel fuel' : Nat} {s t s' t' : Session}
    (ran : analyzeBodyIn tcx descend order fuel c s = (some result, t))
    (ran' : analyzeBodyIn tcx descend order' fuel' c s' = (some result', t')) : result.Same result' := by
  have inOrder' : ∀ bb ∈ order', ∀ target ∈ (analysis tcx descend c).edges bb, target ∈ order' :=
    fun bb listed target leads => (same target).mp (inOrder bb ((same bb).mpr listed) target leads)
  obtain ⟨bottom, _, _, started, table, solution⟩ := orderSolves idle inOrder ran
  obtain ⟨bottom', _, _, started', table', solution'⟩ := orderSolves idle inOrder' ran'
  cases bottomSame started started'
  have below := solution.below (ranked idle bottom) (fun bb => (same bb).mp) solution'
  have above := solution'.below (ranked idle bottom) (fun bb => (same bb).mpr) solution
  exact sameOfKept (solution.good.trans solution'.good.symm) below above

def roundBody : Body := ⟨2, [Ty.unit, objectPtr, objectPtr, objectPtr],
  [⟨[.assign (.fromLocal 3) (.useOperand (.copy (.fromLocal 1)))], .other [1, 2]⟩,
    ⟨[.assign (.fromLocal 1) (.useOperand (.copy (.fromLocal 2)))], .other [0]⟩,
    ⟨[.assign (.fromLocal 2) (.useOperand (.copy (.fromLocal 3)))], .other [0, 3]⟩,
    .returning], [], 0⟩

noncomputable def roundCrate : TyCtxt :=
  localsCrate (fun _ => some roundBody) (fun _ => [objectSig, objectSig])
    (.listed [pointer Ty.usize, pointer Ty.bool] (by decide))

noncomputable def rounder : Collector :=
  ⟨[], [], .function ⟨.item, 0, []⟩ ⟨[.erased {pointer Ty.usize}, .erased {pointer Ty.bool}]⟩, roundBody, false⟩

theorem roundIdle : NoCalls roundCrate rounder.substitutedBody := by
  intro data mem functionTy takes
  simp only [rounder, roundBody, List.mem_cons, List.not_mem_nil, or_false] at mem
  rcases mem with rfl | rfl | rfl | rfl <;> exact takes

theorem roundOrder : ∀ bb ∈ roundCrate.reversePostorder rounder.substitutedBody,
    ∀ target ∈ (analysis roundCrate (fun _ => Exec.fail) rounder).edges bb,
      target ∈ roundCrate.reversePostorder rounder.substitutedBody := by
  decide +kernel

theorem roundEnds : (analyzeBody roundCrate (fun _ => Exec.fail) 30 rounder (startSession ⟨.item, 0, []⟩)).1.isSome =
    true := by
  decide +kernel

theorem roundBackwards : (analyzeBodyIn roundCrate (fun _ => Exec.fail) [3, 2, 1, 0] 30 rounder
    (startSession ⟨.item, 0, []⟩)).1.isSome = true := by
  decide +kernel

theorem roundLeast : ∃ result bottom table,
    (analyzeBody roundCrate (fun _ => Exec.fail) 30 rounder (startSession ⟨.item, 0, []⟩)).1 = some result ∧
    (bottomValue roundCrate rounder (startSession ⟨.item, 0, []⟩)).1 = some bottom ∧
    ClosedTypes roundCrate (fun _ => Exec.fail) rounder bottom table ∧
    ∀ other, ClosedTypes roundCrate (fun _ => Exec.fail) rounder bottom other →
      ∀ bb < rounder.substitutedBody.basicBlocks.length, (table bb).KeptBy (other bb) := by
  have ran := Prod.ext (Option.some_get roundEnds).symm rfl
  obtain ⟨bottom, table, started, closed, least, _⟩ := analysisLeast roundIdle roundOrder ran
  exact ⟨_, bottom, table, (Option.some_get roundEnds).symm, started, closed, least⟩

theorem roundSame : ∃ result result',
    (analyzeBodyIn roundCrate (fun _ => Exec.fail) (roundCrate.reversePostorder roundBody) 30 rounder
      (startSession ⟨.item, 0, []⟩)).1 = some result ∧
    (analyzeBodyIn roundCrate (fun _ => Exec.fail) [3, 2, 1, 0] 30 rounder
      (startSession ⟨.item, 0, []⟩)).1 = some result' ∧ result.Same result' := by
  have blocks : roundCrate.reversePostorder rounder.substitutedBody = [0, 1, 2, 3] := rfl
  have same : ∀ bb, bb ∈ roundCrate.reversePostorder rounder.substitutedBody ↔ bb ∈ [3, 2, 1, 0] := by
    intro bb
    simp only [blocks, List.mem_cons, List.not_mem_nil, or_false]
    omega
  refine ⟨_, _, (Option.some_get roundEnds).symm, (Option.some_get roundBackwards).symm, ?_⟩
  exact scheduleFree roundIdle roundOrder same
    (Prod.ext (Option.some_get roundEnds).symm rfl) (Prod.ext (Option.some_get roundBackwards).symm rfl)

end Collector
end Scrutinizer
