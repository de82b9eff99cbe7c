import Scrutinizer.Collector
import Scrutinizer.Heuristics
import Scrutinizer.Library.Reach
import Scrutinizer.PlainCrate

/-! The check made before a function is analysed. It looks for mutable references at the head of
the argument types; the notion of the transmute check looks below the head as well. -/
namespace Scrutinizer
open Collector

/- `None` where the body cannot be loaded. -/
def precheck (tcx : TyCtxt) (inst : Instance) : Option (Except String Unit) := do
  let body ← tcx.substitutedMir inst
  let args ← originArgs body
  let containsUnresolvedGenerics := args.argTys.any (fun arg => match arg with
    | .present _ => false
    | .erased _ => true)
  if containsUnresolvedGenerics then some (.error "erased args detected")
  else
    let containsMutableArgs := args.argTys.any (fun arg => match arg with
      | .present ty => decide (ty.refMutability = some .mut)
      | .erased _ => false)
    if containsMutableArgs then some (.error "mutable arguments detected")
    else some (.ok ())

def argumentTys (tcx : TyCtxt) (inst : Instance) : List Ty :=
  ((tcx.substitutedMir inst).bind (fun body =>
    (List.range body.argCount).mapM (fun i => body.localDecls[i + 1]?))).getD []

namespace Ty

def Inside (tcx : TyCtxt) (ty inner : Ty) : Prop := inner ∈ ty.adtFields tcx ∨ inner ∈ ty.components

def IsMutRef (ty : Ty) : Prop := ty.refMutability = some .mut

def HasMutRef (tcx : TyCtxt) (ty : Ty) : Prop := Reach.Reaches (Inside tcx) IsMutRef ty

def HidesMutRef (tcx : TyCtxt) (ty : Ty) : Prop := ∃ inner, Inside tcx ty inner ∧ HasMutRef tcx inner

end Ty

section
variable {tcx : TyCtxt}

theorem hasMutRefIff {ty : Ty} : ty.HasMutRef tcx ↔ ty.IsMutRef ∨ ty.HidesMutRef tcx :=
  Reach.reachesIff

theorem orAllSome {flags : List (Option Bool)} :
    (∃ b, orAll flags = some b) ↔ ∀ flag ∈ flags, ∃ v, flag = some v := by
  constructor
  · intro ends flag mem
    obtain ⟨b, made⟩ := ends
    obtain ⟨values, each, _⟩ := Option.map_eq_some_iff.mp made
    obtain ⟨v, _, known⟩ := MapM.memLeft (MapM.someIff.mp each) flag mem
    exact ⟨v, known⟩
  · intro each
    obtain ⟨values, made⟩ := MapM.someTotal each
    exact ⟨values.any id, by rw [orAll, show flags.mapM id = some values from made, Option.map_some]⟩

theorem orAllCons {first : Option Bool} {rest : List (Option Bool)} {b : Bool}
    (h : orAll (first :: rest) = some b) :
    ∃ head tail, first = some head ∧ orAll rest = some tail ∧ b = (head || tail) := by
  obtain ⟨values, each, rfl⟩ := Option.map_eq_some_iff.mp h
  obtain ⟨head, tail, known, others, rfl⟩ := List.forall₂_cons_left_iff.mp (MapM.someIff.mp each)
  exact ⟨head, tail.any id, known, by rw [orAll, MapM.someIff.mpr others, Option.map_some], rfl⟩

theorem orAllIff {flags : List (Option Bool)} {b : Bool} (h : orAll flags = some b) :
    (∀ flag ∈ flags, ∃ v, flag = some v) ∧ (b = true ↔ some true ∈ flags) := by
  obtain ⟨values, each, rfl⟩ := Option.map_eq_some_iff.mp h
  have related := MapM.someIff.mp each
  constructor
  · intro flag mem
    obtain ⟨v, _, known⟩ := MapM.memLeft related flag mem
    exact ⟨v, known⟩
  · simp only [List.any_eq_true, id]
    constructor
    · intro found
      obtain ⟨v, mem, rfl⟩ := found
      obtain ⟨flag, mem', same⟩ := MapM.memRight related true mem
      exact same ▸ mem'
    · intro mem
      obtain ⟨v, mem', same⟩ := MapM.memLeft related (some true) mem
      exact ⟨v, mem', (Option.some.inj same).symm⟩

theorem containsMutRefIff (fuel : Nat) : ∀ {ty : Ty} {b : Bool},
    containsMutRef tcx fuel ty = some b → (b = true ↔ ty.HasMutRef tcx) := by
  induction fuel with
  | zero => intro ty b h; cases h
  | succ fuel ih =>
    intro ty b h
    simp only [containsMutRef, bind, Option.bind_eq_some_iff] at h
    obtain ⟨fields, okFields, inner, okInner, last⟩ := h
    cases Option.some.inj last
    have below : ∀ {tys : List Ty} {found : Bool},
        orAll (tys.map (containsMutRef tcx fuel)) = some found →
          (found = true ↔ ∃ inner ∈ tys, inner.HasMutRef tcx) := by
      intro tys found ok
      obtain ⟨all, some_⟩ := orAllIff ok
      rw [some_, List.mem_map]
      constructor
      · intro hit
        obtain ⟨inner, mem, visited⟩ := hit
        exact ⟨inner, mem, (ih visited).mp rfl⟩
      · intro hit
        obtain ⟨inner, mem, has⟩ := hit
        obtain ⟨v, visited⟩ := all _ (List.mem_map_of_mem mem)
        rw [(ih visited).mpr has] at visited
        exact ⟨inner, mem, visited⟩
    rw [hasMutRefIff]
    simp only [Bool.or_eq_true, decide_eq_true_eq, below okFields, below okInner, Ty.IsMutRef,
      Ty.HidesMutRef, Ty.Inside, or_and_right, exists_or]
    rw [or_assoc, or_left_comm]

theorem precheckOkIff {inst : Instance} {body : Body} {tys : List Ty}
    (loaded : tcx.substitutedMir inst = some body)
    (declared_ : (List.range body.argCount).mapM (fun i => body.localDecls[i + 1]?) = some tys) :
    precheck tcx inst = some (.ok ()) ↔
      ∀ ty ∈ tys, containsErased ty = false ∧ ¬ ty.IsMutRef := by
  have args : originArgs body = some ⟨tys.map TrackedTy.fromTy⟩ := by rw [originArgs, declared_]; rfl
  simp only [precheck, loaded, args, bind, Option.bind_some, List.any_map]
  have present : ∀ ty ∈ tys, containsErased ty = false → TrackedTy.fromTy ty = .present ty :=
    fun ty _ plain => TrackedTy.fromTyPresent plain
  split
  · rename_i found
    obtain ⟨ty, mem, erased⟩ := List.any_eq_true.mp found
    constructor
    · intro ok; cases ok
    · intro all
      simp [present ty mem (all ty mem).1] at erased
  · rename_i nothingErased
    have plain : ∀ ty ∈ tys, containsErased ty = false := by
      intro ty mem
      by_contra erased
      apply nothingErased
      refine List.any_eq_true.mpr ⟨ty, mem, ?_⟩
      simp [TrackedTy.fromTyErased (by simpa using erased)]
    split
    · rename_i found
      obtain ⟨ty, mem, mutable_⟩ := List.any_eq_true.mp found
      constructor
      · intro ok; cases ok
      · intro all
        simp only [Function.comp, present ty mem (plain ty mem), decide_eq_true_eq] at mutable_
        exact absurd mutable_ (all ty mem).2
    · rename_i noMutable
      constructor
      · intro _ ty mem
        refine ⟨plain ty mem, fun mutable_ => noMutable ?_⟩
        refine List.any_eq_true.mpr ⟨ty, mem, ?_⟩
        simp only [Function.comp, present ty mem (plain ty mem), decide_eq_true_eq]
        exact mutable_
      · exact fun _ => rfl

theorem precheckExcludesIff (tcx : TyCtxt) (inst : Instance) :
    (precheck tcx inst = some (.ok ()) → ∀ ty ∈ argumentTys tcx inst, ¬ ty.HasMutRef tcx) ↔
      (∃ ty ∈ argumentTys tcx inst, containsErased ty = true ∨ ty.IsMutRef) ∨
        ∀ ty ∈ argumentTys tcx inst, ¬ ty.HidesMutRef tcx := by
  unfold argumentTys
  cases loaded : tcx.substitutedMir inst with
  | none => simp
  | some body =>
    simp only [Option.bind_some]
    cases declared_ : (List.range body.argCount).mapM (fun i => body.localDecls[i + 1]?) with
    | none => simp
    | some tys =>
      rw [precheckOkIff loaded declared_]
      simp only [Option.getD_some, hasMutRefIff, not_or]
      constructor
      · intro excludes
        by_cases refused : ∃ ty ∈ tys, containsErased ty = true ∨ ty.IsMutRef
        · exact .inl refused
        · right
          push Not at refused
          intro ty mem
          have accepted : ∀ ty ∈ tys, containsErased ty = false ∧ ¬ ty.IsMutRef :=
            fun ty mem => ⟨by simpa using (refused ty mem).1, (refused ty mem).2⟩
          exact (excludes accepted ty mem).2
      · intro holds accepted ty mem
        cases holds with
        | inl refused =>
          obtain ⟨other, mem', why⟩ := refused
          obtain ⟨plain, immutable⟩ := accepted other mem'
          cases why with
          | inl erased => exact absurd (plain.symm.trans erased) (by simp)
          | inr mutable_ => exact absurd mutable_ immutable
        | inr shallow => exact ⟨(accepted ty mem).2, shallow ty mem⟩

end

def tupleSink : Body :=
  ⟨2, [Ty.unit, Ty.usize, .tuple [.ref Ty.usize .mut]],
    [⟨[.assign ⟨2, [.field 0, .deref]⟩ (.useOperand (.copy (.fromLocal 1)))], .other []⟩], [], 0⟩

noncomputable def sinkCrate : TyCtxt :=
  {TyCtxt.plain (.listed [] List.nodup_nil) with loadBodyAndFacts := fun _ => some tupleSink}

def sinkFn : Instance := ⟨.item, 0, []⟩

theorem tupleSinkAccepted : ¬ (precheck sinkCrate sinkFn = some (.ok ()) →
    ∀ ty ∈ argumentTys sinkCrate sinkFn, ¬ ty.HasMutRef sinkCrate) := by
  intro excludes
  have accepted : precheck sinkCrate sinkFn = some (.ok ()) := by decide +kernel
  apply excludes accepted (.tuple [.ref Ty.usize .mut]) (by decide +kernel)
  exact Reach.further (.inr List.mem_cons_self) (Reach.here rfl)

end Scrutinizer
