import Scrutinizer.Library.MapM
import Scrutinizer.TyCtxt

/-! Which functions of the crate are analysed: those written as functions, or the closures that
are passed to the constructor of privacy-pure regions. -/
namespace Scrutinizer

inductive GenericParamKind where
  | lifetime
  | type
  | const
  deriving DecidableEq, Repr

/- An item of the crate: its `doc` attributes, each with its string if it has one, and the kinds
of its generic parameters. -/
structure Item where
  defId : DefId
  isFn : Bool
  docs : List (Option String)
  params : List GenericParamKind
  deriving DecidableEq, Repr

inductive ConstContext where
  | constFn
  | static
  | const
  deriving DecidableEq, Repr

structure Hir where
  items : List Item
  mirKeys : List DefId
  bodyConstContext : DefId → Option ConstContext
  optimizedMir : DefId → Body

namespace Item

/- `get_attr` finds the first attribute of the name. -/
def annotatedPure (item : Item) : Bool :=
  match item.docs.head? with
  | some (some doc) => decide (doc = "pure")
  | _ => false

def hasGenerics (item : Item) : Bool := item.params.any (fun param => decide (param ≠ .lifetime))

/- `Instance::mono`. -/
def mono (item : Item) : Instance := ⟨.item, item.defId, item.params.map (fun _ => .lifetime)⟩

end Item

def selectFunctions (hir : Hir) : List (Instance × Bool) :=
  hir.items.filterMap (fun item =>
    if item.isFn then if item.hasGenerics then none else some (item.mono, item.annotatedPure)
    else none)

def pprConstructor : String := "alohomora::pure::PrivacyPureRegion::<F>::new"

/- The type that a terminator passes to the constructor, if it calls it; `none` is a panic. -/
def visitTerminator (tcx : TyCtxt) (body : Body) : Terminator → Option (Option Ty)
  | .call func args _ _ _ => do
      let funcTy ← (func.ty tcx body).toOption
      match funcTy with
      | .fnDef defId _ =>
          if tcx.defPathStr defId = pprConstructor then do
            let arg ← args[0]?
            let ty ← (arg.ty tcx body).toOption
            some (some ty)
          else some none
      | _ => some none
  | _ => some none

def collectPprs (tcx : TyCtxt) (body : Body) : Option (List Ty) := do
  let pprs ← body.basicBlocks.mapM (fun data => visitTerminator tcx body data.terminator)
  some (pprs.filterMap id)

/- The closure of a region; anything else makes the code panic. -/
def pprInstance (tcx : TyCtxt) : Ty → Option (Instance × Bool)
  | .closure defId substs => do
      let inst ← tcx.resolve defId substs
      some (inst, true)
  | _ => none

def pprsOf (tcx : TyCtxt) (hir : Hir) (key : DefId) : Option (List (Instance × Bool)) :=
  match hir.bodyConstContext key with
  | some .constFn | none => do
      let pprs ← collectPprs tcx (hir.optimizedMir key)
      pprs.mapM (pprInstance tcx)
  | some _ => some []

def selectPprs (tcx : TyCtxt) (hir : Hir) : Option (List (Instance × Bool)) := do
  let found ← hir.mirKeys.mapM (pprsOf tcx hir)
  some found.flatten

theorem pprsAnnotated {tcx : TyCtxt} {hir : Hir} {selected : List (Instance × Bool)}
    (ok : selectPprs tcx hir = some selected) {inst : Instance} {annotated : Bool}
    (mem : (inst, annotated) ∈ selected) : annotated = true := by
  obtain ⟨found, each, last⟩ := Option.bind_eq_some_iff.mp ok
  cases Option.some.inj last
  obtain ⟨group, inFound, inside⟩ := List.mem_flatten.mp mem
  obtain ⟨key, _, made⟩ := MapM.memRight (MapM.someIff.mp each) group inFound
  have regions : ∃ pprs : List Ty, pprs.mapM (pprInstance tcx) = some group := by
    unfold pprsOf at made
    split at made
    · obtain ⟨pprs, _, converted⟩ := Option.bind_eq_some_iff.mp made
      exact ⟨pprs, converted⟩
    · obtain ⟨pprs, _, converted⟩ := Option.bind_eq_some_iff.mp made
      exact ⟨pprs, converted⟩
    · exact ⟨[], made⟩
  obtain ⟨pprs, converted⟩ := regions
  obtain ⟨ppr, _, one⟩ := MapM.memRight (MapM.someIff.mp converted) _ inside
  unfold pprInstance at one
  split at one
  · obtain ⟨inst', _, last⟩ := Option.bind_eq_some_iff.mp one
    exact (Prod.mk.inj (Option.some.inj last)).2.symm
  · contradiction

end Scrutinizer
