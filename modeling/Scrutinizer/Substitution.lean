import Mathlib.Data.List.TakeWhile
import Scrutinizer.Library.Distinct
import Scrutinizer.UnknownTypes

/-! Reading a substitution back from a substituted type. The walks over the generic type and over
the actual one are zipped; they stay aligned as long as what stands for the nodes on the way is as
many nodes, none of them seen before. -/
namespace Scrutinizer

theorem Ty.nodesHead (ty : Ty) : ∃ rest, ty.nodes = ty :: rest := by
  cases ty <;> exact ⟨_, rfl⟩

namespace SigTy

/- What the nodes of a substituted type show for one node of the generic type. -/
def shownAs (args : List Ty) : SigTy → List Ty
  | .param index => (instantiate args (.param index)).nodes
  | ty => [instantiate args ty]

mutual
theorem nodesInstantiate (args : List Ty) : ∀ ty : SigTy,
    (instantiate args ty).nodes = ty.nodes.flatMap (shownAs args)
  | .prim _ => by simp [instantiate, nodes, Ty.nodes, shownAs]
  | .param _ => by simp [nodes, shownAs]
  | .adt _ as => by simp [instantiate, nodes, Ty.nodes, shownAs, nodesInstantiateList args as]
  | .ref _ ty _ => by simp [instantiate, nodes, Ty.nodes, shownAs, nodesInstantiate args ty]
  | .rawPtr ty _ => by simp [instantiate, nodes, Ty.nodes, shownAs, nodesInstantiate args ty]
  | .array ty len => by
      simp [instantiate, nodes, Ty.nodes, shownAs, nodesInstantiate args ty, nodesInstantiate args len]
  | .slice ty => by simp [instantiate, nodes, Ty.nodes, shownAs, nodesInstantiate args ty]
  | .tuple tys => by simp [instantiate, nodes, Ty.nodes, shownAs, nodesInstantiateList args tys]
  | .fnDef _ as => by simp [instantiate, nodes, Ty.nodes, shownAs, nodesInstantiateList args as]
  | .fnPtr inputs output => by
      simp [instantiate, nodes, Ty.nodes, shownAs, nodesInstantiateList args inputs,
        nodesInstantiate args output]
  | .closure _ as => by simp [instantiate, nodes, Ty.nodes, shownAs, nodesInstantiateList args as]
  | .dynamic _ as _ => by simp [instantiate, nodes, Ty.nodes, shownAs, nodesInstantiateList args as]
  | .foreign _ => by simp [instantiate, nodes, Ty.nodes, shownAs]
  | .alias _ as => by simp [instantiate, nodes, Ty.nodes, shownAs, nodesInstantiateList args as]
  | .lifetime _ => by simp [instantiate, nodes, Ty.nodes, shownAs]
  | .const _ => by simp [instantiate, nodes, Ty.nodes, shownAs, usize, Ty.usize]

theorem nodesInstantiateList (args : List Ty) : ∀ tys : List SigTy,
    Ty.nodesList (instantiateList args tys) = (nodesList tys).flatMap (shownAs args)
  | [] => rfl
  | ty :: tys => by
      simp [instantiateList, nodesList, Ty.nodesList, nodesInstantiate args ty,
        nodesInstantiateList args tys]
end

theorem shownSome (args : List Ty) (ty : SigTy) : shownAs args ty ≠ [] := by
  cases ty with
  | param index =>
    obtain ⟨rest, same⟩ := Ty.nodesHead (instantiate args (.param index))
    simp [shownAs, same]
  | _ => simp [shownAs]

theorem memWalk {t ty : SigTy} : t ∈ ty.walk ↔ t ∈ ty.nodes := List.mem_eraseDups

theorem isParamIff {index : Nat} {ty : SigTy} : ty.isParam index = true ↔ ty = .param index := by
  cases ty <;> simp [isParam]

def beforeParam (index : Nat) (ty : SigTy) : List SigTy := ty.nodes.takeWhile (fun t => !t.isParam index)

theorem newParam (index : Nat) (ty : SigTy) : .param index ∉ beforeParam index ty := by
  intro mem
  have passed := List.mem_takeWhile_imp mem
  simp [isParam] at passed

def shownBefore (args : List Ty) (index : Nat) (ty : SigTy) : List Ty :=
  (beforeParam index ty).flatMap (shownAs args)

theorem splitAtFirst {α : Type} {p : α → Bool} {l : List α} (occurs : ∃ a ∈ l, p a = true) :
    ∃ a after, p a = true ∧ l = l.takeWhile (fun a => !p a) ++ a :: after := by
  induction l with
  | nil =>
    obtain ⟨_, mem, _⟩ := occurs
    cases mem
  | cons head rest ih =>
    by_cases here : p head = true
    · exact ⟨head, rest, here, by simp [here]⟩
    · obtain ⟨a, mem, holds⟩ := occurs
      have later : a ∈ rest := (List.mem_cons.mp mem).resolve_left (fun same => here (same ▸ holds))
      obtain ⟨b, after, stops, split⟩ := ih ⟨a, later, holds⟩
      refine ⟨b, after, stops, ?_⟩
      rw [List.takeWhile_cons_of_pos (by simpa using here), List.cons_append, ← split]

theorem nodesSplit {index : Nat} {ty : SigTy} (occurs : .param index ∈ ty.walk) :
    ∃ after, ty.nodes = beforeParam index ty ++ .param index :: after := by
  obtain ⟨t, after, stops, split⟩ :=
    splitAtFirst (p := isParam index) ⟨_, memWalk.mp occurs, isParamIff.mpr rfl⟩
  cases isParamIff.mp stops
  exact ⟨after, split⟩

def shownUntil (args : List Ty) (index : Nat) (ty : SigTy) : List Ty :=
  (shownBefore args index ty).takeWhile (fun t => !decide (t = instantiate args (.param index)))

def Aligned (args : List Ty) (index : Nat) (ty : SigTy) : Prop :=
  (shownUntil args index ty).toFinset.card = (beforeParam index ty).toFinset.card

theorem shownUntilNew (args : List Ty) (index : Nat) (ty : SigTy) :
    instantiate args (.param index) ∉ shownUntil args index ty := by
  intro mem
  have passed := List.mem_takeWhile_imp mem
  simp at passed

theorem shownUntilAll {args : List Ty} {index : Nat} {ty : SigTy}
    (late : instantiate args (.param index) ∉ shownBefore args index ty) :
    shownUntil args index ty = shownBefore args index ty := by
  refine List.takeWhile_eq_self_iff.mpr (fun t mem => ?_)
  have other : t ≠ instantiate args (.param index) := fun same => late (same ▸ mem)
  simpa using other

theorem instantiateSplit (args : List Ty) {index : Nat} {ty : SigTy} (occurs : .param index ∈ ty.walk) :
    ∃ after, (instantiate args ty).nodes =
      shownUntil args index ty ++ instantiate args (.param index) :: after := by
  obtain ⟨after, split⟩ := nodesSplit occurs
  obtain ⟨rest, head⟩ := Ty.nodesHead (instantiate args (.param index))
  have whole : (instantiate args ty).nodes = shownBefore args index ty ++
      instantiate args (.param index) :: (rest ++ after.flatMap (shownAs args)) := by
    rw [nodesInstantiate, split, List.flatMap_append, List.flatMap_cons]
    simp only [shownAs, head, List.cons_append, shownBefore]
  rw [whole]
  by_cases early : instantiate args (.param index) ∈ shownBefore args index ty
  · obtain ⟨t, after', stops, inside⟩ := splitAtFirst
      (p := fun t => decide (t = instantiate args (.param index))) ⟨_, early, by simp⟩
    cases of_decide_eq_true stops
    have inside : shownBefore args index ty =
      shownUntil args index ty ++ instantiate args (.param index) :: after' := inside
    exact ⟨_, by rw [inside, List.append_assoc, List.cons_append]⟩
  · exact ⟨_, by rw [shownUntilAll early]⟩

theorem alignedApart {args : List Ty} {index : Nat} {ty : SigTy}
    (late : instantiate args (.param index) ∉ shownBefore args index ty)
    (apart : ∀ a ∈ beforeParam index ty, ∀ b ∈ beforeParam index ty, a ≠ b →
      ∀ t ∈ shownAs args a, t ∉ shownAs args b) :
    Aligned args index ty ↔ ∀ other, .param other ∈ beforeParam index ty →
      (instantiate args (.param other)).walk.length = 1 := by
  rw [Aligned, shownUntilAll late, shownBefore, Distinct.countFlatMap (fun a _ => shownSome args a) apart]
  constructor
  · intro each other mem
    rw [Ty.walk, Distinct.count]
    exact each (.param other) mem
  · intro leaves a mem
    cases a with
    | param other =>
      have one := leaves other mem
      rwa [Ty.walk, Distinct.count] at one
    | _ => simp [shownAs]

end SigTy

namespace ArgTys
open SigTy

theorem findZip {α β : Type} {p : α → Bool} {before after : List α} {a : α} (stops : p a = true)
    (passes : ∀ t ∈ before, p t = false) : ∀ other : List β,
      (((before ++ a :: after).zip other).find? (fun pair => p pair.1)).map Prod.snd =
        other[before.length]? := by
  induction before with
  | nil =>
    intro other
    cases other with
    | nil => rfl
    | cons head rest => simp [stops]
  | cons t before ih =>
    intro other
    cases other with
    | nil => rfl
    | cons head rest =>
      have skipped := passes t List.mem_cons_self
      simpa [skipped] using ih (fun t mem => passes t (List.mem_cons_of_mem _ mem)) rest

theorem peelSplit {index : Nat} {genericTy : SigTy} {before after : List SigTy}
    (split : genericTy.nodes = before ++ .param index :: after) (new : .param index ∉ before) (substTy : Ty) :
    peel index genericTy substTy = substTy.walk[before.toFinset.card]? := by
  obtain ⟨rest, distinct⟩ := Distinct.split new after
  rw [peel, SigTy.walk, split, distinct, ← Distinct.count]
  apply findZip (by simp [isParam])
  intro t mem
  have other : t ≠ .param index := fun same => new (same ▸ List.mem_eraseDups.mp mem)
  simpa using mt isParamIff.mp other

theorem peelAt {index : Nat} {genericTy : SigTy} (occurs : .param index ∈ genericTy.walk) (substTy : Ty) :
    peel index genericTy substTy = substTy.walk[(beforeParam index genericTy).toFinset.card]? := by
  obtain ⟨after, split⟩ := nodesSplit occurs
  exact peelSplit split (newParam index genericTy) substTy

theorem peelAbsent {index : Nat} {genericTy : SigTy} (absent : .param index ∉ genericTy.walk)
    (substTy : Ty) : peel index genericTy substTy = none := by
  rw [peel, Option.map_eq_none_iff, List.find?_eq_none]
  intro pair mem found
  exact absent (isParamIff.mp found ▸ (List.of_mem_zip mem).1)

theorem peelIff {args : List Ty} {index : Nat} {genericTy : SigTy}
    (occurs : .param index ∈ genericTy.walk) :
    peel index genericTy (instantiate args genericTy) = some (instantiate args (.param index)) ↔
      Aligned args index genericTy := by
  obtain ⟨after, whole⟩ := instantiateSplit args occurs
  rw [peelAt occurs, Ty.walk, whole, Distinct.getIff (shownUntilNew args index genericTy), Aligned, eq_comm]

theorem intoVecSingle (order : HashOrder Ty) {tracked : TrackedTy} {ty : Ty}
    (known : tracked.types = {ty}) : tracked.intoVec order = [ty] := by
  cases tracked with
  | present t => rw [TrackedTy.intoVec, Finset.singleton_inj.mp known]
  | erased deps =>
    have only : deps = {ty} := known
    have perm : (order.iter {ty}).Perm [ty] :=
      (List.perm_ext_iff_of_nodup (order.nodup _) (List.nodup_singleton ty)).mpr (by simp [order.mem])
    rw [TrackedTy.intoVec, only]
    exact List.perm_singleton.mp perm

theorem extractSingleIff (order : HashOrder Ty) {args : List Ty} {index : Nat} {genericTy : SigTy}
    {tracked : TrackedTy} (occurs : .param index ∈ genericTy.walk)
    (known : tracked.types = {instantiate args genericTy}) :
    extractSubsts order ⟨[tracked]⟩ [genericTy] index = [instantiate args (.param index)] ↔
      Aligned args index genericTy := by
  rw [← peelIff occurs, extractSubsts]
  simp only [List.zip_cons_cons, List.zip_nil_right, List.flatMap_cons, List.flatMap_nil,
    List.append_nil, intoVecSingle order known, List.filterMap_cons, List.filterMap_nil]
  cases peel index genericTy (instantiate args genericTy) <;> simp

end ArgTys

def ReadBack (tcx : TyCtxt) (method : DefId) (argTys : ArgTys) (index : Nat) : Prop :=
  ∀ pair ∈ (tcx.fnSig method).inputs.zip argTys.argTys, .param index ∈ pair.1.walk →
    ∀ known ∈ pair.2.types, (∃ args, known = pair.1.instantiate args) ∧
      ∀ args, known = pair.1.instantiate args → SigTy.Aligned args index pair.1

def FromArgument (tcx : TyCtxt) (method : DefId) (argTys : ArgTys) (index : Nat) (ty : Ty) : Prop :=
  ∃ pair ∈ (tcx.fnSig method).inputs.zip argTys.argTys, ∃ args, .param index ∈ pair.1.walk ∧
    pair.1.instantiate args ∈ pair.2.types ∧ ty = SigTy.instantiate args (.param index)

section
variable {tcx : TyCtxt} {method : DefId} {argTys : ArgTys} {index : Nat}

theorem suggestsIff (readBack : ReadBack tcx method argTys index) {ty : Ty} :
    Suggests tcx method argTys index ty ↔ FromArgument tcx method argTys index ty := by
  constructor
  · intro suggested
    obtain ⟨pair, mem, known, inside, peeled⟩ := suggested
    by_cases occurs : .param index ∈ pair.1.walk
    · obtain ⟨⟨args, rfl⟩, aligned⟩ := readBack pair mem occurs known inside
      rw [(ArgTys.peelIff occurs).mpr (aligned args rfl)] at peeled
      exact ⟨pair, mem, args, occurs, inside, (Option.some.inj peeled).symm⟩
    · rw [ArgTys.peelAbsent occurs] at peeled
      cases peeled
  · intro given
    obtain ⟨pair, mem, args, occurs, inside, rfl⟩ := given
    have aligned := (readBack pair mem occurs _ inside).2 args rfl
    exact ⟨pair, mem, _, inside, (ArgTys.peelIff occurs).mpr aligned⟩

end

end Scrutinizer
