import Scrutinizer.Library.Unfolding
import Scrutinizer.Precheck

/-! When the visit of the transmute check ends. It goes into the fields of ADTs and keeps no set of
visited types, so it ends where no definition that the type leads to is recursive. -/
namespace Scrutinizer
open Unfolding

namespace Ty

mutual
theorem componentInduction {P : Ty → Prop}
    (step : ∀ ty : Ty, (∀ inner ∈ ty.components, P inner) → P ty) : ∀ ty, P ty
  | .prim _ | .param _ | .foreign _ | .lifetime => step _ nofun
  | .const _ => step _ (fun _ mem => List.mem_singleton.mp mem ▸ step _ nofun)
  | .adt _ args | .fnDef _ args | .closure _ args | .dynamic _ args | .alias _ args =>
      step _ (componentInductionList step args)
  | .tuple tys => step _ (componentInductionList step tys)
  | .ref ty _ | .rawPtr ty _ | .slice ty =>
      step _ (fun _ mem => List.mem_singleton.mp mem ▸ componentInduction step ty)
  | .array ty len => step _ (fun inner mem => by
      simp only [components, List.mem_cons, List.not_mem_nil, or_false] at mem
      rcases mem with same | same
      · exact same ▸ componentInduction step ty
      · exact same ▸ componentInduction step len)
  | .fnPtr inputs output => step _ (fun inner mem => by
      rcases List.mem_append.mp mem with input | last
      · exact componentInductionList step inputs inner input
      · exact List.mem_singleton.mp last ▸ componentInduction step output)

theorem componentInductionList {P : Ty → Prop}
    (step : ∀ ty : Ty, (∀ inner ∈ ty.components, P inner) → P ty) : ∀ tys : List Ty, ∀ t ∈ tys, P t
  | [], _, mem => by cases mem
  | ty :: tys, t, mem => by
      cases List.mem_cons.mp mem with
      | inl same => exact same ▸ componentInduction step ty
      | inr later => exact componentInductionList step tys t later
end

theorem componentsInstantiate (args : List Ty) {ty : Ty} (fixed : ∀ idx, ty ≠ .param idx) :
    (ty.instantiate args).components = ty.components.map (instantiate args) := by
  cases ty with
  | param idx => exact absurd rfl (fixed idx)
  | _ => simp [instantiate, components, instantiateListMap, usize]

theorem instantiateNil (ty : Ty) : ty.instantiate [] = ty := by
  induction ty using componentInduction with
  | _ ty ih =>
    have same : ∀ tys : List Ty, (∀ t ∈ tys, t.instantiate [] = t) → tys.map (instantiate []) = tys := by
      intro tys each
      rw [List.map_congr_left each, List.map_id']
    cases ty with
    | fnPtr inputs output =>
      rw [instantiate, instantiateListMap, same inputs (fun t mem => ih t (List.mem_append_left _ mem)),
        ih output (List.mem_append_right _ (List.mem_singleton_self _))]
    | ref ty m | rawPtr ty m | slice ty => rw [instantiate, ih ty (List.mem_singleton_self _)]
    | array ty len =>
      rw [instantiate, ih ty List.mem_cons_self, ih len (List.mem_cons_of_mem _ List.mem_cons_self)]
    | prim | param | foreign | lifetime | const => rfl
    | _ =>
      rw [instantiate, instantiateListMap]
      exact congrArg _ (same _ ih)

def Occurs (did : DefId) (ty : Ty) : Prop :=
  Reach.Reaches (fun outer inner : Ty => inner ∈ outer.components) (fun ty => ∃ args, ty = .adt did args) ty

end Ty

def Refers (tcx : TyCtxt) (did other : DefId) : Prop :=
  ∃ field ∈ (tcx.adtDef did).variants.flatten, field.Occurs other

def Ty.Uses (tcx : TyCtxt) (ty : Ty) (did : DefId) : Prop :=
  ∃ first, ty.Occurs first ∧ Relation.ReflTransGen (Refers tcx) first did

def Recursive (tcx : TyCtxt) (did : DefId) : Prop := Relation.TransGen (Refers tcx) did did

section
variable {tcx : TyCtxt}

def Unfolds (tcx : TyCtxt) (did : DefId) : Prop :=
  ∀ args : List Ty, (∀ arg ∈ args, Founded (Ty.Inside tcx) arg) → Founded (Ty.Inside tcx) (.adt did args)

theorem foundedComponents {ty : Ty} (noFields : ty.adtFields tcx = [])
    (each : ∀ inner ∈ ty.components, Founded (Ty.Inside tcx) inner) : Founded (Ty.Inside tcx) ty := by
  rw [foundedIff]
  intro inner inside
  cases inside with
  | inl field => rw [noFields] at field; cases field
  | inr component => exact each inner component

theorem foundedInstance {args : List Ty} (founded : ∀ arg ∈ args, Founded (Ty.Inside tcx) arg) :
    ∀ ty : Ty, (∀ did, ty.Occurs did → Unfolds tcx did) →
      Founded (Ty.Inside tcx) (ty.instantiate args) := by
  intro ty
  induction ty using Ty.componentInduction with
  | _ ty ih =>
    intro unfold_
    have inner : ∀ inner ∈ ty.components, Founded (Ty.Inside tcx) (inner.instantiate args) :=
      fun inner mem => ih inner mem (fun did occurs => unfold_ did (Reach.further mem occurs))
    have components : (∀ idx, ty ≠ .param idx) → ∀ part ∈ (ty.instantiate args).components,
        Founded (Ty.Inside tcx) part := by
      intro fixed part mem
      rw [Ty.componentsInstantiate args fixed] at mem
      obtain ⟨component, listed, rfl⟩ := List.mem_map.mp mem
      exact inner component listed
    cases ty with
    | param idx =>
      rw [Ty.instantiate]
      cases known : args[idx]? with
      | some arg => exact founded arg (List.mem_of_getElem? known)
      | none => exact foundedComponents rfl (fun part mem => absurd mem List.not_mem_nil)
    | adt did as =>
      exact unfold_ did (Reach.here ⟨as, rfl⟩) _ (components (fun idx same => Ty.noConfusion same))
    | _ => exact foundedComponents rfl (components (fun idx same => Ty.noConfusion same))

theorem unfoldsOf {did : DefId} (founded : Founded (Refers tcx) did) : Unfolds tcx did := by
  induction founded with
  | intro did _ ih =>
    intro args each
    rw [foundedIff]
    intro inner inside
    cases inside with
    | inl mem =>
      obtain ⟨field, listed, rfl⟩ := List.mem_map.mp mem
      exact foundedInstance each field (fun other occurs => ih other ⟨field, listed, occurs⟩)
    | inr component => exact each inner component

theorem occursInstantiate {did : DefId} {ty : Ty} (occurs : ty.Occurs did) (args : List Ty) :
    (ty.instantiate args).Occurs did := by
  refine Reach.reachesAlong (fun ty part => part = Ty.instantiate args ty) ?_ ?_ rfl occurs
  · intro ty part inner same mem
    have fixed : ∀ idx, ty ≠ .param idx := by rintro idx rfl; cases mem
    refine ⟨inner.instantiate args, ?_, rfl⟩
    rw [same, Ty.componentsInstantiate args fixed]
    exact List.mem_map_of_mem mem
  · intro ty part same adt
    obtain ⟨as, rfl⟩ := adt
    exact ⟨_, same⟩

theorem insidePath {did : DefId} {ty : Ty} (occurs : ty.Occurs did) :
    ∃ args, Relation.ReflTransGen (Ty.Inside tcx) ty (.adt did args) := by
  obtain ⟨_, path, args, rfl⟩ := occurs
  refine ⟨args, Relation.ReflTransGen.mono ?_ _ _ path⟩
  exact fun _ _ component => .inr component

theorem foundedDefinition {did : DefId} {args : List Ty} (founded : Founded (Ty.Inside tcx) (.adt did args)) :
    Founded (Refers tcx) did := by
  generalize start : Ty.adt did args = ty at founded
  have below := founded.trans
  induction below generalizing did args with
  | intro ty _ ih =>
    rw [foundedIff]
    intro other refers
    obtain ⟨field, listed, occurs⟩ := refers
    obtain ⟨args', path⟩ := @insidePath tcx _ _ (occursInstantiate occurs args)
    have first : Ty.Inside tcx ty (field.instantiate args) :=
      .inl (start ▸ List.mem_map_of_mem listed)
    have down := Relation.TransGen.head' first path
    exact ih _ down rfl ((foundedIff.mp founded _ first).along path)

theorem foundedIffDefinitions {ty : Ty} : Founded (Ty.Inside tcx) ty ↔
    ∀ did, ty.Occurs did → Founded (Refers tcx) did := by
  constructor
  · intro founded did occurs
    obtain ⟨args, path⟩ := @insidePath tcx _ _ occurs
    exact foundedDefinition (founded.along path)
  · intro each
    rw [← Ty.instantiateNil ty]
    exact @foundedInstance tcx [] nofun ty (fun did occurs => unfoldsOf (each did occurs))

theorem visitRecursion (tcx : TyCtxt) :
    Recursion (containsMutRef tcx) (fun ty => ty.adtFields tcx ++ ty.components) where
  zero _ := rfl
  succ fuel ty := by
    have each : ∀ tys : List Ty, (∃ b, orAll (tys.map (containsMutRef tcx fuel)) = some b) ↔
        ∀ inner ∈ tys, ∃ b, containsMutRef tcx fuel inner = some b := by
      intro tys
      rw [orAllSome]
      simp
    simp only [containsMutRef, bind, Option.bind_eq_some_iff, Option.some.injEq, List.mem_append, or_imp,
      forall_and, ← each]
    constructor
    · intro ends
      obtain ⟨b, fields, okFields, inner, okInner, _⟩ := ends
      exact ⟨⟨fields, okFields⟩, inner, okInner⟩
    · intro ends
      obtain ⟨⟨fields, okFields⟩, inner, okInner⟩ := ends
      exact ⟨_, fields, okFields, inner, okInner, rfl⟩

theorem visitEndsIff {ty : Ty} : (∃ fuel b, containsMutRef tcx fuel ty = some b) ↔
    Founded (Ty.Inside tcx) ty := by
  have children : (fun outer inner : Ty => inner ∈ outer.adtFields tcx ++ outer.components) =
      Ty.Inside tcx := by
    funext outer inner
    exact propext List.mem_append
  rw [(visitRecursion tcx).endsIff, children]

theorem typeEndsIff {ty : Ty} (defs : Finset DefId) (all : ∀ did, ty.Uses tcx did → did ∈ defs) :
    (∃ fuel b, containsMutRef tcx fuel ty = some b) ↔ ∀ did, ty.Uses tcx did → ¬ Recursive tcx did := by
  have reached : ∀ first, ty.Occurs first → ∀ did, Relation.ReflTransGen (Refers tcx) first did → did ∈ defs :=
    fun first occurs did path => all did ⟨first, occurs, path⟩
  rw [visitEndsIff, foundedIffDefinitions]
  constructor
  · intro each did uses
    obtain ⟨first, occurs, path⟩ := uses
    exact (foundedIffAcyclic defs (reached first occurs)).mp (each first occurs) did path
  · intro acyclic first occurs
    exact (foundedIffAcyclic defs (reached first occurs)).mpr
      (fun did path => acyclic did ⟨first, occurs, path⟩)

def Terminator.transmuteTarget (tcx : TyCtxt) (terminator : Terminator) : Option Ty :=
  terminator.callee.bind (fun callee =>
    if tcx.isMatch transmuteDefPath (tcx.defPathStr callee.1) then callee.2[1]? else none)

def Terminator.Transmutes (tcx : TyCtxt) (terminator : Terminator) : Prop :=
  ∀ did args, terminator.callee = some (did, args) → tcx.isMatch transmuteDefPath (tcx.defPathStr did) = true →
    ∃ target, args[1]? = some target ∧ target.isType = true

theorem terminatorEndsIff {terminator : Terminator} (typed : terminator.Transmutes tcx) {fuel : Nat} :
    (∃ b, terminator.hasTransmute tcx fuel = some b) ↔
      ∀ target, terminator.transmuteTarget tcx = some target → ∃ b, containsMutRef tcx fuel target = some b := by
  unfold Terminator.hasTransmute Terminator.transmuteTarget
  cases called : terminator.callee with
  | none => simp
  | some callee =>
    obtain ⟨did, args⟩ := callee
    simp only [Option.bind_some]
    split
    · rename_i transmute
      obtain ⟨target, known, isType⟩ := typed did args called transmute
      simp [known, isType]
    · simp

theorem bodyEndsIff {body : Body} (typed : ∀ data ∈ body.basicBlocks, data.terminator.Transmutes tcx) :
    (∃ fuel b, body.hasTransmute tcx fuel = some b) ↔
      ∀ data ∈ body.basicBlocks, ∀ target, data.terminator.transmuteTarget tcx = some target →
        ∃ fuel b, containsMutRef tcx fuel target = some b := by
  have each : ∀ fuel, (∃ b, body.hasTransmute tcx fuel = some b) ↔
      ∀ target ∈ body.basicBlocks.filterMap (fun data => data.terminator.transmuteTarget tcx),
        ∃ b, containsMutRef tcx fuel target = some b := by
    intro fuel
    rw [Body.hasTransmute, orAllSome]
    simp only [List.mem_map, forall_exists_index, and_imp, forall_apply_eq_imp_iff₂, List.mem_filterMap]
    constructor
    · intro ends target data mem known
      exact (terminatorEndsIff (typed data mem)).mp (ends data mem) target known
    · intro ends data mem
      exact (terminatorEndsIff (typed data mem)).mpr (fun target known => ends target data mem known)
  constructor
  · intro ends data mem target known
    obtain ⟨fuel, some_⟩ := ends
    exact ⟨fuel, (each fuel).mp some_ target (List.mem_filterMap.mpr ⟨data, mem, known⟩)⟩
  · intro ends
    obtain ⟨fuel, all⟩ := @Recursion.common _ _ _ _ (visitRecursion tcx)
      (body.basicBlocks.filterMap (fun data => data.terminator.transmuteTarget tcx)) (by
        intro target mem
        obtain ⟨data, inside, known⟩ := List.mem_filterMap.mp mem
        exact ends data inside target known)
    exact ⟨fuel, (each fuel).mpr all⟩

theorem visitsEndIff (tcx : TyCtxt) (defs : Finset DefId) :
    (∀ ty : Ty, (∀ did, ty.Uses tcx did → did ∈ defs) →
      ((∃ fuel b, containsMutRef tcx fuel ty = some b) ↔
        ∀ did, ty.Uses tcx did → ¬ Recursive tcx did)) ∧
    ∀ body : Body, (∀ data ∈ body.basicBlocks, data.terminator.Transmutes tcx ∧
        ∀ target, data.terminator.transmuteTarget tcx = some target → ∀ did, target.Uses tcx did → did ∈ defs) →
      ((∃ fuel b, body.hasTransmute tcx fuel = some b) ↔
        ∀ data ∈ body.basicBlocks, ∀ target, data.terminator.transmuteTarget tcx = some target →
          ∀ did, target.Uses tcx did → ¬ Recursive tcx did) := by
  constructor
  · exact fun ty all => typeEndsIff defs all
  · intro body typed
    rw [bodyEndsIff (fun data mem => (typed data mem).1)]
    constructor
    · intro ends data mem target known
      exact (typeEndsIff defs ((typed data mem).2 target known)).mp (ends data mem target known)
    · intro plain data mem target known
      exact (typeEndsIff defs ((typed data mem).2 target known)).mpr (plain data mem target known)

end

/- `struct Counter { count: usize }`, and a body that transmutes to it. -/
noncomputable def counterCrate : TyCtxt := {TyCtxt.plain (.listed [] List.nodup_nil) with
  adtDef := fun _ => ⟨[[Ty.usize]], none, false, false, false⟩
  isMatch := fun _ _ => true}

def transmutesTo (ty : Ty) : Body :=
  ⟨0, [Ty.unit], [⟨[], .call (.constant (.fnDef 5 [Ty.usize, ty])) [] .returnPlace none none⟩], [], 0⟩

theorem counterRefers {did other : DefId} : ¬ Refers counterCrate did other := by
  intro refers
  obtain ⟨field, listed, occurs⟩ := refers
  cases List.mem_singleton.mp listed
  rcases Reach.reachesIff.mp occurs with ⟨_, adt⟩ | ⟨inner, none_, _⟩
  · cases adt
  · cases none_

theorem counterUses {did : DefId} (uses : (Ty.adt 0 []).Uses counterCrate did) : did = 0 := by
  obtain ⟨first, occurs, path⟩ := uses
  rcases Relation.ReflTransGen.cases_head path with rfl | ⟨other, refers, _⟩
  · rcases Reach.reachesIff.mp occurs with ⟨_, adt⟩ | ⟨inner, none_, _⟩
    · cases adt
      rfl
    · cases none_
  · exact absurd refers counterRefers

theorem counterVisitEnds : (∃ fuel b, containsMutRef counterCrate fuel (.adt 0 []) = some b) ∧
    ∃ fuel b, (transmutesTo (.adt 0 [])).hasTransmute counterCrate fuel = some b := by
  have plain : ∀ did, (Ty.adt 0 []).Uses counterCrate did → ¬ Recursive counterCrate did := by
    intro did uses recursive
    obtain ⟨other, refers, _⟩ := Relation.TransGen.head'_iff.mp recursive
    exact counterRefers refers
  have within : ∀ did, (Ty.adt 0 []).Uses counterCrate did → did ∈ ({0} : Finset DefId) :=
    fun did uses => Finset.mem_singleton.mpr (counterUses uses)
  have target : ∀ data ∈ (transmutesTo (.adt 0 [])).basicBlocks, ∀ ty,
      data.terminator.transmuteTarget counterCrate = some ty → ty = .adt 0 [] := by
    intro data mem ty known
    cases List.mem_singleton.mp mem
    exact (Option.some.inj known).symm
  refine ⟨((visitsEndIff counterCrate {0}).1 _ within).mpr plain,
    ((visitsEndIff counterCrate {0}).2 _ ?_).mpr ?_⟩
  · intro data mem
    refine ⟨?_, fun ty known did uses => within did (target data mem ty known ▸ uses)⟩
    intro did args called _
    cases List.mem_singleton.mp mem
    cases Option.some.inj called
    exact ⟨_, rfl, rfl⟩
  · exact fun data mem ty known did uses => plain did (target data mem ty known ▸ uses)

/- `struct Node { next: Option<Box<Node>> }`, with `Option` and `Box` as definitions 1 and 2. -/
noncomputable def nodeCrate : TyCtxt := {TyCtxt.plain (.listed [] List.nodup_nil) with
  adtDef := fun did => match did with
    | 0 => ⟨[[.adt 1 [.adt 2 [.adt 0 []]]]], none, false, false, false⟩
    | 1 => ⟨[[], [.param 0]], none, false, false, false⟩
    | 2 => ⟨[[.rawPtr (.param 0) .not]], none, true, false, false⟩
    | _ => ⟨[], none, false, false, false⟩}

theorem nodeVisitEndless : ¬ ∃ fuel b, containsMutRef nodeCrate fuel (.adt 0 []) = some b := by
  rw [visitEndsIff, foundedIffDefinitions]
  intro each
  have itself : (Ty.adt 0 []).Occurs 0 := Reach.here ⟨[], rfl⟩
  have refers : Refers nodeCrate 0 0 := by
    refine ⟨.adt 1 [.adt 2 [.adt 0 []]], List.mem_singleton_self _, ?_⟩
    exact Reach.further (List.mem_singleton_self (Ty.adt 2 [.adt 0 []]))
      (Reach.further (List.mem_singleton_self (Ty.adt 0 [])) itself)
  exact (each 0 itself).irrefl refers

end Scrutinizer
