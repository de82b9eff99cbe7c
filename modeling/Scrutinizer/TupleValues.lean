import Mathlib.Data.List.Forall2
import Scrutinizer.Library.MapM
import Scrutinizer.PlainCrate
import Scrutinizer.TrackedTy

/-! Values of tuple types, represented by their concrete types: where a declared type hides
what is there, such as behind a trait object, the value says it. -/
namespace Scrutinizer
namespace Ty

def isHidden : Ty → Bool
  | .tuple _ => false
  | ty => containsErased ty

mutual
def fits : Ty → Ty → Bool
  | .tuple tys, .tuple values => fitsList tys values
  | .tuple _, _ => false
  | ty, value => containsErased ty || decide (value = ty)

def fitsList : List Ty → List Ty → Bool
  | [], [] => true
  | ty :: tys, value :: values => fits ty value && fitsList tys values
  | _, _ => false
end

def replace : Ty → List PlaceElem → Ty → Option Ty
  | _, [], new => some new
  | .tuple tys, .field idx :: rest, new => do
      let field ← tys[idx]?
      let changed ← field.replace rest new
      some (.tuple (tys.set idx changed))
  | _, _ :: _, _ => none

mutual
theorem tupleInduction {P : Ty → Prop} (other : ∀ ty : Ty, ty.tupleFields = none → P ty)
    (tuple : ∀ tys, (∀ t ∈ tys, P t) → P (.tuple tys)) : ∀ ty, P ty
  | .tuple tys => tuple tys (tupleInductionList other tuple tys)
  | .prim _ | .param _ | .adt _ _ | .ref _ _ | .rawPtr _ _ | .array _ _ | .slice _ | .fnDef _ _
  | .fnPtr _ _ | .closure _ _ | .dynamic _ _ | .foreign _ | .alias _ _ | .lifetime | .const _ =>
      other _ rfl

theorem tupleInductionList {P : Ty → Prop} (other : ∀ ty : Ty, ty.tupleFields = none → P ty)
    (tuple : ∀ tys, (∀ t ∈ tys, P t) → P (.tuple tys)) : ∀ tys : List Ty, ∀ t ∈ tys, P t
  | [], _, mem => by cases mem
  | ty :: tys, t, mem => by
      cases List.mem_cons.mp mem with
      | inl same => exact same ▸ tupleInduction other tuple ty
      | inr later => exact tupleInductionList other tuple tys t later
end

theorem hiddenOther {ty : Ty} (single : ty.tupleFields = none) :
    ty.isHidden = containsErased ty := by
  cases ty with
  | tuple => contradiction
  | _ => rfl

theorem hiddenErased {ty : Ty} (hidden : ty.isHidden = true) : containsErased ty = true := by
  cases ty with
  | tuple => simp [isHidden] at hidden
  | _ => exact hidden

theorem fitsOther {ty : Ty} (single : ty.tupleFields = none) (value : Ty) :
    ty.fits value = (containsErased ty || decide (value = ty)) := by
  cases ty with
  | tuple => contradiction
  | _ => simp only [fits]

@[simp] theorem componentNil (ty : Ty) : ty.component [] = some ty := by
  cases ty <;> rfl

theorem componentCons {ty part : Ty} {elem : PlaceElem} {rest : List PlaceElem}
    (h : ty.component (elem :: rest) = some part) :
    ∃ tys idx field, ty = .tuple tys ∧ elem = .field idx ∧ tys[idx]? = some field ∧
      field.component rest = some part := by
  cases ty with
  | tuple tys =>
    cases elem with
    | field idx =>
      simp only [component, bind, Option.bind_eq_some_iff] at h
      obtain ⟨field, hf, last⟩ := h
      exact ⟨tys, idx, field, rfl, rfl, hf, last⟩
    | _ => simp [component] at h
  | _ => simp [component] at h

theorem componentField {tys : List Ty} {idx : Nat} {field : Ty} (h : tys[idx]? = some field)
    (rest : List PlaceElem) : (tuple tys).component (.field idx :: rest) = field.component rest := by
  simp [component, h]

theorem componentAppend (first : List PlaceElem) : ∀ (ty : Ty) (second : List PlaceElem),
    ty.component (first ++ second) = (ty.component first).bind (·.component second) := by
  induction first with
  | nil => intro ty second; simp
  | cons elem rest ih =>
    intro ty second
    cases ty with
    | tuple tys =>
      cases elem with
      | field idx =>
        simp only [List.cons_append, component, bind, Option.bind_assoc]
        exact congrArg _ (funext fun field => ih field second)
      | _ => simp [component]
    | _ => simp [component]

theorem replaceCons {elem : PlaceElem} {tail : List PlaceElem} {new value changed : Ty}
    (h : value.replace (elem :: tail) new = some changed) :
    ∃ idx tys field inner, elem = .field idx ∧ value = .tuple tys ∧ tys[idx]? = some field ∧
      field.replace tail new = some inner ∧ changed = .tuple (tys.set idx inner) := by
  cases value with
  | tuple tys =>
    cases elem with
    | field idx =>
      simp only [replace, bind, Option.bind_eq_some_iff] at h
      obtain ⟨field, hf, inner, hi, last⟩ := h
      exact ⟨idx, tys, field, inner, rfl, rfl, hf, hi, (Option.some.inj last).symm⟩
    | _ => simp [replace] at h
  | _ => simp [replace] at h

theorem componentReplace {path : List PlaceElem} {new : Ty} : ∀ {value changed : Ty},
    value.replace path new = some changed →
      ∀ rest, changed.component (path ++ rest) = new.component rest := by
  induction path with
  | nil =>
    intro value changed h rest
    cases Option.some.inj ((show value.replace [] new = some new by cases value <;> rfl).symm.trans h)
    rfl
  | cons elem tail ih =>
    intro value changed h rest
    obtain ⟨idx, tys, field, inner, rfl, rfl, hf, hi, rfl⟩ := replaceCons h
    have here : (tys.set idx inner)[idx]? = some inner :=
      List.getElem?_set_self (List.getElem?_eq_some_iff.mp hf).1
    rw [List.cons_append, componentField here]
    exact ih hi rest

theorem componentBeside {path : List PlaceElem} {new : Ty} :
    ∀ {value changed : Ty} {other : List PlaceElem}, value.replace path new = some changed →
      ¬ path <+: other → ¬ other <+: path → changed.component other = value.component other := by
  induction path with
  | nil => intro value changed other _ apart; exact absurd List.nil_prefix apart
  | cons elem tail ih =>
    intro value changed other h apart above
    obtain ⟨idx, tys, field, inner, rfl, rfl, hf, hi, rfl⟩ := replaceCons h
    cases other with
    | nil => exact absurd List.nil_prefix above
    | cons elem' rest =>
      cases elem' with
      | field idx' =>
        by_cases same : idx = idx'
        · subst same
          have here : (tys.set idx inner)[idx]? = some inner :=
            List.getElem?_set_self (List.getElem?_eq_some_iff.mp hf).1
          rw [componentField here, componentField hf]
          refine ih hi ?_ ?_
          · exact fun deeper => apart (List.cons_prefix_cons.mpr ⟨rfl, deeper⟩)
          · exact fun deeper => above (List.cons_prefix_cons.mpr ⟨rfl, deeper⟩)
        · simp only [component, List.getElem?_set_ne same]
      | _ => rfl

theorem fitsListAt : ∀ {tys values : List Ty}, fitsList tys values = true →
    List.Forall₂ (fun ty value => fits ty value = true) tys values
  | [], [], _ => .nil
  | [], _ :: _, h => by simp [fitsList] at h
  | _ :: _, [], h => by simp [fitsList] at h
  | ty :: tys, value :: values, h => by
      rw [fitsList, Bool.and_eq_true] at h
      exact .cons h.1 (fitsListAt h.2)

theorem fitsListOf {tys values : List Ty}
    (h : List.Forall₂ (fun ty value => fits ty value = true) tys values) :
    fitsList tys values = true := by
  induction h with
  | nil => rfl
  | cons first _ ih => rw [fitsList, first, ih]; rfl

theorem fitsTuple {tys : List Ty} {value : Ty} (h : (tuple tys).fits value = true) :
    ∃ values, value = .tuple values ∧ List.Forall₂ (fun ty v => fits ty v = true) tys values := by
  cases value with
  | tuple values => exact ⟨values, rfl, fitsListAt h⟩
  | _ => simp [fits] at h

theorem fitsHidden {ty : Ty} (hidden : ty.isHidden = true) (value : Ty) : ty.fits value = true := by
  cases single : ty.tupleFields with
  | none =>
    rw [hiddenOther single] at hidden
    simp [fitsOther single, hidden]
  | some tys =>
    cases ty with
    | tuple => simp [isHidden] at hidden
    | _ => contradiction

theorem fitsComponent {path : List PlaceElem} : ∀ {ty value part : Ty}, ty.fits value = true →
    ty.component path = some part → ∃ v, value.component path = some v ∧ part.fits v = true := by
  induction path with
  | nil =>
    intro ty value part h hc
    rw [componentNil] at hc
    cases Option.some.inj hc
    exact ⟨value, componentNil value, h⟩
  | cons elem rest ih =>
    intro ty value part h hc
    obtain ⟨tys, idx, field, rfl, rfl, hf, hc⟩ := componentCons hc
    obtain ⟨values, rfl, each⟩ := fitsTuple h
    obtain ⟨v, hv, fit⟩ := MapM.atLeft each hf
    obtain ⟨inner, hi, fit'⟩ := ih fit hc
    exact ⟨inner, (componentField hv rest).trans hi, fit'⟩

theorem fitsReplace {path : List PlaceElem} {new : Ty} : ∀ {ty value part : Ty},
    ty.fits value = true → ty.component path = some part → part.fits new = true →
      ∃ changed, value.replace path new = some changed ∧ ty.fits changed = true := by
  induction path with
  | nil =>
    intro ty value part _ hc fit
    rw [componentNil] at hc
    cases Option.some.inj hc
    exact ⟨new, by cases value <;> rfl, fit⟩
  | cons elem rest ih =>
    intro ty value part h hc fit
    obtain ⟨tys, idx, field, rfl, rfl, hf, hc⟩ := componentCons hc
    obtain ⟨values, rfl, each⟩ := fitsTuple h
    obtain ⟨v, hv, fit'⟩ := MapM.atLeft each hf
    obtain ⟨inner, hi, kept⟩ := ih fit' hc fit
    refine ⟨.tuple (values.set idx inner), by simp [replace, hv, hi], ?_⟩
    exact fitsListOf (MapM.setRight each hf kept)

theorem memNodesList {ty : Ty} {tys : List Ty} : ty ∈ nodesList tys ↔ ∃ t ∈ tys, ty ∈ t.nodes := by
  induction tys with
  | nil => simp [nodesList]
  | cons t ts ih => simp [nodesList, ih]

theorem closureTuple (tys : List Ty) :
    (tuple tys).containsClosure = true ↔ ∃ t ∈ tys, t.containsClosure = true := by
  simp only [containsClosure, walkAny, nodes, List.any_cons, isClosure, Bool.false_or,
    List.any_eq_true, memNodesList]
  grind

theorem erasedTuple (tys : List Ty) : containsErased (tuple tys) = true ↔
    (tuple tys).containsClosure = false ∧ ∃ t ∈ tys, containsErased t = true := by
  have closures := closureTuple tys
  have kinds : (tuple tys).walk.any isErasedKind = true ↔
      ∃ t ∈ tys, t.walk.any isErasedKind = true := by
    simp only [walkAny, nodes, List.any_cons, isErasedKind, Bool.false_or, List.any_eq_true,
      memNodesList]
    grind
  simp only [containsErased, Bool.and_eq_true, Bool.not_eq_true', kinds]
  grind

theorem componentPlain {path : List PlaceElem} : ∀ {ty part : Ty}, ty.component path = some part →
    ty.containsClosure = false →
      part.containsClosure = false ∧ (containsErased part = true → containsErased ty = true) := by
  induction path with
  | nil =>
    intro ty part hc free
    rw [componentNil] at hc
    cases Option.some.inj hc
    exact ⟨free, id⟩
  | cons elem rest ih =>
    intro ty part hc free
    obtain ⟨tys, idx, field, rfl, rfl, hf, hc⟩ := componentCons hc
    have inside := List.mem_of_getElem? hf
    have fieldFree : field.containsClosure = false := by
      by_contra bad
      have bad := (closureTuple tys).mpr ⟨field, inside, by simpa using bad⟩
      rw [free] at bad
      contradiction
    obtain ⟨partFree, up⟩ := ih hc fieldFree
    exact ⟨partFree, fun h => (erasedTuple tys).mpr ⟨free, field, inside, up h⟩⟩

theorem fitsPlain {ty : Ty} : ∀ {value : Ty}, ty.containsClosure = false →
    containsErased ty = false → ty.fits value = true → value = ty := by
  induction ty using tupleInduction with
  | other ty single =>
    intro value _ plain h
    simpa [fitsOther single, plain] using h
  | tuple tys ih =>
    intro value free plain h
    obtain ⟨values, rfl, each⟩ := fitsTuple h
    have noClosure := mt (closureTuple tys).mpr (by simp [free])
    have noErased := mt (erasedTuple tys).mpr (by simp [plain])
    have same : ∀ (idx : Nat) (t v : Ty), tys[idx]? = some t → values[idx]? = some v → v = t := by
      intro idx t v ht hv
      have mem := List.mem_of_getElem? ht
      obtain ⟨v', hv', fit⟩ := MapM.atLeft each ht
      cases Option.some.inj (hv.symm.trans hv')
      exact ih t mem (by grind) (by grind) fit
    congr 1
    apply List.ext_getElem each.length_eq.symm
    intro idx bound bound'
    exact same idx _ _ (List.getElem?_eq_getElem bound') (List.getElem?_eq_getElem bound)

theorem hiddenInside {ty : Ty} : containsErased ty = true →
    ∃ path part, ty.component path = some part ∧ part.isHidden = true := by
  induction ty using tupleInduction with
  | other ty single =>
    intro erased
    exact ⟨[], ty, componentNil ty, (hiddenOther single).trans erased⟩
  | tuple tys ih =>
    intro erased
    obtain ⟨_, t, mem, inside⟩ := (erasedTuple tys).mp erased
    obtain ⟨path, part, hc, hidden⟩ := ih t mem inside
    obtain ⟨idx, ht⟩ := List.getElem?_of_mem mem
    exact ⟨.field idx :: path, part, (componentField ht path).trans hc, hidden⟩

theorem memFieldPathsList {rest : List PlaceElem} : ∀ {tys : List Ty} {idx first : Nat} {field : Ty},
    tys[idx]? = some field → rest ∈ field.fieldPaths →
      .field (first + idx) :: rest ∈ fieldPathsList tys first := by
  intro tys
  induction tys with
  | nil => intro idx first field none; simp at none
  | cons ty tys ih =>
    intro idx first field at_ mem
    rw [fieldPathsList, List.mem_append]
    cases idx with
    | zero =>
      cases Option.some.inj at_
      exact .inl (List.mem_map_of_mem mem)
    | succ idx =>
      have later := @ih idx (first + 1) field at_ mem
      rw [Nat.add_right_comm] at later
      exact .inr later

theorem memFieldPaths {ty : Ty} : ∀ {part : Ty} {path : List PlaceElem},
    ty.component path = some part → path ∈ ty.fieldPaths := by
  induction ty using tupleInduction with
  | other ty single =>
    intro part path h
    cases path with
    | nil => cases ty <;> simp [fieldPaths]
    | cons elem rest =>
      obtain ⟨tys, _, _, rfl, _⟩ := componentCons h
      contradiction
  | tuple tys ih =>
    intro part path h
    cases path with
    | nil => simp [fieldPaths]
    | cons elem rest =>
      obtain ⟨_, idx, field, same, rfl, hf, hc⟩ := componentCons h
      cases Ty.tuple.inj same
      have inside := @memFieldPathsList rest tys idx 0 field hf (ih field (List.mem_of_getElem? hf) hc)
      rw [Nat.zero_add] at inside
      rw [fieldPaths]
      exact List.mem_cons_of_mem _ inside

end Ty
end Scrutinizer
