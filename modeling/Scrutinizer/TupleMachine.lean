import Scrutinizer.HasTrackedTy
import Scrutinizer.TupleValues

/-! What straight-line assignments of tuples do when they run. A local holds a value, given by
its concrete type; the machine also keeps which value was assigned under which name. -/
namespace Scrutinizer

def declared (body : Body) (place : Place) : Option Ty :=
  (body.localDecls[place.base]?).bind (fun ty => ty.component place.projection)

structure Machine where
  memory : Nat → Option Ty
  history : List (Place × Ty)

namespace Machine

def read (m : Machine) (place : Place) : Option Ty :=
  (m.memory place.base).bind (fun value => value.component place.projection)

def hold (m : Machine) (base : Nat) (value : Ty) (place : Place) (assigned : Ty) : Machine :=
  ⟨Function.update m.memory base (some value), m.history ++ [(place, assigned)]⟩

/- A component is written only where there is a value around it. -/
def write (m : Machine) (place : Place) (value : Ty) : Option Machine :=
  match place.projection with
  | [] => some (m.hold place.base value place value)
  | path => do
      let old ← m.memory place.base
      let changed ← old.replace path value
      some (m.hold place.base changed place value)

def operand (m : Machine) : Operand → Option Ty
  | .copy place | .move place => m.read place
  | .constant ty => some ty

def rvalue (m : Machine) : Rvalue → Option Ty
  | .useOperand op | .cast .unsize op _ => m.operand op
  | .aggregate .tuple ops => (ops.mapM m.operand).map Ty.tuple
  | _ => none

def step (m : Machine) : Statement → Option Machine
  | .assign place value => (m.rvalue value).bind (m.write place)
  | .other => some m

def run (m : Machine) (statements : List Statement) : Option Machine :=
  statements.foldlM step m

def empty : Machine := ⟨fun _ => none, []⟩

def called (values : List Ty) : Machine :=
  values.zipIdx.foldl (fun m value => m.hold (value.2 + 1) value.1 (.fromLocal (value.2 + 1)) value.1)
    empty

def Gave (m : Machine) (place : Place) (value : Ty) : Prop :=
  ∃ target assigned path, (target, assigned) ∈ m.history ∧ place = target.extend path ∧
    assigned.component path = some value

/- Every hidden component of the place holds what some assignment to the place itself or to a
tuple around it brought: no write into the place changed it since. -/
def UpToDate (m : Machine) (body : Body) (place : Place) : Prop :=
  ∀ ty path part, declared body place = some ty → ty.component path = some part →
    part.isHidden = true →
      ∃ given, m.Gave place given ∧ given.component path = m.read (place.extend path)

end Machine

def Operand.reads (op : Operand) : List Place := op.place.toList

def Rvalue.reads : Rvalue → List Place
  | .useOperand op | .cast _ op _ => op.reads
  | .aggregate _ ops => ops.flatMap Operand.reads
  | _ => []

def Statement.reads : Statement → List Place
  | .assign _ value => value.reads
  | .other => []

def Machine.Faithful (body : Body) : Machine → List Statement → Prop
  | _, [] => True
  | m, statement :: rest => (∀ place ∈ statement.reads, m.UpToDate body place) ∧
      ∀ next, m.step statement = some next → next.Faithful body rest

inductive Operand.HasTy (body : Body) : Operand → Ty → Prop where
  | copy {place ty} (at_ : declared body place = some ty) : HasTy body (.copy place) ty
  | move {place ty} (at_ : declared body place = some ty) : HasTy body (.move place) ty
  | constant {ty value} (known : containsErased value = false) (fit : ty.fits value = true) :
      HasTy body (.constant value) ty

inductive Rvalue.HasTy (body : Body) : Rvalue → Ty → Prop where
  | useOperand {op ty} (operand : op.HasTy body ty) : HasTy body (.useOperand op) ty
  | unsize {op source ty} (operand : op.HasTy body source)
      (single : source.isHidden = true ∨ containsErased source = false)
      (hidden : ty.isHidden = true) : HasTy body (.cast .unsize op ty) ty
  | tuple {ops tys} (members : List.Forall₂ (Operand.HasTy body) ops tys) :
      HasTy body (.aggregate .tuple ops) (.tuple tys)

inductive Statement.HasTy (body : Body) : Statement → Prop where
  | assign {place value ty} (at_ : declared body place = some ty) (has : value.HasTy body ty) :
      HasTy body (.assign place value)
  | other : HasTy body .other

theorem declaredInside {body : Body} {place : Place} {ty : Ty}
    (h : declared body place = some ty) (path : List PlaceElem) :
    declared body (place.extend path) = ty.component path := by
  simp only [declared, Option.bind_eq_some_iff] at h
  obtain ⟨decl, hd, hc⟩ := h
  simp [declared, Place.extend, hd, Ty.componentAppend, hc]

theorem projectComponent (tcx : TyCtxt) {path : List PlaceElem} : ∀ {ty part : Ty},
    ty.component path = some part → projectAll tcx (.fromTy ty) path = .ok (.fromTy part) := by
  induction path with
  | nil =>
    intro ty part h
    rw [Ty.componentNil] at h
    cases Option.some.inj h
    rfl
  | cons elem rest ih =>
    intro ty part h
    obtain ⟨tys, idx, field, rfl, rfl, hf, h⟩ := Ty.componentCons h
    have one : refreshAndProject tcx (.fromTy (.tuple tys)) (.field idx) = .ok (.fromTy field) := by
      simp [refreshAndProject, indexTyField, PlaceTy.fromTy, hf, orMissing, bind, Except.bind]
    rw [projectAll, List.foldlM_cons, one]
    exact ih h

theorem declaredTy (tcx : TyCtxt) {body : Body} {place : Place} {ty : Ty}
    (h : declared body place = some ty) : place.ty tcx body = .ok (.fromTy ty) := by
  simp only [declared, Option.bind_eq_some_iff] at h
  obtain ⟨decl, hd, hc⟩ := h
  simp [Place.ty, hd, orMissing, bind, Except.bind, projectComponent tcx hc]

theorem projectTailComponent (tcx : TyCtxt) {body : Body} {place : Place} {decl ty part : Ty}
    {path : List PlaceElem} (h : declared body place = some decl)
    (hc : ty.component path = some part) :
    CollectorDomain.projectTail tcx body place (place.extend path) ty = .ok part := by
  have whole := projectComponent tcx hc
  simp only [PlaceTy.fromTy] at whole
  simp [CollectorDomain.projectTail, declaredTy tcx h, Place.extend, PlaceTy.fromTy, whole, bind, Except.bind]

namespace Machine

theorem gaveHold {m : Machine} {base : Nat} {value assigned given : Ty} {target place : Place} :
    (m.hold base value target assigned).Gave place given ↔ m.Gave place given ∨
      ∃ path, place = target.extend path ∧ assigned.component path = some given := by
  unfold Gave hold
  simp only [List.mem_append, List.mem_singleton, Prod.mk.injEq]
  constructor
  · intro h
    obtain ⟨t, a, path, before | ⟨rfl, rfl⟩, inside, part⟩ := h
    · exact .inl ⟨t, a, path, before, inside, part⟩
    · exact .inr ⟨path, inside, part⟩
  · intro h
    obtain ⟨t, a, path, before, inside, part⟩ | ⟨path, inside, part⟩ := h
    · exact ⟨t, a, path, .inl before, inside, part⟩
    · exact ⟨target, assigned, path, .inr ⟨rfl, rfl⟩, inside, part⟩

theorem writeHold {m next : Machine} {place : Place} {value : Ty}
    (h : m.write place value = some next) : ∃ changed,
      next = m.hold place.base changed place value ∧
      (∀ rest, changed.component (place.projection ++ rest) = value.component rest) ∧
      (∀ path, ¬ place.projection <+: path → ¬ path <+: place.projection →
        changed.component path = m.read ⟨place.base, path⟩) := by
  unfold write at h
  split at h
  · rename_i whole
    cases Option.some.inj h
    refine ⟨value, rfl, ?_, ?_⟩
    · intro rest
      rw [whole, List.nil_append]
    · intro path apart
      exact absurd (whole ▸ List.nil_prefix) apart
  · simp only [bind, Option.bind_eq_some_iff] at h
    obtain ⟨old, ho, changed, hr, last⟩ := h
    cases Option.some.inj last
    refine ⟨changed, rfl, Ty.componentReplace hr, ?_⟩
    intro path apart above
    simp [read, ho, Ty.componentBeside hr apart above]

def Fits (m : Machine) (body : Body) : Prop :=
  ∀ base ty value, body.localDecls[base]? = some ty → m.memory base = some value →
    ty.fits value = true

def Current (m : Machine) (body : Body) : Prop :=
  ∀ place ty value, declared body place = some ty → ty.isHidden = true →
    m.read place = some value → m.Gave place value

theorem readFits {m : Machine} {body : Body} {place : Place} {ty value : Ty} (fits : m.Fits body)
    (h : declared body place = some ty) (read : m.read place = some value) :
    ty.fits value = true := by
  simp only [declared, Option.bind_eq_some_iff] at h
  obtain ⟨decl, hd, hc⟩ := h
  simp only [Machine.read, Option.bind_eq_some_iff] at read
  obtain ⟨whole, hm, hv⟩ := read
  obtain ⟨v, hv', fit⟩ := Ty.fitsComponent (fits place.base decl whole hd hm) hc
  cases Option.some.inj (hv.symm.trans hv')
  exact fit

theorem readInside {m : Machine} {place : Place} {value : Ty} (read : m.read place = some value)
    (path : List PlaceElem) : m.read (place.extend path) = value.component path := by
  simp only [Machine.read, Option.bind_eq_some_iff] at read
  obtain ⟨whole, hm, hv⟩ := read
  simp [Machine.read, Place.extend, hm, Ty.componentAppend, hv]

section
variable {m next : Machine} {body : Body} {place : Place} {ty value : Ty}
  (at_ : declared body place = some ty) (wrote : m.write place value = some next)
include at_ wrote

theorem writeFits (fits : m.Fits body) (fit : ty.fits value = true) : next.Fits body := by
  simp only [declared, Option.bind_eq_some_iff] at at_
  obtain ⟨decl, hd, hc⟩ := at_
  have held : ∀ changed, decl.fits changed = true →
      (m.hold place.base changed place value).Fits body := by
    intro changed kept base ty' value' hd' hm
    by_cases same : base = place.base
    · subst same
      simp only [hold, Function.update_self] at hm
      cases Option.some.inj hm
      cases Option.some.inj (hd.symm.trans hd')
      exact kept
    · simp only [hold, Function.update_of_ne same] at hm
      exact fits base ty' value' hd' hm
  unfold write at wrote
  split at wrote
  · rename_i whole
    cases Option.some.inj wrote
    rw [whole, Ty.componentNil] at hc
    cases Option.some.inj hc
    exact held value fit
  · simp only [bind, Option.bind_eq_some_iff] at wrote
    obtain ⟨old, ho, changed, hr, last⟩ := wrote
    cases Option.some.inj last
    obtain ⟨changed', hr', kept⟩ := Ty.fitsReplace (fits place.base decl old hd ho) hc fit
    cases Option.some.inj (hr.symm.trans hr')
    exact held changed kept

theorem writeCurrent (current : m.Current body) : next.Current body := by
  obtain ⟨changed, rfl, inside, beside⟩ := writeHold wrote
  intro p ty' value' hp hidden read
  rw [gaveHold]
  by_cases same : p.base = place.base
  · have read' : changed.component p.projection = some value' := by
      simpa [Machine.read, hold, same] using read
    by_cases within : place.projection <+: p.projection
    · -- what was written says what is there
      obtain ⟨rest, split⟩ := within
      refine .inr ⟨rest, ?_, ?_⟩
      · cases p
        simp only at same split
        simp [Place.extend, same, split]
      · rw [← inside rest, split, read']
    · have apart : ¬ p.projection <+: place.projection := by
        intro above
        obtain ⟨rest, split⟩ := above
        have deeper : place = p.extend rest := by
          cases place
          simp only at same split
          simp [Place.extend, same, split]
        have part := (declaredInside hp rest).symm.trans (deeper ▸ at_)
        cases rest with
        | nil => exact within (by rw [← split, List.append_nil])
        | cons elem tail =>
          obtain ⟨tys, _, _, rfl, _⟩ := Ty.componentCons part
          simp [Ty.isHidden] at hidden
      rw [beside p.projection within apart, ← same] at read'
      exact .inl (current p ty' value' hp hidden read')
  · have read' : m.read p = some value' := by
      simpa [Machine.read, hold, Function.update_of_ne same] using read
    exact .inl (current p ty' value' hp hidden read')

end
end Machine
end Scrutinizer
