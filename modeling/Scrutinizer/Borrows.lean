import Scrutinizer.HasTrackedTy

/-! What straight-line assignments of references do when they run. A local holds a value, given
by its type, or a pointer; a pointer to a trait object also carries the type of its referent. -/
namespace Scrutinizer

namespace Ty

def pointee : Ty → List PlaceElem → Option Ty
  | ty, [] => some ty
  | .ref ty _, .deref :: rest => ty.pointee rest
  | _, _ :: _ => none

theorem pointeeNil (ty : Ty) : ty.pointee [] = some ty := by
  cases ty <;> rfl

theorem pointeeCons {ty part : Ty} {elem : PlaceElem} {rest : List PlaceElem}
    (h : ty.pointee (elem :: rest) = some part) :
    ∃ inner m, ty = .ref inner m ∧ elem = .deref ∧ inner.pointee rest = some part := by
  cases ty with
  | ref inner m =>
    cases elem with
    | deref => exact ⟨inner, m, rfl, rfl, h⟩
    | _ => simp [pointee] at h
  | _ => simp [pointee] at h

theorem pointeeAppend {first second : List PlaceElem} : ∀ {ty inner : Ty},
    ty.pointee first = some inner → ty.pointee (first ++ second) = inner.pointee second := by
  induction first with
  | nil =>
    intro ty inner h
    rw [pointeeNil] at h
    cases Option.some.inj h
    rfl
  | cons elem rest ih =>
    intro ty inner h
    obtain ⟨behind, m, rfl, rfl, h⟩ := pointeeCons h
    exact ih h

theorem erasedRef (ty : Ty) (m : Mutability) : containsErased (.ref ty m) = containsErased ty := by
  simp [containsErased, containsClosure, nodes, isClosure, isErasedKind]

theorem erasedPointee {path : List PlaceElem} : ∀ {ty part : Ty}, ty.pointee path = some part →
    containsErased ty = containsErased part := by
  induction path with
  | nil =>
    intro ty part h
    rw [pointeeNil] at h
    cases Option.some.inj h
    rfl
  | cons elem rest ih =>
    intro ty part h
    obtain ⟨inner, m, rfl, rfl, h⟩ := pointeeCons h
    rw [erasedRef, ih h]

def derefPaths : Ty → List (List PlaceElem)
  | .ref ty _ => [] :: ty.derefPaths.map (.deref :: ·)
  | _ => [[]]

theorem memDerefPaths {path : List PlaceElem} : ∀ {ty part : Ty}, ty.pointee path = some part →
    path ∈ ty.derefPaths := by
  induction path with
  | nil => intro ty part _; cases ty <;> simp [derefPaths]
  | cons elem rest ih =>
    intro ty part h
    obtain ⟨inner, m, rfl, rfl, h⟩ := pointeeCons h
    exact List.mem_cons_of_mem _ (List.mem_map_of_mem (ih h))

end Ty

theorem projectPointee (tcx : TyCtxt) {path : List PlaceElem} : ∀ {ty part : Ty},
    ty.pointee path = some part → projectAll tcx (.fromTy ty) path = .ok (.fromTy part) := by
  induction path with
  | nil =>
    intro ty part h
    rw [Ty.pointeeNil] at h
    cases Option.some.inj h
    rfl
  | cons elem rest ih =>
    intro ty part h
    obtain ⟨inner, m, rfl, rfl, h⟩ := Ty.pointeeCons h
    have one : refreshAndProject tcx (.fromTy (.ref inner m)) .deref = .ok (.fromTy inner) := rfl
    rw [projectAll, List.foldlM_cons, one]
    exact ih h

namespace Borrows

def declared (body : Body) (place : Place) : Option Ty :=
  (body.localDecls[place.base]?).bind (fun ty => ty.pointee place.projection)

/- A thin pointer knows where its referent is; a fat one was made by an unsizing cast, which
adds the type that the methods are called of. -/
inductive Cell where
  | value (ty : Ty)
  | thin (target : Nat)
  | fat (target : Nat) (concrete : Ty)
  deriving DecidableEq, Repr

def load (memory : Nat → Option Cell) : Cell → PlaceElem → Option Cell
  | .thin target, .deref => memory target
  | _, _ => none

def address (memory : Nat → Option Cell) (place : Place) : Option Cell :=
  place.projection.foldlM (load memory) (.thin place.base)

def fetch (memory : Nat → Option Cell) (place : Place) : Option Cell :=
  (address memory place).bind (fun pointer => load memory pointer .deref)

def shows (memory : Nat → Option Cell) : Ty → Cell → Option Ty
  | .ref ty m, .thin target =>
      (memory target).bind (fun cell => (shows memory ty cell).map (fun shown => .ref shown m))
  | .ref _ m, .fat _ concrete => some (.ref concrete m)
  | .ref _ _, .value _ => none
  | _, .value ty => some ty
  | _, _ => none

def behind (memory : Nat → Option Cell) (ty : Ty) : Cell → Option Ty
  | .thin target => (memory target).bind (shows memory ty)
  | .fat _ concrete => some concrete
  | .value _ => none

theorem showsRef (memory : Nat → Option Cell) (ty : Ty) (m : Mutability) (pointer : Cell) :
    shows memory (.ref ty m) pointer = (behind memory ty pointer).map (fun shown => .ref shown m) := by
  cases pointer with
  | value ty => rfl
  | thin target => simp [shows, behind, Option.map_bind]
  | fat target concrete => rfl

structure Machine where
  memory : Nat → Option Cell
  history : List (Place × Ty)

namespace Machine
variable (m : Machine) (body : Body)

def read (place : Place) : Option Ty := do
  let ty ← declared body place
  let pointer ← address m.memory place
  behind m.memory ty pointer

/- The concrete type of an unsizing cast is the one its operand is declared with. -/
def unsize (place : Place) : Option Cell :=
  match declared body place, fetch m.memory place with
  | some (.ref ty _), some (.thin target) => some (.fat target ty)
  | _, _ => none

def rvalue : Rvalue → Option Cell
  | .useOperand (.constant ty) => some (.value ty)
  | .useOperand (.copy place) | .useOperand (.move place) | .copyForDeref place =>
      fetch m.memory place
  | .ref _ place => address m.memory place
  | .cast .unsize (.copy place) _ | .cast .unsize (.move place) _ => m.unsize body place
  | _ => none

def write (place : Place) (cell : Cell) (shown : Ty) : Option Machine :=
  match address m.memory place with
  | some (.thin target) =>
      some ⟨Function.update m.memory target (some cell), m.history ++ [(place, shown)]⟩
  | _ => none

def step : Statement → Option Machine
  | .assign place rvalue => do
      let ty ← declared body place
      let cell ← m.rvalue body rvalue
      let shown ← shows m.memory ty cell
      m.write place cell shown
  | .other => some m

def run (statements : List Statement) : Option Machine :=
  statements.foldlM (fun m statement => m.step body statement) m

def Gave (place : Place) (shown : Ty) : Prop :=
  ∃ target assigned path, (target, assigned) ∈ m.history ∧ place = target.extend path ∧
    assigned.pointee path = some shown

/- The place holds what was brought there under its own name: no store through a reference
changed it since. -/
def UpToDate (place : Place) : Prop :=
  ∀ ty shown, declared body place = some ty → containsErased ty = true →
    m.read body place = some shown → m.Gave place shown

end Machine

def reads : Rvalue → List Place
  | .useOperand op => op.place.toList
  | .ref _ place | .copyForDeref place => [place]
  | _ => []

def readsOf : Statement → List Place
  | .assign _ rvalue => reads rvalue
  | .other => []

def Faithful (body : Body) : Machine → List Statement → Prop
  | _, [] => True
  | m, statement :: rest => (∀ place ∈ readsOf statement, m.UpToDate body place) ∧
      ∀ next, m.step body statement = some next → Faithful body next rest

inductive HasTy (body : Body) : Rvalue → Ty → Prop where
  | constant {ty} (known : containsErased ty = false) : HasTy body (.useOperand (.constant ty)) ty
  | copy {place ty} (at_ : declared body place = some ty) :
      HasTy body (.useOperand (.copy place)) ty
  | move {place ty} (at_ : declared body place = some ty) :
      HasTy body (.useOperand (.move place)) ty
  | copyForDeref {place ty} (at_ : declared body place = some ty) :
      HasTy body (.copyForDeref place) ty
  | ref {kind place ty} (at_ : declared body place = some ty) :
      HasTy body (.ref kind place) (.ref ty kind.toMutbl)
  | unsize {op place ty m did args} (from_ : op = .copy place ∨ op = .move place)
      (at_ : declared body place = some (.ref ty m)) (known : containsErased ty = false) :
      HasTy body (.cast .unsize op (.ref (.dynamic did args) m)) (.ref (.dynamic did args) m)

inductive Typed (body : Body) : Statement → Prop where
  | assign {place rvalue ty} (at_ : declared body place = some ty) (has : HasTy body rvalue ty) :
      Typed body (.assign place rvalue)
  | other : Typed body .other

theorem declaredInside {body : Body} {place : Place} {ty : Ty} (h : declared body place = some ty)
    (path : List PlaceElem) : declared body (place.extend path) = ty.pointee path := by
  simp only [declared, Option.bind_eq_some_iff] at h
  obtain ⟨decl, hd, hp⟩ := h
  simp [declared, Place.extend, hd, Ty.pointeeAppend hp]

theorem declaredTy (tcx : TyCtxt) {body : Body} {place : Place} {ty : Ty}
    (h : declared body place = some ty) : place.ty tcx body = .ok (.fromTy ty) := by
  simp only [declared, Option.bind_eq_some_iff] at h
  obtain ⟨decl, hd, hp⟩ := h
  simp [Place.ty, hd, orMissing, bind, Except.bind, projectPointee tcx hp]

theorem projectTailPointee (tcx : TyCtxt) {body : Body} {place : Place} {decl ty part : Ty}
    {path : List PlaceElem} (h : declared body place = some decl)
    (hp : ty.pointee path = some part) :
    CollectorDomain.projectTail tcx body place (place.extend path) ty = .ok part := by
  have whole := projectPointee tcx hp
  simp only [PlaceTy.fromTy] at whole
  simp [CollectorDomain.projectTail, declaredTy tcx h, Place.extend, PlaceTy.fromTy, whole, bind,
    Except.bind]

section
variable {m : Machine} {body : Body} {place : Place} {ty shown : Ty} {cell : Cell}

theorem fetchShows (at_ : declared body place = some ty) (got : fetch m.memory place = some cell)
    (shown_ : shows m.memory ty cell = some shown) : m.read body place = some shown := by
  simp only [fetch, Option.bind_eq_some_iff] at got
  obtain ⟨pointer, hp, got⟩ := got
  cases pointer with
  | thin target =>
    have held : m.memory target = some cell := got
    simp [Machine.read, at_, hp, behind, held, shown_]
  | _ => cases got

theorem borrowShows {mutbl : Mutability} (at_ : declared body place = some ty)
    (got : address m.memory place = some cell)
    (shown_ : shows m.memory (.ref ty mutbl) cell = some shown) :
    ∃ inner, m.read body place = some inner ∧ shown = .ref inner mutbl := by
  rw [showsRef, Option.map_eq_some_iff] at shown_
  obtain ⟨inner, hi, same⟩ := shown_
  exact ⟨inner, by simp [Machine.read, at_, got, hi], same.symm⟩

theorem unsizeShows {mutbl : Mutability} {inner target : Ty}
    (at_ : declared body place = some (.ref inner mutbl)) (got : m.unsize body place = some cell)
    (shown_ : shows m.memory (.ref target mutbl) cell = some shown) :
    shown = .ref inner mutbl := by
  unfold Machine.unsize at got
  rw [at_] at got
  split at got
  · rename_i same _
    cases Option.some.inj same
    cases Option.some.inj got
    exact (Option.some.inj shown_).symm
  · cases got

end
end Borrows
end Scrutinizer
