import Scrutinizer.Library.HashMap
import Scrutinizer.TrackedTy

/-! Calls, function records and the two storages that a collection fills. -/
namespace Scrutinizer

inductive FunctionCall where
  | withBody (inst : Instance) (args : List Operand)
  | withoutBody (defId : DefId) (args : List Operand)
  deriving DecidableEq

namespace FunctionCall

def args : FunctionCall → List Operand
  | .withBody _ args | .withoutBody _ args => args

def defId : FunctionCall → DefId
  | .withBody inst _ => inst.defId
  | .withoutBody defId _ => defId

end FunctionCall

/- `NormalizedPlace::from_place` is `tcx.normalize`: a normalized place is a `Place`, since
places carry no field types here. -/
abbrev PlaceMap := HashMap Place TrackedTy

inductive FunctionInfo where
  | withBody (inst : Instance) (places : PlaceMap) (calls : Finset FunctionCall)
      (body : Body) (span : Nat) (unhandled : Finset Ty)
  | withoutBody (defId : DefId) (trackedArgs : List TrackedTy)

namespace FunctionInfo

def defId : FunctionInfo → DefId
  | .withBody inst _ _ _ _ _ => inst.defId
  | .withoutBody defId _ => defId

def inst : FunctionInfo → Option Instance
  | .withBody inst _ _ _ _ _ => some inst
  | .withoutBody _ _ => none

def calls : FunctionInfo → Option (Finset FunctionCall)
  | .withBody _ _ calls _ _ _ => some calls
  | .withoutBody _ _ => none

/- `PartialEq`: everything but the body. -/
def eq : FunctionInfo → FunctionInfo → Bool
  | .withBody lInst lPlaces lCalls _ lSpan lUnhandled,
    .withBody rInst rPlaces rCalls _ rSpan rUnhandled =>
      decide (lInst = rInst) && lPlaces.same rPlaces && decide (lCalls = rCalls) &&
        decide (lSpan = rSpan) && decide (lUnhandled = rUnhandled)
  | .withoutBody lDefId lArgs, .withoutBody rDefId rArgs =>
      decide (lDefId = rDefId) && decide (lArgs = rArgs)
  | _, _ => false

inductive Key where
  | withBody (inst : Instance)
  | withoutBody (defId : DefId)
  deriving DecidableEq

def key : FunctionInfo → Key
  | .withBody inst _ _ _ _ _ => .withBody inst
  | .withoutBody defId _ => .withoutBody defId

theorem eqKey {a b : FunctionInfo} (h : a.eq b = true) : a.key = b.key ∧ a.calls = b.calls := by
  cases a <;> cases b <;> simp_all [eq, key, calls]

end FunctionInfo

def FunctionCall.key : FunctionCall → FunctionInfo.Key
  | .withBody inst _ => .withBody inst
  | .withoutBody defId _ => .withoutBody defId

structure FunctionInfoStorage where
  origin : Instance
  fns : List FunctionInfo

namespace FunctionInfoStorage

def new (origin : Instance) : FunctionInfoStorage := ⟨origin, []⟩

def insert (self : FunctionInfoStorage) (info : FunctionInfo) : FunctionInfoStorage :=
  if self.fns.any (fun f => f.eq info) then self else {self with fns := self.fns ++ [info]}

def isWithBody (inst : Instance) : FunctionInfo → Bool
  | .withBody funcInstance _ _ _ _ _ => decide (inst = funcInstance)
  | .withoutBody _ _ => false

def isWithoutBody (defId : DefId) : FunctionInfo → Bool
  | .withBody _ _ _ _ _ _ => false
  | .withoutBody funcDefId _ => decide (funcDefId = defId)

def getWithBody (self : FunctionInfoStorage) (inst : Instance) : Option FunctionInfo :=
  self.fns.find? (isWithBody inst)

def getWithoutBody (self : FunctionInfoStorage) (defId : DefId) : Option FunctionInfo :=
  self.fns.find? (isWithoutBody defId)

/- `None` is the panic of the `unwrap`. -/
def getByCall (self : FunctionInfoStorage) (call : FunctionCall) : Option FunctionInfo :=
  match call with
  | .withBody inst _ => self.getWithBody inst
  | .withoutBody defId _ => self.getWithoutBody defId

theorem isWithBodyKey (inst : Instance) :
    isWithBody inst = fun f : FunctionInfo => decide (f.key = .withBody inst) := by
  funext f
  cases f <;> simp [isWithBody, FunctionInfo.key, eq_comm]

theorem isWithoutBodyKey (defId : DefId) :
    isWithoutBody defId = fun f : FunctionInfo => decide (f.key = .withoutBody defId) := by
  funext f
  cases f <;> simp [isWithoutBody, FunctionInfo.key]

theorem getByCallKey (self : FunctionInfoStorage) (call : FunctionCall) :
    self.getByCall call = self.fns.find? (fun f => decide (f.key = call.key)) := by
  cases call with
  | withBody inst args =>
    rw [getByCall, getWithBody, isWithBodyKey]
    rfl
  | withoutBody defId args =>
    rw [getByCall, getWithoutBody, isWithoutBodyKey]
    rfl

theorem insertCases (self : FunctionInfoStorage) (info : FunctionInfo) :
    (self.insert info = self ∧ ∃ f ∈ self.fns, f.eq info = true) ∨
    (self.insert info = {self with fns := self.fns ++ [info]} ∧ ∀ f ∈ self.fns, f.eq info = false) := by
  unfold insert
  split
  · rename_i known
    exact .inl ⟨rfl, by simpa using known⟩
  · rename_i fresh
    exact .inr ⟨rfl, by simpa using fresh⟩

theorem insertOrigin (self : FunctionInfoStorage) (info : FunctionInfo) :
    (self.insert info).origin = self.origin := by
  rcases self.insertCases info with ⟨h, _⟩ | ⟨h, _⟩ <;> rw [h]

theorem insertPrefix (self : FunctionInfoStorage) (info : FunctionInfo) :
    self.fns <+: (self.insert info).fns := by
  rcases self.insertCases info with ⟨h, _⟩ | ⟨h, _⟩ <;> rw [h]
  exact List.prefix_append _ _

theorem insertHasKey (self : FunctionInfoStorage) (info : FunctionInfo) :
    ∃ f ∈ (self.insert info).fns, f.key = info.key := by
  rcases self.insertCases info with ⟨h, f, hf, same⟩ | ⟨h, _⟩
  · rw [h]
    exact ⟨f, hf, (FunctionInfo.eqKey same).1⟩
  · rw [h]
    exact ⟨info, by simp, rfl⟩

theorem insertFirst {self : FunctionInfoStorage} {key : FunctionInfo.Key} {f : FunctionInfo}
    (first : self.fns.find? (fun f => decide (f.key = key)) = some f) (info : FunctionInfo) :
    (self.insert info).fns.find? (fun f => decide (f.key = key)) = some f := by
  rcases self.insertCases info with ⟨h, _⟩ | ⟨h, _⟩ <;> rw [h]
  · exact first
  · rw [List.find?_append, first, Option.some_or]

theorem insertNew {self : FunctionInfoStorage} {key : FunctionInfo.Key} {info f : FunctionInfo}
    (none : self.fns.find? (fun f => decide (f.key = key)) = none)
    (first : (self.insert info).fns.find? (fun f => decide (f.key = key)) = some f) :
    f = info ∧ info.key = key := by
  rcases self.insertCases info with ⟨h, _⟩ | ⟨h, _⟩ <;> rw [h] at first
  · rw [none] at first
    contradiction
  · rw [List.find?_append, none, Option.none_or, List.find?_cons] at first
    by_cases same : info.key = key
    · simp only [same, decide_true, Option.some.injEq] at first
      exact ⟨first.symm, same⟩
    · simp [same] at first

end FunctionInfoStorage

structure ClosureInfo where
  withSubsts : Ty
  upvars : List TrackedTy
  deriving DecidableEq

namespace ClosureInfo

/- `None` where the code panics: the type is not a closure or does not resolve. -/
def extractInstance (tcx : TyCtxt) (self : ClosureInfo) : Option Instance :=
  match self.withSubsts with
  | .closure defId substs => tcx.resolve defId substs
  | _ => none

def joinUpvars (old new : List TrackedTy) : List TrackedTy :=
  List.zipWith (fun oldUpvar newUpvar => (oldUpvar.join newUpvar).1) old new

/- The three cases of a closure that is already known; `none` is the failed assertion on the
lengths. -/
def addUpvars (self : ClosureInfo) (upvars : List TrackedTy) : Option ClosureInfo :=
  if self.upvars = [] then some {self with upvars := upvars}
  else if upvars = [] then some self
  else if upvars.length = self.upvars.length then
    some {self with upvars := joinUpvars self.upvars upvars}
  else none

end ClosureInfo

abbrev ClosureInfoStorage := HashMap DefId ClosureInfo

namespace ClosureInfoStorage

def updateWith (self : ClosureInfoStorage) (closureTy : Ty) (outerInstance : Instance)
    (upvars : List TrackedTy) : Option ClosureInfoStorage :=
  match closureTy with
  | .closure closureDefId _ =>
      let resolvedClosureTy := outerInstance.substMir closureTy
      match self.get closureDefId with
      | some closureRef => do
          let updated ← closureRef.addUpvars upvars
          some (self.insert closureDefId updated)
      | none => some (self.insert closureDefId ⟨resolvedClosureTy, upvars⟩)
  | _ => some self

end ClosureInfoStorage
end Scrutinizer
