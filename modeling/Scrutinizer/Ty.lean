import Mathlib.Data.Finset.Basic

/-! Types as rustc hands them to the analysis. Regions are erased in the bodies it reads, so a
lifetime is a leaf without a name; `SigTy` has the names where they matter. A generic argument is a type, a lifetime or a
constant; the last two are leaves of `Ty` that occur as arguments only. -/
namespace Scrutinizer

abbrev DefId := Nat

inductive Mutability where
  | not
  | mut
  deriving DecidableEq, Repr

inductive PrimTy where
  | bool
  | char
  | str
  | never
  | int (bits : Option Nat)
  | uint (bits : Option Nat)
  | float (bits : Nat)
  deriving DecidableEq, Repr

/- `closure` carries the arguments of the enclosing function followed by the closure kind,
the signature as a function pointer type and the tuple of upvar types. -/
inductive Ty where
  | prim (name : PrimTy)
  | param (index : Nat)
  | adt (did : DefId) (args : List Ty)
  | ref (ty : Ty) (mutbl : Mutability)
  | rawPtr (ty : Ty) (mutbl : Mutability)
  | array (ty : Ty) (len : Ty)
  | slice (ty : Ty)
  | tuple (tys : List Ty)
  | fnDef (did : DefId) (args : List Ty)
  | fnPtr (inputs : List Ty) (output : Ty)
  | closure (did : DefId) (args : List Ty)
  | dynamic (did : DefId) (args : List Ty)
  | foreign (did : DefId)
  | alias (did : DefId) (args : List Ty)
  | lifetime
  | const (value : Nat)
  deriving Repr

namespace Ty

def bool : Ty := .prim .bool
def usize : Ty := .prim (.uint none)
def unit : Ty := .tuple []

mutual
def beq : Ty → Ty → Bool
  | .prim a, .prim b => decide (a = b)
  | .param a, .param b => decide (a = b)
  | .adt a as, .adt b bs => decide (a = b) && beqList as bs
  | .ref a m, .ref b n => beq a b && decide (m = n)
  | .rawPtr a m, .rawPtr b n => beq a b && decide (m = n)
  | .array a n, .array b m => beq a b && beq n m
  | .slice a, .slice b => beq a b
  | .tuple as, .tuple bs => beqList as bs
  | .fnDef a as, .fnDef b bs => decide (a = b) && beqList as bs
  | .fnPtr as a, .fnPtr bs b => beqList as bs && beq a b
  | .closure a as, .closure b bs => decide (a = b) && beqList as bs
  | .dynamic a as, .dynamic b bs => decide (a = b) && beqList as bs
  | .foreign a, .foreign b => decide (a = b)
  | .alias a as, .alias b bs => decide (a = b) && beqList as bs
  | .lifetime, .lifetime => true
  | .const a, .const b => decide (a = b)
  | _, _ => false

def beqList : List Ty → List Ty → Bool
  | [], [] => true
  | a :: as, b :: bs => beq a b && beqList as bs
  | _, _ => false
end

mutual
theorem beqIff : ∀ a b : Ty, beq a b = true ↔ a = b
  | .prim _, b => by cases b <;> simp [beq]
  | .param _, b => by cases b <;> simp [beq]
  | .adt _ as, b => by cases b <;> simp [beq, beqListIff as]
  | .ref a _, b => by cases b <;> simp [beq, beqIff a]
  | .rawPtr a _, b => by cases b <;> simp [beq, beqIff a]
  | .array a n, b => by cases b <;> simp [beq, beqIff a, beqIff n]
  | .slice a, b => by cases b <;> simp [beq, beqIff a]
  | .tuple as, b => by cases b <;> simp [beq, beqListIff as]
  | .fnDef _ as, b => by cases b <;> simp [beq, beqListIff as]
  | .fnPtr as a, b => by cases b <;> simp [beq, beqListIff as, beqIff a]
  | .closure _ as, b => by cases b <;> simp [beq, beqListIff as]
  | .dynamic _ as, b => by cases b <;> simp [beq, beqListIff as]
  | .foreign _, b => by cases b <;> simp [beq]
  | .alias _ as, b => by cases b <;> simp [beq, beqListIff as]
  | .lifetime, b => by cases b <;> simp [beq]
  | .const _, b => by cases b <;> simp [beq]

theorem beqListIff : ∀ as bs : List Ty, beqList as bs = true ↔ as = bs
  | [], bs => by cases bs <;> simp [beqList]
  | a :: as, bs => by cases bs <;> simp [beqList, beqIff a, beqListIff as]
end

instance : DecidableEq Ty := fun a b => decidable_of_iff (beq a b = true) (beqIff a b)

/- The nodes of a type: the type itself, then its components from left to right, each in
pre-order. A reference shows its region before its referent, a constant shows the type of its
value. -/
mutual
def nodes : Ty → List Ty
  | t@(.prim _) | t@(.param _) | t@(.foreign _) | t@(.lifetime) => [t]
  | t@(.const _) => [t, usize]
  | t@(.adt _ args) | t@(.fnDef _ args) | t@(.closure _ args) | t@(.alias _ args) =>
      t :: nodesList args
  | t@(.ref ty _) => t :: .lifetime :: nodes ty
  | t@(.rawPtr ty _) | t@(.slice ty) => t :: nodes ty
  | t@(.array ty len) => t :: (nodes ty ++ nodes len)
  | t@(.tuple tys) => t :: nodesList tys
  | t@(.fnPtr inputs output) => t :: (nodesList inputs ++ nodes output)
  | t@(.dynamic _ args) => t :: (nodesList args ++ [.lifetime])

def nodesList : List Ty → List Ty
  | [] => []
  | t :: ts => nodes t ++ nodesList ts
end

/- `TypeWalker` keeps a set of visited nodes and shows each node once, where it first comes up. -/
def walk (ty : Ty) : List Ty := ty.nodes.eraseDups

@[simp] theorem walkAny (ty : Ty) (p : Ty → Bool) : ty.walk.any p = ty.nodes.any p := by
  rw [Bool.eq_iff_iff]
  simp [walk, List.mem_eraseDups]

mutual
def instantiate (args : List Ty) : Ty → Ty
  | .param index => (args[index]?).getD (.param index)
  | .adt did as => .adt did (instantiateList args as)
  | .ref ty m => .ref (instantiate args ty) m
  | .rawPtr ty m => .rawPtr (instantiate args ty) m
  | .array ty len => .array (instantiate args ty) (instantiate args len)
  | .slice ty => .slice (instantiate args ty)
  | .tuple tys => .tuple (instantiateList args tys)
  | .fnDef did as => .fnDef did (instantiateList args as)
  | .fnPtr inputs output => .fnPtr (instantiateList args inputs) (instantiate args output)
  | .closure did as => .closure did (instantiateList args as)
  | .dynamic did as => .dynamic did (instantiateList args as)
  | .alias did as => .alias did (instantiateList args as)
  | .prim name => .prim name
  | .foreign did => .foreign did
  | .lifetime => .lifetime
  | .const value => .const value

def instantiateList (args : List Ty) : List Ty → List Ty
  | [] => []
  | t :: ts => instantiate args t :: instantiateList args ts
end

theorem instantiateListMap (args ts : List Ty) : instantiateList args ts = ts.map (instantiate args) := by
  induction ts with
  | nil => rfl
  | cons t ts ih => rw [instantiateList, ih, List.map_cons]

def isRef : Ty → Bool
  | .ref _ _ => true
  | _ => false

def isFnPtr : Ty → Bool
  | .fnPtr _ _ => true
  | _ => false

def isClosure : Ty → Bool
  | .closure _ _ => true
  | _ => false

def refMutability : Ty → Option Mutability
  | .ref _ m => some m
  | _ => none

/- `GenericArg::unpack` gives a type. -/
def isType : Ty → Bool
  | .lifetime | .const _ => false
  | _ => true

/- `tuple_fields` panics on any other type. -/
def tupleFields : Ty → Option (List Ty)
  | .tuple tys => some tys
  | _ => none

def builtinIndex : Ty → Option Ty
  | .array ty _ | .slice ty => some ty
  | _ => none

def containsClosure (ty : Ty) : Bool := ty.walk.any isClosure

def isErasedKind : Ty → Bool
  | .param _ | .fnPtr _ _ | .rawPtr _ _ | .dynamic _ _ | .foreign _ => true
  | _ => false

end Ty

structure ClosureParts where
  parentArgs : List Ty
  closureKind : Ty
  sig : Ty
  tupledUpvars : Ty
  deriving DecidableEq, Repr

namespace ClosureParts

def args (p : ClosureParts) : List Ty := p.parentArgs ++ [p.closureKind, p.sig, p.tupledUpvars]

/- `as_closure`: splits off the three synthetic arguments. -/
def asClosure (args : List Ty) : Option ClosureParts :=
  match args.reverse with
  | upvars :: sig :: kind :: parent => some ⟨parent.reverse, kind, sig, upvars⟩
  | _ => none

def upvarTys (p : ClosureParts) : Option (List Ty) := p.tupledUpvars.tupleFields

theorem asClosureArgs (p : ClosureParts) : asClosure p.args = some p := by
  simp [asClosure, args]

end ClosureParts
end Scrutinizer
