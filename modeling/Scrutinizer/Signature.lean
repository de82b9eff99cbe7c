import Scrutinizer.Ty

/-! Signatures as `fn_sig(..).instantiate_identity()` gives them: the only types of the analysis
whose lifetimes still have their names. -/
namespace Scrutinizer

inductive SigTy where
  | prim (name : PrimTy)
  | param (index : Nat)
  | adt (did : DefId) (args : List SigTy)
  | ref (region : Nat) (ty : SigTy) (mutbl : Mutability)
  | rawPtr (ty : SigTy) (mutbl : Mutability)
  | array (ty : SigTy) (len : SigTy)
  | slice (ty : SigTy)
  | tuple (tys : List SigTy)
  | fnDef (did : DefId) (args : List SigTy)
  | fnPtr (inputs : List SigTy) (output : SigTy)
  | closure (did : DefId) (args : List SigTy)
  | dynamic (did : DefId) (args : List SigTy) (region : Nat)
  | foreign (did : DefId)
  | alias (did : DefId) (args : List SigTy)
  | lifetime (region : Nat)
  | const (value : Nat)
  deriving Repr

namespace SigTy

def bool : SigTy := .prim .bool
def usize : SigTy := .prim (.uint none)
def unit : SigTy := .tuple []

mutual
def beq : SigTy → SigTy → Bool
  | .prim a, .prim b => decide (a = b)
  | .param a, .param b => decide (a = b)
  | .adt a as, .adt b bs => decide (a = b) && beqList as bs
  | .ref r a m, .ref s b n => decide (r = s) && beq a b && decide (m = n)
  | .rawPtr a m, .rawPtr b n => beq a b && decide (m = n)
  | .array a n, .array b m => beq a b && beq n m
  | .slice a, .slice b => beq a b
  | .tuple as, .tuple bs => beqList as bs
  | .fnDef a as, .fnDef b bs => decide (a = b) && beqList as bs
  | .fnPtr as a, .fnPtr bs b => beqList as bs && beq a b
  | .closure a as, .closure b bs => decide (a = b) && beqList as bs
  | .dynamic a as r, .dynamic b bs s => decide (a = b) && beqList as bs && decide (r = s)
  | .foreign a, .foreign b => decide (a = b)
  | .alias a as, .alias b bs => decide (a = b) && beqList as bs
  | .lifetime r, .lifetime s => decide (r = s)
  | .const a, .const b => decide (a = b)
  | _, _ => false

def beqList : List SigTy → List SigTy → Bool
  | [], [] => true
  | a :: as, b :: bs => beq a b && beqList as bs
  | _, _ => false
end

mutual
theorem beqIff : ∀ a b : SigTy, beq a b = true ↔ a = b
  | .prim _, b => by cases b <;> simp [beq]
  | .param _, b => by cases b <;> simp [beq]
  | .adt _ as, b => by cases b <;> simp [beq, beqListIff as]
  | .ref _ a _, b => by cases b <;> simp [beq, beqIff a, and_assoc]
  | .rawPtr a _, b => by cases b <;> simp [beq, beqIff a]
  | .array a n, b => by cases b <;> simp [beq, beqIff a, beqIff n]
  | .slice a, b => by cases b <;> simp [beq, beqIff a]
  | .tuple as, b => by cases b <;> simp [beq, beqListIff as]
  | .fnDef _ as, b => by cases b <;> simp [beq, beqListIff as]
  | .fnPtr as a, b => by cases b <;> simp [beq, beqListIff as, beqIff a]
  | .closure _ as, b => by cases b <;> simp [beq, beqListIff as]
  | .dynamic _ as _, b => by cases b <;> simp [beq, beqListIff as, and_assoc]
  | .foreign _, b => by cases b <;> simp [beq]
  | .alias _ as, b => by cases b <;> simp [beq, beqListIff as]
  | .lifetime _, b => by cases b <;> simp [beq]
  | .const _, b => by cases b <;> simp [beq]

theorem beqListIff : ∀ as bs : List SigTy, beqList as bs = true ↔ as = bs
  | [], bs => by cases bs <;> simp [beqList]
  | a :: as, bs => by cases bs <;> simp [beqList, beqIff a, beqListIff as]
end

instance : DecidableEq SigTy := fun a b => decidable_of_iff (beq a b = true) (beqIff a b)

/- The nodes of a type as `Ty.nodes` lists them; two lifetimes are the same node if they have
the same name. -/
mutual
def nodes : SigTy → List SigTy
  | t@(.prim _) | t@(.param _) | t@(.foreign _) | t@(.lifetime _) => [t]
  | t@(.const _) => [t, usize]
  | t@(.adt _ args) | t@(.fnDef _ args) | t@(.closure _ args) | t@(.alias _ args) =>
      t :: nodesList args
  | t@(.ref region ty _) => t :: .lifetime region :: nodes ty
  | t@(.rawPtr ty _) | t@(.slice ty) => t :: nodes ty
  | t@(.array ty len) => t :: (nodes ty ++ nodes len)
  | t@(.tuple tys) => t :: nodesList tys
  | t@(.fnPtr inputs output) => t :: (nodesList inputs ++ nodes output)
  | t@(.dynamic _ args region) => t :: (nodesList args ++ [.lifetime region])

def nodesList : List SigTy → List SigTy
  | [] => []
  | t :: ts => nodes t ++ nodesList ts
end

def walk (ty : SigTy) : List SigTy := ty.nodes.eraseDups

/- Substitution of generic arguments. The lifetimes are erased with it. -/
mutual
def instantiate (args : List Ty) : SigTy → Ty
  | .param index => (args[index]?).getD (.param index)
  | .adt did as => .adt did (instantiateList args as)
  | .ref _ ty m => .ref (instantiate args ty) m
  | .rawPtr ty m => .rawPtr (instantiate args ty) m
  | .array ty len => .array (instantiate args ty) (instantiate args len)
  | .slice ty => .slice (instantiate args ty)
  | .tuple tys => .tuple (instantiateList args tys)
  | .fnDef did as => .fnDef did (instantiateList args as)
  | .fnPtr inputs output => .fnPtr (instantiateList args inputs) (instantiate args output)
  | .closure did as => .closure did (instantiateList args as)
  | .dynamic did as _ => .dynamic did (instantiateList args as)
  | .alias did as => .alias did (instantiateList args as)
  | .prim name => .prim name
  | .foreign did => .foreign did
  | .lifetime _ => .lifetime
  | .const value => .const value

def instantiateList (args : List Ty) : List SigTy → List Ty
  | [] => []
  | t :: ts => instantiate args t :: instantiateList args ts
end

def isParam (index : Nat) : SigTy → Bool
  | .param i => decide (i = index)
  | _ => false

end SigTy

structure FnSig (T : Type) where
  inputs : List T
  output : T
  deriving DecidableEq, Repr

end Scrutinizer
