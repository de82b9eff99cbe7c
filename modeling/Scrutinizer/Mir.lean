import Scrutinizer.Ty

/-! Mid-level IR: places, operands, rvalues, bodies and the instances they belong to. -/
namespace Scrutinizer

/- `field` carries the index only, as in the comparison of `NormalizedPlace`. The type that rustc
stores beside it is computed where it is asked for; where the code stores another one,
`propagateUpvar` says so. -/
inductive PlaceElem where
  | deref
  | field (idx : Nat)
  | index (var : Nat)
  | constantIndex (offset : Nat) (fromEnd : Bool)
  | subslice (lo hi : Nat) (fromEnd : Bool)
  | downcast (variant : Nat)
  | opaqueCast (ty : Ty)
  deriving DecidableEq, Repr

/- `base` is the local of a place. -/
structure Place where
  base : Nat
  projection : List PlaceElem
  deriving DecidableEq, Repr

namespace Place

def fromLocal (base : Nat) : Place := ⟨base, []⟩

def returnPlace : Place := fromLocal 0

def asLocal (p : Place) : Option Nat := if p.projection = [] then some p.base else none

def extend (p : Place) (elems : List PlaceElem) : Place := ⟨p.base, p.projection ++ elems⟩

end Place

inductive Operand where
  | copy (place : Place)
  | move (place : Place)
  | constant (ty : Ty)
  deriving DecidableEq, Repr

def Operand.place : Operand → Option Place
  | .copy p | .move p => some p
  | .constant _ => none

inductive BorrowKind where
  | shared
  | shallow
  | mut
  deriving DecidableEq, Repr

/- `mutability` and `to_mutbl_lossy` agree on these kinds. -/
def BorrowKind.toMutbl : BorrowKind → Mutability
  | .mut => .mut
  | .shared | .shallow => .not

inductive CastKind where
  | pointerExposeAddress
  | pointerFromExposedAddress
  | reifyFnPointer
  | unsafeFnPointer
  | closureFnPointer
  | mutToConstPointer
  | arrayToPointer
  | unsize
  | dynStar
  | intToInt
  | floatToInt
  | floatToFloat
  | intToFloat
  | ptrToPtr
  | fnPtrToPtr
  | transmute
  deriving DecidableEq, Repr

inductive BinOp where
  | add | sub | mul | div | rem | bitXor | bitAnd | bitOr
  | addUnchecked | subUnchecked | mulUnchecked | shlUnchecked | shrUnchecked
  | shl | shr | offset
  | eq | lt | le | ne | ge | gt
  deriving DecidableEq, Repr

inductive AggregateKind where
  | array (ty : Ty)
  | tuple
  | adt (did : DefId) (variant : Nat) (args : List Ty)
  | closure (did : DefId) (args : List Ty)
  | generator (did : DefId) (args : List Ty)
  deriving DecidableEq, Repr

inductive Rvalue where
  | useOperand (operand : Operand)
  | repeatOperand (operand : Operand) (count : Ty)
  | threadLocalRef (did : DefId)
  | ref (kind : BorrowKind) (place : Place)
  | addressOf (mutbl : Mutability) (place : Place)
  | len (place : Place)
  | cast (kind : CastKind) (operand : Operand) (ty : Ty)
  | binaryOp (op : BinOp) (lhs rhs : Operand)
  | checkedBinaryOp (op : BinOp) (lhs rhs : Operand)
  | unaryOp (operand : Operand)
  | discriminant (place : Place)
  | nullaryOp
  | aggregate (kind : AggregateKind) (ops : List Operand)
  | shallowInitBox (operand : Operand) (ty : Ty)
  | copyForDeref (place : Place)
  deriving DecidableEq, Repr

/- Every statement that is not an assignment is a no-op for the analysis. -/
inductive Statement where
  | assign (place : Place) (rvalue : Rvalue)
  | other
  deriving DecidableEq, Repr

/- Every terminator that neither calls nor drops matters through its edges only. -/
inductive Terminator where
  | call (func : Operand) (args : List Operand) (destination : Place)
      (target : Option Nat) (unwind : Option Nat)
  | drop (place : Place) (target : Nat) (unwind : Option Nat)
  | other (targets : List Nat)
  deriving DecidableEq, Repr

/- The blocks that `terminator.edges()` joins the state into, in the order of the joins. -/
def Terminator.edges : Terminator → List Nat
  | .call _ _ _ target unwind => unwind.toList ++ target.toList
  | .drop _ target unwind => target :: unwind.toList
  | .other targets => targets

structure BasicBlockData where
  statements : List Statement
  terminator : Terminator
  deriving DecidableEq, Repr

structure VarDebugInfo where
  name : String
  place : Option Place
  deriving DecidableEq, Repr

structure Body where
  argCount : Nat
  localDecls : List Ty
  basicBlocks : List BasicBlockData
  varDebugInfo : List VarDebugInfo
  span : Nat
  deriving DecidableEq, Repr

/- `shim` stands for the compiler-made instances; the flag is `has_polymorphic_mir_body`. -/
inductive InstanceKind where
  | item
  | intrinsic
  | virtual
  | shim (polymorphic : Bool)
  deriving DecidableEq, Repr

structure Instance where
  kind : InstanceKind
  defId : DefId
  args : List Ty
  deriving DecidableEq, Repr

namespace Instance

/- `subst_mir` on a type. -/
def substMir (inst : Instance) (ty : Ty) : Ty :=
  if inst.kind = .shim false then ty else ty.instantiate inst.args

def substInstance (inst : Instance) (other : Instance) : Instance :=
  {other with args := other.args.map inst.substMir}

theorem substMirFnDef (inst : Instance) (did : DefId) (args : List Ty) :
    inst.substMir (.fnDef did args) = .fnDef did (args.map inst.substMir) := by
  by_cases plain : inst.kind = .shim false
  · have same : inst.substMir = id := funext (fun ty => if_pos plain)
    rw [same, List.map_id, id]
  · have same : inst.substMir = Ty.instantiate inst.args := funext (fun ty => if_neg plain)
    rw [same, Ty.instantiate, Ty.instantiateListMap]

theorem substInstanceFixed {inst : Instance} {did : DefId} {args : List Ty}
    (fixed : inst.substMir (.fnDef did args) = .fnDef did args) (kind : InstanceKind) :
    inst.substInstance ⟨kind, did, args⟩ = ⟨kind, did, args⟩ := by
  rw [substMirFnDef] at fixed
  have same : args.map inst.substMir = args := (Ty.fnDef.inj fixed).2
  rw [substInstance, same]

end Instance

structure PlaceTy where
  ty : Ty
  variantIndex : Option Nat
  deriving DecidableEq, Repr

def PlaceTy.fromTy (ty : Ty) : PlaceTy := ⟨ty, none⟩

end Scrutinizer
