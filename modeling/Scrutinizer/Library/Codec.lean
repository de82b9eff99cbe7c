import Mathlib.Algebra.Ring.Nat
import Mathlib.Data.List.Basic

/-! Readers and writers of bytes. A value round-trips when the reader recovers it from the bytes of
the writer and leaves what follows them, so the fields of a record can be read one after another. -/
namespace Wire

abbrev Bytes := List UInt8

structure Codec (α : Type*) where
  encode : α → Bytes
  decode : Bytes → Option (α × Bytes)

namespace Codec
variable {α β : Type*}

def RoundTrips (codec : Codec α) (value : α) : Prop :=
  ∀ rest, codec.decode (codec.encode value ++ rest) = some (value, rest)

def through (codec : Codec β) (into : α → β) (back : β → α) : Codec α where
  encode := fun value => codec.encode (into value)
  decode := fun input => (codec.decode input).map fun (value, rest) => (back value, rest)

theorem throughRoundTrips {codec : Codec β} {into : α → β} {back : β → α} {value : α}
    (trips : codec.RoundTrips (into value)) (recovered : back (into value) = value) :
    (codec.through into back).RoundTrips value := by
  intro rest
  simp only [through,trips rest,Option.map_some,recovered]

def ofTable [DecidableEq α] (table : List (α × Bytes)) : Codec α where
  encode := fun value => (table.lookup value).getD []
  decode := fun input => table.findSome? fun (value, bytes) =>
    if bytes <+: input then some (value, input.drop bytes.length) else none

end Codec

/- Seven bits a byte, the low ones first; the eighth bit says that more follow. -/
def encodeLeb128 (n : Nat) : Bytes :=
  if n < 128 then [UInt8.ofNat n] else UInt8.ofNat (n % 128 + 128) :: encodeLeb128 (n / 128)

def decodeLeb128 : Bytes → Option (Nat × Bytes)
  | [] => none
  | byte :: rest =>
    if byte.toNat < 128 then some (byte.toNat, rest) else do
      let (high, rest) ← decodeLeb128 rest
      some (byte.toNat - 128 + 128 * high, rest)

def leb128 : Codec Nat := ⟨encodeLeb128, decodeLeb128⟩

theorem leb128RoundTrips (n : Nat) : leb128.RoundTrips n := by
  intro rest
  show decodeLeb128 (encodeLeb128 n ++ rest) = some (n, rest)
  induction n using encodeLeb128.induct with
  | case1 n small =>
    have byte : (UInt8.ofNat n).toNat = n := UInt8.toNat_ofNat_of_lt' (Nat.lt_trans small (by decide))
    rw [encodeLeb128,if_pos small]
    simp [decodeLeb128,byte,small]
  | case2 n large ih =>
    have byte : (UInt8.ofNat (n % 128 + 128)).toNat = n % 128 + 128 :=
      UInt8.toNat_ofNat_of_lt' (Nat.add_lt_add_right (Nat.mod_lt n (by decide)) 128)
    rw [encodeLeb128,if_neg large]
    simp only [List.cons_append,decodeLeb128,byte]
    rw [if_neg (by omega),ih]
    simp only [Option.bind_eq_bind,Option.bind_some,Option.some.injEq,Prod.mk.injEq,and_true]
    omega

def encodeLittle : Nat → Nat → Bytes
  | 0,_ => []
  | width + 1,n => UInt8.ofNat (n % 256) :: encodeLittle width (n / 256)

def decodeLittle : Nat → Bytes → Option (Nat × Bytes)
  | 0,input => some (0, input)
  | _ + 1,[] => none
  | width + 1,byte :: input => do
    let (high, rest) ← decodeLittle width input
    some (byte.toNat + 256 * high, rest)

def little (width : Nat) : Codec Nat := ⟨encodeLittle width, decodeLittle width⟩

theorem littleRoundTrips {width n : Nat} (fits : n < 256 ^ width) : (little width).RoundTrips n := by
  intro rest
  show decodeLittle width (encodeLittle width n ++ rest) = some (n, rest)
  induction width generalizing n with
  | zero =>
    have zero : n = 0 := Nat.lt_one_iff.mp fits
    rw [zero]
    rfl
  | succ width ih =>
    have byte : (UInt8.ofNat (n % 256)).toNat = n % 256 :=
      UInt8.toNat_ofNat_of_lt' (Nat.mod_lt n (by decide))
    have high : n / 256 < 256 ^ width := by
      rw [Nat.div_lt_iff_lt_mul (by decide),← Nat.pow_succ]
      exact fits
    simp only [encodeLittle,List.cons_append,decodeLittle,ih high,byte]
    simp only [Option.bind_eq_bind,Option.bind_some,Option.some.injEq,Prod.mk.injEq,and_true]
    omega

end Wire
