import SexprAsm.Decimal.Binary

/-!
# Values

A value is the literal carried by a tree node and the initial content of a heap slot. Integers and
floating-point numbers are held as bit patterns of their width, so two values are equal exactly
when they have the same kind and the same bits: a NaN equals itself, and the two zeros differ.
-/

namespace SexprAsm

open Decimal

/-- The integer kinds. -/
inductive IntKind where
  | int8
  | uint8
  | int16
  | uint16
  | int32
  | uint32
  | int64
  | uint64
  deriving DecidableEq, Repr

namespace IntKind

/-- The number of bits. -/
def width : IntKind → Nat
  | int8 | uint8 => 8
  | int16 | uint16 => 16
  | int32 | uint32 => 32
  | int64 | uint64 => 64

/-- The top bit counts as a sign. -/
def signed : IntKind → Bool
  | int8 | int16 | int32 | int64 => true
  | uint8 | uint16 | uint32 | uint64 => false

/-- The name of the host type. -/
def typeName : IntKind → String
  | int8 => "SystemSByte"
  | uint8 => "SystemByte"
  | int16 => "SystemInt16"
  | uint16 => "SystemUInt16"
  | int32 => "SystemInt32"
  | uint32 => "SystemUInt32"
  | int64 => "SystemInt64"
  | uint64 => "SystemUInt64"

/-- The letters written after a number of this kind. -/
def suffix : IntKind → String
  | int8 => "sb"
  | uint8 => "b"
  | int16 => "s"
  | uint16 => "us"
  | int32 => ""
  | uint32 => "u"
  | int64 => "l"
  | uint64 => "ul"

/-- The least integer of the kind. -/
def least (k : IntKind) : Int := if k.signed then -(Nat.pow 2 (k.width - 1)) else 0

/-- The greatest integer of the kind. -/
def greatest (k : IntKind) : Int :=
  if k.signed then Nat.pow 2 (k.width - 1) - 1 else Nat.pow 2 k.width - 1

/-- The integer that a bit pattern stands for. -/
def toInt (k : IntKind) (bits : BitVec k.width) : Int :=
  if k.signed then bits.toInt else bits.toNat

/-- The bit pattern of an integer of the kind. -/
def ofInt? (k : IntKind) (n : Int) : Option (BitVec k.width) :=
  if k.least ≤ n ∧ n ≤ k.greatest then some (BitVec.ofInt k.width n) else none

/-- The bit pattern that spells a number directly. -/
def ofPattern? (k : IntKind) (n : Nat) : Option (BitVec k.width) :=
  if n < Nat.pow 2 k.width then some (BitVec.ofNat k.width n) else none

end IntKind

/-- The floating-point kinds. -/
inductive FloatKind where
  | single
  | double
  deriving DecidableEq, Repr

namespace FloatKind

/-- The layout of the bit pattern. -/
def format : FloatKind → BinaryFormat
  | single => .single
  | double => .double

/-- The number of bits. -/
def width : FloatKind → Nat
  | single => 32
  | double => 64

/-- The name of the host type. -/
def typeName : FloatKind → String
  | single => "SystemSingle"
  | double => "SystemDouble"

/-- The letters written after a number of this kind. -/
def suffix : FloatKind → String
  | single => "f"
  | double => ""

end FloatKind

/-- A literal. -/
inductive Value where
  | null
  | bool (b : Bool)
  | int (kind : IntKind) (bits : BitVec kind.width)
  | float (kind : FloatKind) (bits : BitVec kind.width)
  | string (text : String)
  /-- A host type, by its host name. -/
  | typeName (name : String)
  deriving DecidableEq, Repr

namespace Value

instance : Inhabited Value := ⟨null⟩

/-- A 32-bit integer, wrapped to its range. -/
def int32 (n : Int) : Value := .int .int32 (BitVec.ofInt 32 n)

/-- A 32-bit word. -/
def uint32 (n : UInt32) : Value := .int .uint32 n.toBitVec

/-- A floating-point number of the given sign and magnitude bits. -/
def ofMagnitude (k : FloatKind) (negative : Bool) (magnitude : Nat) : Value :=
  .float k (BitVec.ofNat k.width (k.format.withSign negative magnitude))

/-- The host name of the type a literal has; the null literal fits any object. -/
def hostType : Value → String
  | null => "SystemObject"
  | bool _ => "SystemBoolean"
  | int k _ => k.typeName
  | float k _ => k.typeName
  | string _ => "SystemString"
  | typeName _ => "SystemType"

/-- The value is the null literal. -/
def isNull : Value → Bool
  | null => true
  | _ => false

/-- The characters of a text literal. -/
def text? : Value → Option String
  | string text => some text
  | _ => none

/-- An integer literal as an absolute code address. -/
def address? : Value → Option UInt32
  | int k bits =>
    let n := k.toInt bits
    if 0 ≤ n ∧ n < UInt32.size then some (UInt32.ofNat n.toNat) else none
  | _ => none

/-- Zero of the primitive type with the given host name. -/
def zeroOf? : String → Option Value
  | "SystemBoolean" => some (.bool false)
  | "SystemSByte" => some (.int .int8 0)
  | "SystemByte" => some (.int .uint8 0)
  | "SystemInt16" => some (.int .int16 0)
  | "SystemUInt16" => some (.int .uint16 0)
  | "SystemInt32" => some (.int .int32 0)
  | "SystemUInt32" => some (.int .uint32 0)
  | "SystemInt64" => some (.int .int64 0)
  | "SystemUInt64" => some (.int .uint64 0)
  | "SystemSingle" => some (.float .single 0)
  | "SystemDouble" => some (.float .double 0)
  | _ => none

end Value

end SexprAsm
