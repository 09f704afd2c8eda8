import ClassTemplates.ModifiedUtf8

/-!
# Constants

The entries of a constant pool. Floating-point constants are kept as their bits; two of them count
as the same constant when they are equal as numbers.

## Main definitions

- `Constant` — an entry of a pool
- `Constant.width` — the number of slots it takes
- `Constant.same` — the test by which an existing entry is reused
-/

namespace ClassTemplates

/-- An entry of a constant pool. Indices name other entries of the same pool. -/
inductive Constant
  /-- A text. -/
  | utf8 (text : String)
  /-- The bytes of a text entry that spell no text. -/
  | rawUtf8 (bytes : Bytes)
  | integer (value : Int32)
  | float (bits : UInt32)
  | long (value : Int64)
  | double (bits : UInt64)
  | «class» (name : UInt16)
  | string (text : UInt16)
  | fieldRef (owner nameAndType : UInt16)
  | methodRef (owner nameAndType : UInt16)
  | interfaceMethodRef (owner nameAndType : UInt16)
  | nameAndType (name descriptor : UInt16)
  | methodHandle (kind : UInt8) (reference : UInt16)
  | methodType (descriptor : UInt16)
  | dynamic (bootstrap nameAndType : UInt16)
  | invokeDynamic (bootstrap nameAndType : UInt16)
  | «module» (name : UInt16)
  | package (name : UInt16)
  /-- The second slot of a `long` or `double`. -/
  | secondSlot
  deriving DecidableEq, Repr

/-- The bits of a 32-bit float that is not a number. -/
def isNaN32 (bits : UInt32) : Bool :=
  bits &&& 0x7fffffff > 0x7f800000

/-- The bits of a 64-bit float that is not a number. -/
def isNaN64 (bits : UInt64) : Bool :=
  bits &&& 0x7fffffffffffffff > 0x7ff0000000000000

/-- Two 32-bit floats are equal as numbers: a NaN equals nothing, and both zeros are equal. -/
def sameFloat32 (a b : UInt32) : Bool :=
  !isNaN32 a && !isNaN32 b && (a == b || (a ||| b) &&& 0x7fffffff == 0)

/-- Two 64-bit floats are equal as numbers: a NaN equals nothing, and both zeros are equal. -/
def sameFloat64 (a b : UInt64) : Bool :=
  !isNaN64 a && !isNaN64 b && (a == b || (a ||| b) &&& 0x7fffffffffffffff == 0)

namespace Constant

/-- The number of pool slots a constant takes. -/
def width : Constant → Nat
  | long _ | double _ => 2
  | _ => 1

/-- Whether `b` may stand for `a`: equal contents, with floats compared as numbers. -/
def same : Constant → Constant → Bool
  | float a, float b => sameFloat32 a b
  | double a, double b => sameFloat64 a b
  | a, b => a == b

end Constant

end ClassTemplates
