import ClassTemplates.Text.Hex

/-!
# Faults of the binary format

Why a constant cannot be added to a pool, why bytes are not a class file, and why an edited body
cannot be laid out. Each cause has one message.

## Main definitions

- `PoolError`, `FormatError`, `LayoutError` — the causes
- `message` of each — its wording
-/

namespace ClassTemplates

/-- Why a constant cannot be added to a pool. -/
inductive PoolError
  /-- The constant does not fit below the largest index a class file can name. -/
  | outOfSpace
  deriving DecidableEq, Repr

/-- The wording of a pool error. -/
def PoolError.message : PoolError → String
  | .outOfSpace => "Constant pool is out of space"

/-- Why bytes are not a class file, or not the code of a method. -/
inductive FormatError
  /-- The file starts with another number than a class file does. -/
  | badMagic (found : UInt32)
  /-- The bytes end inside the item that starts at `position`. -/
  | truncated (position : Nat)
  /-- No kind of constant has this tag. -/
  | badConstantTag (tag : UInt8) (index : Nat)
  /-- The content of an attribute ends before its declared length. -/
  | attributeLength (name : String) (declared : UInt32) (actual : Nat)
  /-- Bytes follow the end of the class. -/
  | trailingBytes (count : Nat)
  /-- No instruction has this opcode, or its operands contradict each other. -/
  | badOpcode (opcode : UInt8) (offset : Nat)
  /-- An offset names no instruction. -/
  | badOffset (offset : Nat)
  /-- No stack-map frame has this tag. -/
  | badFrameType (tag : UInt8)
  /-- No verification type has this tag. -/
  | badVerificationType (tag : UInt8)
  /-- The pool of the file holds more constants than can be numbered. -/
  | pool (cause : PoolError)
  deriving DecidableEq, Repr

/-- The wording of a format error. -/
def FormatError.message : FormatError → String
  | .badMagic found => s!"Bad magic number: 0x{Hex.padded 8 found.toNat}"
  | .truncated position => s!"Unexpected end of class data at byte {position}"
  | .badConstantTag tag index => s!"Unknown constant pool tag {tag} at index {index}"
  | .attributeLength name declared actual =>
    "Attribute '" ++ name ++ "' length " ++ toString declared ++ " does not match its content ("
      ++ toString actual ++ ")"
  | .trailingBytes count => s!"Trailing bytes after class data: {count}"
  | .badOpcode opcode offset => s!"Unknown opcode 0x{Hex.padded 2 opcode.toNat} at offset {offset}"
  | .badOffset offset => s!"Offset {offset} is not on an instruction boundary"
  | .badFrameType tag => s!"Invalid stack map frame type {tag}"
  | .badVerificationType tag => s!"Invalid verification type tag {tag}"
  | .pool cause => s!"Constant pool error: {cause.message}"

/-- Why an edited method body has no byte form. -/
inductive LayoutError
  /-- A short branch cannot span the distance to its target. -/
  | branchTooFar (source target : Nat)
  /-- The code is longer than a method may be. -/
  | codeTooLarge (length : Nat)
  /-- A label that is used is placed nowhere. -/
  | unboundLabel (label : Nat)
  /-- The frames of a stack map do not follow each other; `offset` is that of the last one. -/
  | frameOrder (offset : Nat)
  deriving DecidableEq, Repr

/-- The wording of a layout error. -/
def LayoutError.message : LayoutError → String
  | .branchTooFar source target =>
    s!"Branch at offset {source} cannot reach {target}: 16-bit offset overflow"
  | .codeTooLarge length => s!"Code length {length} exceeds 65535 bytes"
  | .unboundLabel label => s!"Label {label} is not bound to a position"
  | .frameOrder offset => s!"Stack map frames are not in increasing offset order at {offset}"

end ClassTemplates
