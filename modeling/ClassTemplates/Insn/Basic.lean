import ClassTemplates.Opcode

/-!
# Instructions

Branches name labels instead of offsets, so instructions can be added and replaced without touching
the branches around them. A label is placed by an instruction that takes no bytes.

## Main definitions

- `Label` — a name for a place in code
- `Insn` — an instruction, or the place of a label
- `Insn.opcode?`, `Insn.targets` — its opcode and the labels it may branch to
-/

namespace ClassTemplates

/-- A name for a place in code. Labels made from code are numbered by the offset they stand for. -/
structure Label where
  id : Nat
  deriving DecidableEq, Hashable, Repr

/-- An instruction, or the place of a label. Instructions of one form share a constructor that keeps
the opcode. -/
inductive Insn
  /-- The place of a label. -/
  | label (l : Label)
  /-- An instruction without operands. -/
  | op (opcode : UInt8)
  | bipush (value : Int8)
  | sipush (value : Int16)
  /-- A load of a constant of one slot, in the form that fits its index. -/
  | ldc (index : UInt16)
  /-- A load of a constant of two slots. -/
  | ldc2 (index : UInt16)
  /-- A load or store of a local variable, or a return from a subroutine. -/
  | localVar (opcode : UInt8) (index : UInt16)
  | iinc (index : UInt16) (delta : Int16)
  | jump (opcode : UInt8) (target : Label)
  | tableSwitch (otherwise : Label) (low high : Int32) (targets : List Label)
  | lookupSwitch (otherwise : Label) (pairs : List (Int32 × Label))
  | field (opcode : UInt8) (index : UInt16)
  | invoke (opcode : UInt8) (index : UInt16)
  | invokeInterface (index : UInt16) (count : UInt8)
  | invokeDynamic (index : UInt16)
  /-- An allocation, a cast or a type test. -/
  | type (opcode : UInt8) (index : UInt16)
  | newArray (primitive : UInt8)
  | multiNewArray (index : UInt16) (dimensions : UInt8)
  deriving DecidableEq, Repr

namespace Insn

/-- The index is small enough for one byte. -/
def fitsByte (index : UInt16) : Bool :=
  index ≤ 0xff

/-- The step of a local variable fits the short form. -/
def fitsSignedByte (delta : Int16) : Bool :=
  -128 ≤ delta.toInt && delta.toInt ≤ 127

/-- The opcode of an instruction; the place of a label has none. -/
def opcode? : Insn → Option UInt8
  | label _ => none
  | op opcode => some opcode
  | bipush _ => some Opcode.bipush
  | sipush _ => some Opcode.sipush
  | ldc index => some (if fitsByte index then Opcode.ldc else Opcode.ldcWide)
  | ldc2 _ => some Opcode.ldc2Wide
  | localVar opcode _ => some opcode
  | iinc _ _ => some Opcode.iinc
  | jump opcode _ => some opcode
  | tableSwitch .. => some Opcode.tableswitch
  | lookupSwitch .. => some Opcode.lookupswitch
  | field opcode _ => some opcode
  | invoke opcode _ => some opcode
  | invokeInterface _ _ => some Opcode.invokeinterface
  | invokeDynamic _ => some Opcode.invokedynamic
  | type opcode _ => some opcode
  | newArray _ => some Opcode.newarray
  | multiNewArray _ _ => some Opcode.multianewarray

/-- The labels an instruction may branch to, the default of a switch first. -/
def targets : Insn → List Label
  | jump _ target => [target]
  | tableSwitch otherwise _ _ targets => otherwise :: targets
  | lookupSwitch otherwise pairs => otherwise :: pairs.map (·.2)
  | _ => []

/-- The label that is placed, if the instruction places one. -/
def placed? : Insn → Option Label
  | label l => some l
  | _ => none

/-- The instruction only places a label. -/
def isLabel (i : Insn) : Bool :=
  i.placed?.isSome

end Insn

end ClassTemplates
