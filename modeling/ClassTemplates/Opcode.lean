/-!
# Opcodes

The numbers of the instructions that the library names, the classes of instructions that control
flow is judged by, and the shape of the operands behind each opcode.

## Main definitions

- `Opcode.isJump`, `isReturn`, `endsFlow` — classes of opcodes
- `Operands`, `Operands.ofOpcode` — what follows an opcode in a code array
-/

namespace ClassTemplates

namespace Opcode

/-- `op` lies between `low` and `high`, both included. -/
def within (low high op : UInt8) : Bool :=
  low ≤ op && op ≤ high

def bipush : UInt8 := 0x10
def sipush : UInt8 := 0x11
def ldc : UInt8 := 0x12
def ldcWide : UInt8 := 0x13
def ldc2Wide : UInt8 := 0x14
def dup : UInt8 := 0x59
def iinc : UInt8 := 0x84
def goto : UInt8 := 0xa7
def jsr : UInt8 := 0xa8
def ret : UInt8 := 0xa9
def tableswitch : UInt8 := 0xaa
def lookupswitch : UInt8 := 0xab
def ireturn : UInt8 := 0xac
def lreturn : UInt8 := 0xad
def freturn : UInt8 := 0xae
def dreturn : UInt8 := 0xaf
def areturn : UInt8 := 0xb0
/-- The return of a method without a result. -/
def voidReturn : UInt8 := 0xb1
def getstatic : UInt8 := 0xb2
def putstatic : UInt8 := 0xb3
def getfield : UInt8 := 0xb4
def invokevirtual : UInt8 := 0xb6
def invokespecial : UInt8 := 0xb7
def invokestatic : UInt8 := 0xb8
def invokeinterface : UInt8 := 0xb9
def invokedynamic : UInt8 := 0xba
/-- Allocation of an object. -/
def newObject : UInt8 := 0xbb
def newarray : UInt8 := 0xbc
def anewarray : UInt8 := 0xbd
def athrow : UInt8 := 0xbf
def checkcast : UInt8 := 0xc0
def instanceof : UInt8 := 0xc1
def wide : UInt8 := 0xc4
def multianewarray : UInt8 := 0xc5
def ifnull : UInt8 := 0xc6
def ifnonnull : UInt8 := 0xc7
def gotoWide : UInt8 := 0xc8
def jsrWide : UInt8 := 0xc9

/-- The branches with a two-byte offset. -/
def isShortJump (op : UInt8) : Bool :=
  within 0x99 jsr op || op == ifnull || op == ifnonnull

/-- The branches with a four-byte offset. -/
def isWideJump (op : UInt8) : Bool :=
  op == gotoWide || op == jsrWide

/-- The conditional and unconditional branches with one target. -/
def isJump (op : UInt8) : Bool :=
  isShortJump op || isWideJump op

/-- The returns from a method. -/
def isReturn (op : UInt8) : Bool :=
  within ireturn voidReturn op

/-- The opcodes behind which control never goes on to the next instruction. -/
def endsFlow (op : UInt8) : Bool :=
  isReturn op || op == athrow || op == goto || op == gotoWide || op == ret || op == tableswitch
    || op == lookupswitch

/-- The loads, stores and `ret` that name a local variable. -/
def namesLocal (op : UInt8) : Bool :=
  within 0x15 0x19 op || within 0x36 0x3a op || op == ret

end Opcode

/-- What follows an opcode in a code array. -/
inductive Operands
  /-- Nothing. -/
  | none
  /-- One signed byte. -/
  | signedByte
  /-- One signed word. -/
  | signedWord
  /-- A constant index of one byte. -/
  | shortConstant
  /-- A constant index of two bytes, for a constant of one slot. -/
  | wideConstant
  /-- A constant index of two bytes, for a constant of two slots. -/
  | doubleConstant
  /-- A local variable index of one byte. -/
  | localIndex
  /-- A local variable index and a signed byte. -/
  | increment
  /-- A two-byte branch offset. -/
  | shortBranch
  /-- A four-byte branch offset. -/
  | wideBranch
  /-- A table of branch offsets. -/
  | tableSwitch
  /-- A list of keys and branch offsets. -/
  | lookupSwitch
  /-- The index of a field reference. -/
  | field
  /-- The index of a method reference. -/
  | method
  /-- The index of a method reference, a count of slots and a zero byte. -/
  | interfaceMethod
  /-- The index of a call site and two zero bytes. -/
  | dynamicCall
  /-- The index of a class. -/
  | type
  /-- The code of a primitive type. -/
  | primitive
  /-- The widened form of another instruction. -/
  | widened
  /-- The index of a class and a number of dimensions. -/
  | dimensions
  deriving DecidableEq, Repr

open Opcode in
/-- The operands of each opcode; the opcodes without a meaning have none. -/
def Operands.ofOpcode (op : UInt8) : Option Operands :=
  if op ≤ 0x0f then some .none
  else if op == bipush then some .signedByte
  else if op == sipush then some .signedWord
  else if op == ldc then some .shortConstant
  else if op == ldcWide then some .wideConstant
  else if op == ldc2Wide then some .doubleConstant
  else if namesLocal op then some .localIndex
  else if op == iinc then some .increment
  else if op ≤ 0x98 then some .none
  else if isShortJump op then some .shortBranch
  else if isWideJump op then some .wideBranch
  else if op == tableswitch then some .tableSwitch
  else if op == lookupswitch then some .lookupSwitch
  else if op ≤ voidReturn then some .none
  else if op ≤ 0xb5 then some .field
  else if op ≤ invokestatic then some .method
  else if op == invokeinterface then some .interfaceMethod
  else if op == invokedynamic then some .dynamicCall
  else if op == newarray then some .primitive
  else if op == newObject || op == anewarray || op == checkcast || op == instanceof then some .type
  else if op ≤ 0xc3 then some .none
  else if op == wide then some .widened
  else if op == multianewarray then some .dimensions
  else Option.none

end ClassTemplates
