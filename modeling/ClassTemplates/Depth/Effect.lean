import ClassTemplates.Descriptor
import ClassTemplates.Insn.Basic
import ClassTemplates.Pool.Basic

/-!
# Stack effects

How many stack slots an instruction takes off and puts on. For calls and field accesses this follows
from the descriptor of the member, and for constants from their kind.

## Main definitions

- `Effect` — slots taken off and put on
- `Effect.ofOpcode` — the effect of an instruction without operands
- `Effect.ofInsn?` — the effect of an instruction, unless its constant does not resolve
-/

namespace ClassTemplates

/-- The slots that an instruction takes off the stack and then puts on it. -/
structure Effect where
  pops : UInt16
  pushes : UInt16
  deriving DecidableEq, Repr

namespace Effect

open Opcode (within)

/-- The effect of an operator on one-slot values at even distance from `first`, and on two-slot
values at odd distance: operators alternate `int`, `long`, `float`, `double`. -/
def alternating (first op : UInt8) (narrow wide : Effect) : Effect :=
  if (op - first) % 2 = 0 then narrow else wide

/-- The effect of a conversion between number types. -/
def ofConversion (op : UInt8) : Effect :=
  match op.toNat with
  | 0x85 | 0x87 | 0x8c | 0x8d => ⟨1, 2⟩
  | 0x86 | 0x8b => ⟨1, 1⟩
  | 0x88 | 0x89 | 0x8e | 0x90 => ⟨2, 1⟩
  | 0x8a | 0x8f => ⟨2, 2⟩
  | _ => ⟨1, 1⟩

/-- The effect of an instruction that rearranges the stack. -/
def ofShuffle (op : UInt8) : Effect :=
  match op.toNat with
  | 0x57 => ⟨1, 0⟩
  | 0x58 => ⟨2, 0⟩
  | 0x59 => ⟨1, 2⟩
  | 0x5a => ⟨2, 3⟩
  | 0x5b => ⟨3, 4⟩
  | 0x5c => ⟨2, 4⟩
  | 0x5d => ⟨3, 5⟩
  | 0x5e => ⟨4, 6⟩
  | _ => ⟨2, 2⟩

/-- The effect of an instruction without operands; an opcode without a meaning has none. -/
def ofOpcode (op : UInt8) : Effect :=
  if op = 0x00 then ⟨0, 0⟩
  else if within 0x01 0x08 op || within 0x0b 0x0d op then ⟨0, 1⟩
  else if within 0x09 0x0a op || within 0x0e 0x0f op then ⟨0, 2⟩
  else if within 0x1a 0x1d op || within 0x22 0x25 op || within 0x2a 0x2d op then ⟨0, 1⟩
  else if within 0x1e 0x21 op || within 0x26 0x29 op then ⟨0, 2⟩
  else if op = 0x2f || op = 0x31 then ⟨2, 2⟩
  else if within 0x2e 0x35 op then ⟨2, 1⟩
  else if within 0x3b 0x3e op || within 0x43 0x46 op || within 0x4b 0x4e op then ⟨1, 0⟩
  else if within 0x3f 0x42 op || within 0x47 0x4a op then ⟨2, 0⟩
  else if op = 0x50 || op = 0x52 then ⟨4, 0⟩
  else if within 0x4f 0x56 op then ⟨3, 0⟩
  else if within 0x57 0x5f op then ofShuffle op
  else if within 0x60 0x73 op then alternating 0x60 op ⟨2, 1⟩ ⟨4, 2⟩
  else if within 0x74 0x77 op then alternating 0x74 op ⟨1, 1⟩ ⟨2, 2⟩
  else if within 0x78 0x7d op then alternating 0x78 op ⟨2, 1⟩ ⟨3, 2⟩
  else if within 0x7e 0x83 op then alternating 0x7e op ⟨2, 1⟩ ⟨4, 2⟩
  else if within 0x85 0x93 op then ofConversion op
  else if op = 0x94 || op = 0x97 || op = 0x98 then ⟨4, 1⟩
  else if op = 0x95 || op = 0x96 then ⟨2, 1⟩
  else if op = Opcode.ireturn || op = Opcode.freturn || op = Opcode.areturn then ⟨1, 0⟩
  else if op = Opcode.lreturn || op = Opcode.dreturn then ⟨2, 0⟩
  else if op = 0xbe then ⟨1, 1⟩
  else if op = Opcode.athrow || op = 0xc2 || op = 0xc3 then ⟨1, 0⟩
  else ⟨0, 0⟩

/-- The effect of a load or store of a local variable. -/
def ofLocal (op : UInt8) : Effect :=
  match op.toNat with
  | 0x15 | 0x17 | 0x19 => ⟨0, 1⟩
  | 0x16 | 0x18 => ⟨0, 2⟩
  | 0x36 | 0x38 | 0x3a => ⟨1, 0⟩
  | 0x37 | 0x39 => ⟨2, 0⟩
  | _ => ⟨0, 0⟩

/-- The effect of a branch. -/
def ofJump (op : UInt8) : Effect :=
  if within 0x99 0x9e op || op = Opcode.ifnull || op = Opcode.ifnonnull then ⟨1, 0⟩
  else if within 0x9f 0xa6 op then ⟨2, 0⟩
  else if op = Opcode.jsr || op = Opcode.jsrWide then ⟨0, 1⟩
  else ⟨0, 0⟩

/-- The effect of an access to a field of `size` slots. -/
def ofField (op : UInt8) (size : UInt16) : Effect :=
  if op = Opcode.getstatic then ⟨0, size⟩
  else if op = Opcode.putstatic then ⟨size, 0⟩
  else if op = Opcode.getfield then ⟨1, size⟩
  else ⟨1 + size, 0⟩

/-- The slots of the parameters and the result of a referenced method. -/
def methodSlots? (pool : Pool) (index : UInt16) : Option (UInt16 × UInt16) := do
  let member ← pool.member? index
  Descriptor.methodSlots member.descriptor

/-- The slots of the arguments and the result of a call site. -/
def callSiteSlots? (pool : Pool) (index : UInt16) : Option (UInt16 × UInt16) :=
  match pool.get? index with
  | some (.invokeDynamic _ nameAndType) => do
    let (_, descriptor) ← pool.nameAndType? nameAndType
    Descriptor.methodSlots descriptor
  | _ => none

/-- The effect of a load of a constant. -/
def ofConstant? (pool : Pool) (index : UInt16) : Option Effect :=
  match pool.get? index with
  | some (.long _) | some (.double _) => some ⟨0, 2⟩
  | some .secondSlot | none => none
  | some _ => some ⟨0, 1⟩

/-- The effect of an instruction; `none` if the constant it names does not resolve. -/
def ofInsn? (pool : Pool) : Insn → Option Effect
  | .label _ | .iinc _ _ => some ⟨0, 0⟩
  | .op opcode => some (ofOpcode opcode)
  | .bipush _ | .sipush _ => some ⟨0, 1⟩
  | .ldc index => ofConstant? pool index
  | .ldc2 _ => some ⟨0, 2⟩
  | .localVar opcode _ => some (ofLocal opcode)
  | .jump opcode _ => some (ofJump opcode)
  | .tableSwitch .. | .lookupSwitch .. => some ⟨1, 0⟩
  | .field opcode index => do
    let member ← pool.member? index
    let size ← Descriptor.fieldSlots member.descriptor
    pure (ofField opcode size)
  | .invoke opcode index => do
    let (arguments, result) ← methodSlots? pool index
    pure ⟨if opcode = Opcode.invokestatic then arguments else arguments + 1, result⟩
  | .invokeInterface index _ => do
    let (arguments, result) ← methodSlots? pool index
    pure ⟨arguments + 1, result⟩
  | .invokeDynamic index => do
    let (arguments, result) ← callSiteSlots? pool index
    pure ⟨arguments, result⟩
  | .type opcode _ => some (if opcode = Opcode.newObject then ⟨0, 1⟩ else ⟨1, 1⟩)
  | .newArray _ => some ⟨1, 1⟩
  | .multiNewArray _ dimensions => some ⟨dimensions.toUInt16, 1⟩

/-- The depth behind an instruction that is reached at `depth`; it stays at the largest word. -/
def after (e : Effect) (depth : UInt16) : UInt16 :=
  UInt16.ofNat (min 65535 (depth.toNat - e.pops.toNat + e.pushes.toNat))

end Effect

/-- The constant index that an instruction names, zero if it names none. -/
def Insn.constantIndex : Insn → UInt16
  | .ldc index | .ldc2 index | .field _ index | .invoke _ index | .invokeInterface index _
  | .invokeDynamic index | .type _ index | .multiNewArray index _ => index
  | _ => 0

end ClassTemplates
