import ClassTemplates.Attribute.Binary
import ClassTemplates.Body.OfCode
import ClassTemplates.ClassFile.Basic
import ClassTemplates.Depth.Analysis

/-!
# Well-formed methods

A method has a name and a descriptor, and code exactly if it is neither abstract nor native. Its
code can be taken apart, returns by the instruction that belongs to its result type, and keeps to
the declared depth of the stack.

## Main definitions

- `MethodFault` — what is wrong with a method
- `ReturnKind` — the returns, by result type
- `ClassFile.checkMethod`, `checkMethods` — the checks
-/

namespace ClassTemplates

/-- What is wrong with a method. -/
inductive MethodFault
  /-- The name or the descriptor has an index that nothing has. -/
  | danglingIndex (index : UInt16)
  /-- The name or the descriptor is no text. -/
  | wrongKind (index : UInt16)
  | missingCode
  | forbiddenCode
  /-- Two attributes of the same name are present. -/
  | duplicateAttribute (name : String)
  | invalidDescriptor (descriptor : String)
  /-- A return does not belong to the result type. -/
  | returnMismatch (expected found : String)
  | format (cause : FormatError)
  | depth (cause : DepthError)
  deriving DecidableEq, Repr

/-- The wording of a method fault. -/
def MethodFault.message : MethodFault → String
  | danglingIndex index => s!"Invalid constant pool index {index}"
  | wrongKind index => s!"Invalid constant pool index type {index}"
  | missingCode => "Method must have Code attribute unless abstract or native"
  | forbiddenCode => "Abstract or native method must not have Code attribute"
  | duplicateAttribute name => s!"Duplicate method attribute: {name}"
  | invalidDescriptor descriptor => s!"Invalid method descriptor: {descriptor}"
  | returnMismatch expected found =>
    s!"Return opcode does not match descriptor: expected {expected}, found {found}"
  | format cause => s!"Undecodable code: {cause.message}"
  | depth cause => s!"Stack: {cause.message}"

/-- The kinds of returns. -/
inductive ReturnKind
  | void | int | long | float | double | reference
  deriving DecidableEq, Repr

namespace ReturnKind

/-- The opcode of a return. -/
def opcode : ReturnKind → UInt8
  | void => Opcode.voidReturn
  | int => Opcode.ireturn
  | long => Opcode.lreturn
  | float => Opcode.freturn
  | double => Opcode.dreturn
  | reference => Opcode.areturn

/-- The mnemonic of a return. -/
def mnemonic : ReturnKind → String
  | void => "return"
  | int => "ireturn"
  | long => "lreturn"
  | float => "freturn"
  | double => "dreturn"
  | reference => "areturn"

/-- The return for a result type that starts with the given character. -/
def ofFirst? (c : Char) : Option ReturnKind :=
  if c == 'V' then some void
  else if c == 'Z' || c == 'B' || c == 'C' || c == 'S' || c == 'I' then some int
  else if c == 'J' then some long
  else if c == 'F' then some float
  else if c == 'D' then some double
  else if c == 'L' || c == '[' then some reference
  else none

/-- The return for the result type of a method descriptor. -/
def ofDescriptor? (descriptor : String) : Option ReturnKind := do
  let result ← Descriptor.resultType descriptor
  let first ← result.toList.head?
  ofFirst? first

/-- The mnemonic of the return with an opcode. -/
def mnemonicOf (op : UInt8) : String :=
  match [int, long, float, double, reference].find? (·.opcode == op) with
  | some kind => kind.mnemonic
  | none => void.mnemonic

end ReturnKind

/-- The opcode of an instruction that returns from its method. -/
def Insn.returns? : Insn → Option UInt8
  | .op opcode => if Opcode.isReturn opcode then some opcode else none
  | _ => none

namespace ClassFile

/-- An index must name a text. -/
def checkText (cls : ClassFile) (index : UInt16) : Except MethodFault Unit :=
  match cls.pool.get? index with
  | some (.utf8 _) => .ok ()
  | none => .error (.danglingIndex index)
  | some _ => .error (.wrongKind index)

/-- Every return of a body must belong to the result type. -/
def checkReturns (insns : List Insn) (descriptor : String) : Except MethodFault Unit :=
  match ReturnKind.ofDescriptor? descriptor with
  | none => .error (.invalidDescriptor descriptor)
  | some expected =>
    match (insns.filterMap Insn.returns?).find? (· != expected.opcode) with
    | some found => .error (.returnMismatch expected.mnemonic (ReturnKind.mnemonicOf found))
    | none => .ok ()

/-- The code of a method must be sound. -/
def checkCode (cls : ClassFile) (descriptor : String) (code : Code) : Except MethodFault Unit := do
  let body ← (Body.ofCode code).mapError .format
  checkReturns body.insns descriptor
  let _ ← (body.checkDepth cls.pool code.maxStack).mapError .depth
  pure ()

/-- A method must be well formed. -/
def checkMethod (cls : ClassFile) (m : Member) : Except MethodFault Unit := do
  cls.checkText m.name
  cls.checkText m.descriptor
  let descriptor ← match cls.pool.utf8? m.descriptor with
    | some descriptor => .ok descriptor
    | none => .error (.wrongKind m.descriptor)
  let bodiless := Access.has m.access Access.isAbstract || Access.has m.access Access.isNative
  match m.attributes.filterMap Attribute.code?, bodiless with
  | [], true => pure ()
  | [], false => .error .missingCode
  | [_], true => .error .forbiddenCode
  | [code], false => cls.checkCode descriptor code
  | _, _ => .error (.duplicateAttribute ContentKind.code.name)

/-- Every method of a class must be well formed. -/
def checkMethods (cls : ClassFile) : Except MethodFault Unit :=
  cls.methods.forM cls.checkMethod

end ClassFile

end ClassTemplates
