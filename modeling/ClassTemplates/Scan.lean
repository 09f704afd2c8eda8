import ClassTemplates.ClassFile.Binary
import ClassTemplates.Expansion.Class
import ClassTemplates.Insn.Decoding
import ClassTemplates.Verify.Class

/-!
# Listing tokens

Where a class holds texts with tokens: in the constants of fields, in the loads of methods, and
among the arguments of bootstrap methods.

## Main definitions

- `Finding` — a text with tokens, and where it is
- `ClassFile.findings` — all of them, in the order of fields, methods and bootstrap arguments
- `Scan.ofBytes` — the name of a class and its findings, from bytes
-/

namespace ClassTemplates

/-- A text with tokens, and where it is. -/
structure Finding where
  member : String
  /-- The offset of the load, for a text in code. -/
  offset : Option Nat
  text : String
  deriving DecidableEq, Repr

namespace Finding

/-- The tokens of the text, left to right. -/
def tokens (f : Finding) : List String :=
  (Token.findAll f.text).map (·.raw)

/-- What an index stands for, if it is a text with tokens. -/
def textAt? (pool : Pool) (index : UInt16) : Option String :=
  (pool.stringValue? index).filter Token.occursIn

/-- The text in the constant of a field. -/
def ofField? (pool : Pool) (field : Member) : Option Finding := do
  let text ← textAt? pool (← field.constantIndex?)
  let name := (pool.utf8? field.name).getD "?"
  let descriptor := (pool.utf8? field.descriptor).getD "?"
  pure ⟨name ++ ":" ++ descriptor, none, text⟩

/-- The text that an instruction of a method loads. -/
def ofInsn? (pool : Pool) (m : Member) (offset : Nat) : Insn → Option Finding
  | .ldc index => do
    let text ← textAt? pool index
    pure ⟨pool.signature m, some offset, text⟩
  | _ => none

/-- The texts that a method loads, in order. -/
def ofMethod (pool : Pool) (m : Member) : Except FormatError (List Finding) :=
  match m.code? with
  | none => .ok []
  | some code => do
    let insns ← Insn.decode code.bytes
    pure (insns.filterMap fun (offset, insn) => ofInsn? pool m offset insn)

/-- The name that stands for the arguments of bootstrap methods. -/
def bootstrapMember : String := "BootstrapMethods"

/-- The text of an argument of a bootstrap method. -/
def ofArgument? (pool : Pool) (index : UInt16) : Option Finding := do
  let text ← textAt? pool index
  pure ⟨bootstrapMember, none, text⟩

end Finding

namespace ClassFile

/-- The indices of the arguments of bootstrap methods, each once and in increasing order; none if
the attribute that lists the methods cannot be read. -/
def bootstrapIndices (cls : ClassFile) : List UInt16 :=
  match cls.bootstrapArguments with
  | .ok indices => (indices.mergeSort (· ≤ ·)).eraseReps
  | .error _ => []

/-- Every text with tokens in a class. -/
def findings (cls : ClassFile) : Except FormatError (List Finding) :=
  if cls.pool.hasToken then do
    let fields := cls.fields.filterMap (Finding.ofField? cls.pool)
    let methods ← cls.methods.mapM (Finding.ofMethod cls.pool)
    let arguments := cls.bootstrapIndices.filterMap (Finding.ofArgument? cls.pool)
    pure (fields ++ methods.flatten ++ arguments)
  else .ok []

end ClassFile

namespace Scan

/-- The name of the class that bytes spell, and its texts with tokens. -/
def ofBytes (bytes : Bytes) : Except FormatError (String × List Finding) := do
  let cls ← ClassFile.ofBytes bytes
  let findings ← cls.findings
  pure (cls.name?.getD ExpansionError.unknownName, findings)

end Scan

end ClassTemplates
