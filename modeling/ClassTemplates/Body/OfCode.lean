import Std.Data.HashSet
import ClassTemplates.Body.Basic
import ClassTemplates.Insn.Decoding

/-!
# From code to bodies

Taking code apart gathers every offset that the code or one of its tables mentions. Each must be the
start of an instruction or the end of the code, and each becomes a label placed there.

## Main definitions

- `Code.references` — the offsets that are mentioned, in the order in which they are looked at
- `Body.ofCode` — the body of a code attribute
-/

namespace ClassTemplates

namespace VerificationType

/-- The offset of the allocation that an uninitialized type names. -/
def allocation? : VerificationType → Option Nat
  | uninitialized offset => some offset.toNat
  | _ => none

end VerificationType

/-- A label numbered by an offset. -/
def Label.ofWord (offset : UInt16) : Label :=
  ⟨offset.toNat⟩

namespace Code

/-- The offsets that a handler mentions. -/
def handlerReferences (h : Handler UInt16) : List Nat :=
  [h.start.toNat, h.stop.toNat, h.target.toNat]

/-- The offset behind the range of a local variable. -/
def localStop (e : LocalEntry) : Nat :=
  e.start.toNat + e.length.toNat

/-- The offsets that a table of local variables mentions. -/
def localReferences (entries : List LocalEntry) : List Nat :=
  entries.flatMap fun e => [e.start.toNat, localStop e]

/-- The offsets that a stack map mentions: for each frame its allocations, then its own. -/
def frameReferences (frames : List Frame) : List Nat :=
  (frames.zip (Frame.offsets frames)).flatMap fun (f, offset) =>
    f.types.filterMap VerificationType.allocation? ++ [offset]

/-- The offsets that an attribute of code mentions. -/
def attributeReferences (a : Attribute) : List Nat :=
  match a.content with
  | .lineNumbers entries => entries.map fun e => e.start.toNat
  | .localVariables entries => localReferences entries
  | .localVariableTypes entries => localReferences entries
  | .stackMap frames => frameReferences frames
  | _ => []

/-- All offsets that instructions, handlers and attributes of code mention, in this order. -/
def references (code : Code) (decoded : List (Nat × Insn)) : List Nat :=
  (decoded.flatMap fun (_, insn) => insn.targets.map (·.id))
    ++ code.handlers.flatMap handlerReferences ++ code.attributes.flatMap attributeReferences

end Code

namespace Body

/-- The handler between labels. -/
def handlerOfCode (h : Handler UInt16) : Handler Label :=
  ⟨.ofWord h.start, .ofWord h.stop, .ofWord h.target, h.caught⟩

/-- The range of a local variable between labels. -/
def rangeOfEntry (e : LocalEntry) : LocalRange :=
  ⟨.ofWord e.start, ⟨Code.localStop e⟩, e.name, e.descriptor, e.index⟩

/-- The attribute of a body that an attribute of code stands for. -/
def attributeOfCode (a : Attribute) : BodyAttribute :=
  match a.content with
  | .lineNumbers entries => .lineNumbers a.name (entries.map fun e => ⟨.ofWord e.start, e.line⟩)
  | .localVariables entries => .localVariables a.name (entries.map rangeOfEntry)
  | .localVariableTypes entries => .localVariableTypes a.name (entries.map rangeOfEntry)
  | .stackMap frames =>
    .stackMap a.name ((frames.zip (Frame.offsets frames)).map fun (f, offset) => (⟨offset⟩, f))
  | _ => .carried a

/-- The instructions with a label in front of each whose offset is used, and at the end if that is.
-/
def placeLabels (used : Nat → Bool) (decoded : List (Nat × Insn)) (stop : Nat) : List Insn :=
  (decoded.flatMap fun (offset, insn) =>
    if used offset then [.label ⟨offset⟩, insn] else [insn])
    ++ if used stop then [.label ⟨stop⟩] else []

/-- The body of a code attribute; fails at the first offset that is no place between instructions.
-/
def ofCode (code : Code) : Except FormatError Body := do
  let decoded ← Insn.decode code.bytes
  let stop := code.bytes.length
  let boundaries : Std.HashSet Nat := (Std.HashSet.ofList (decoded.map (·.1))).insert stop
  let references := code.references decoded
  match references.find? fun offset => !boundaries.contains offset with
  | some offset => .error (.badOffset offset)
  | none =>
    let used : Std.HashSet Nat := Std.HashSet.ofList references
    pure {
      maxStack := code.maxStack
      maxLocals := code.maxLocals
      insns := placeLabels used.contains decoded stop
      handlers := code.handlers.map handlerOfCode
      attributes := code.attributes.map attributeOfCode
      nextLabel := stop + 1 }

end Body

end ClassTemplates
