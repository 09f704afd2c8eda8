import ClassTemplates.Body.Basic
import ClassTemplates.Insn.Encoding

/-!
# From bodies to code

Laying a body out runs over the instructions twice: first to find the offset of each label, then to
make the bytes. Handlers and attributes get the new offsets of their labels.

## Main definitions

- `Layout.offsets`, `Layout.length` — the first pass
- `Layout.bytes` — the second pass
- `Body.toCode` — the code of a body
-/

namespace ClassTemplates

namespace Layout

/-- The offset of each label among instructions that start at `offset`, added to `found`, and the
offset behind them. A label that is placed twice has its last place. -/
def offsetsOnto (found : Std.HashMap Label Nat) (offset : Nat) :
    List Insn → Std.HashMap Label Nat × Nat
  | [] => (found, offset)
  | insn :: rest =>
    offsetsOnto (match insn.placed? with
      | some l => found.insert l offset
      | none => found) (offset + insn.length offset) rest

/-- The offset of each label. -/
def offsets (insns : List Insn) : Std.HashMap Label Nat :=
  (offsetsOnto ∅ 0 insns).1

/-- The number of bytes of all instructions. -/
def length (insns : List Insn) : Nat :=
  (offsetsOnto ∅ 0 insns).2

/-- The offset of a label, or a complaint about one that is placed nowhere. -/
def resolve (found : Std.HashMap Label Nat) (l : Label) : Except LayoutError Nat :=
  match found[l]? with
  | some offset => .ok offset
  | none => .error (.unboundLabel l.id)

/-- The bytes of instructions behind those in `done`. -/
def bytesOnto (place : Label → Except LayoutError Nat) (done : Array UInt8) :
    List Insn → Except LayoutError (Array UInt8)
  | [] => .ok done
  | insn :: rest =>
    match insn.encode place done.size with
    | .error e => .error e
    | .ok bytes => bytesOnto place (done ++ bytes) rest

/-- The bytes of instructions. -/
def bytes (place : Label → Except LayoutError Nat) (insns : List Insn) :
    Except LayoutError Bytes :=
  match bytesOnto place #[] insns with
  | .error e => .error e
  | .ok done => .ok done.toList

/-- The largest number of bytes a method may have. -/
def maxLength : Nat := 65535

section

variable (place : Label → Except LayoutError Nat)

/-- The place of a label as a word. -/
def word (l : Label) : Except LayoutError UInt16 := do
  let offset ← place l
  pure (UInt16.ofNat offset)

/-- The handler between offsets. -/
def handler (h : Handler Label) : Except LayoutError (Handler UInt16) := do
  let start ← word place h.start
  let stop ← word place h.stop
  let target ← word place h.target
  pure ⟨start, stop, target, h.caught⟩

/-- The line entry at an offset. -/
def line (e : LineEntry Label) : Except LayoutError (LineEntry UInt16) := do
  let start ← word place e.start
  pure ⟨start, e.line⟩

/-- The range of a local variable as its start and its length, which wraps for a reversed range. -/
def range (r : LocalRange) : Except LayoutError LocalEntry := do
  let start ← word place r.start
  let stop ← word place r.stop
  pure ⟨start, stop - start, r.name, r.descriptor, r.index⟩

/-- The type with the new offset of its allocation. -/
def type : VerificationType → Except LayoutError VerificationType
  | .uninitialized offset => do
    let offset ← word place ⟨offset.toNat⟩
    pure (.uninitialized offset)
  | t => pure t

/-- The frame with its new distance and the new offsets of its allocations. -/
def frame (f : Frame) (delta : UInt16) : Except LayoutError Frame := do
  let shape ← f.shape.mapTypesM (type place)
  pure ⟨delta, shape⟩

/-- The frames of a stack map with their new distances. -/
def frames (fs : List (Label × Frame)) : Except LayoutError (List Frame) := do
  let offsets ← fs.mapM fun (l, _) => place l
  match Frame.deltas? offsets with
  | none => .error (.frameOrder (offsets.getLast?.getD 0))
  | some deltas => (fs.zip deltas).mapM fun ((_, f), delta) => frame place f delta

/-- The attribute of code that an attribute of a body stands for. -/
def bodyAttribute : BodyAttribute → Except LayoutError Attribute
  | .lineNumbers name entries => do
    let entries ← entries.mapM (line place)
    pure ⟨name, .lineNumbers entries⟩
  | .localVariables name ranges => do
    let entries ← ranges.mapM (range place)
    pure ⟨name, .localVariables entries⟩
  | .localVariableTypes name ranges => do
    let entries ← ranges.mapM (range place)
    pure ⟨name, .localVariableTypes entries⟩
  | .stackMap name fs => do
    let fs ← frames place fs
    pure ⟨name, .stackMap fs⟩
  | .carried content => pure content

end

end Layout

/-- The code of a body, declared to use `maxStack` stack slots. -/
def Body.toCode (b : Body) (maxStack : UInt16) : Except LayoutError Code := do
  let (found, length) := Layout.offsetsOnto ∅ 0 b.insns
  if length > Layout.maxLength then .error (.codeTooLarge length)
  else do
    let place := Layout.resolve found
    let bytes ← Layout.bytes place b.insns
    let handlers ← b.handlers.mapM (Layout.handler place)
    let attributes ← b.attributes.mapM (Layout.bodyAttribute place)
    pure ⟨maxStack, b.maxLocals, bytes, handlers, attributes⟩

end ClassTemplates
