import ClassTemplates.Insn.Encoding
import ClassTemplates.Reader

/-!
# Reading instructions

A code array is a sequence of instructions from its first byte to its last. Branch targets become
labels numbered by their offsets; whether an instruction starts there is not looked at.

## Main definitions

- `Insn.reader` — one instruction
- `Insn.decode` — the instructions of a code array with their offsets
-/

namespace ClassTemplates

namespace Insn

open Reader (byte word16 word32 take times fail)

/-- The label at a distance from `position`; there is none in front of the code, and none at an
offset that takes more than four bytes. -/
def branchTarget (position : Nat) (relative : Int32) : Reader Label :=
  let target := (position : Int) + relative.toInt
  if 0 ≤ target ∧ target < 4294967296 then pure ⟨target.toNat⟩ else fail (.badOffset position)

/-- A four-byte branch offset. -/
def wideTarget (position : Nat) : Reader Label := do
  let relative ← word32
  branchTarget position relative.toInt32

/-- Fails unless `size` more bytes are left. -/
def needs (size : Nat) : Reader Unit := do
  let left ← Reader.remaining
  if size ≤ left then pure ()
  else do
    let position ← Reader.position
    fail (.truncated position)

/-- One key of a switch with its target. -/
def keyedTarget (position : Nat) : Reader (Int32 × Label) := do
  let key ← word32
  let target ← wideTarget position
  pure (key.toInt32, target)

/-- The operands of a table switch. -/
def tableReader (position : Nat) : Reader Insn := do
  let _ ← take (switchPadding position)
  let otherwise ← wideTarget position
  let low ← word32
  let high ← word32
  let low := low.toInt32
  let high := high.toInt32
  if high.toInt < low.toInt then fail (.badOpcode Opcode.tableswitch position)
  else do
    let count := (high.toInt - low.toInt + 1).toNat
    needs (count * 4)
    let targets ← times count (wideTarget position)
    pure (tableSwitch otherwise low high targets)

/-- The operands of a lookup switch. -/
def lookupReader (position : Nat) : Reader Insn := do
  let _ ← take (switchPadding position)
  let otherwise ← wideTarget position
  let count ← word32
  needs (count.toNat * 8)
  let pairs ← times count.toNat (keyedTarget position)
  pure (lookupSwitch otherwise pairs)

/-- The instruction that is widened, and its operands of double width. -/
def widenedReader (position : Nat) : Reader Insn := do
  let opcode ← byte
  if opcode = Opcode.iinc then do
    let index ← word16
    let delta ← word16
    pure (iinc index delta.toInt16)
  else if Opcode.namesLocal opcode then do
    let index ← word16
    pure (localVar opcode index)
  else fail (.badOpcode opcode position)

/-- The operands behind `opcode`, for an instruction that starts at `position`. -/
def operandReader (position : Nat) (opcode : UInt8) : Operands → Reader Insn
  | .none => pure (op opcode)
  | .signedByte => do
    let value ← byte
    pure (bipush value.toInt8)
  | .signedWord => do
    let value ← word16
    pure (sipush value.toInt16)
  | .shortConstant => do
    let index ← byte
    pure (ldc index.toUInt16)
  | .wideConstant => do
    let index ← word16
    pure (ldc index)
  | .doubleConstant => do
    let index ← word16
    pure (ldc2 index)
  | .localIndex => do
    let index ← byte
    pure (localVar opcode index.toUInt16)
  | .increment => do
    let index ← byte
    let delta ← byte
    pure (iinc index.toUInt16 delta.toInt8.toInt16)
  | .shortBranch => do
    let relative ← word16
    let target ← branchTarget position relative.toInt16.toInt32
    pure (jump opcode target)
  | .wideBranch => do
    let target ← wideTarget position
    pure (jump opcode target)
  | .tableSwitch => tableReader position
  | .lookupSwitch => lookupReader position
  | .field => do
    let index ← word16
    pure (field opcode index)
  | .method => do
    let index ← word16
    pure (invoke opcode index)
  | .interfaceMethod => do
    let index ← word16
    let count ← byte
    let _ ← byte
    pure (invokeInterface index count)
  | .dynamicCall => do
    let index ← word16
    let _ ← word16
    pure (invokeDynamic index)
  | .type => do
    let index ← word16
    pure (type opcode index)
  | .primitive => do
    let primitive ← byte
    pure (newArray primitive)
  | .widened => widenedReader position
  | .dimensions => do
    let index ← word16
    let dimensions ← byte
    pure (multiNewArray index dimensions)

/-- What stands behind an opcode at `position`. -/
def readerBehind (position : Nat) (opcode : UInt8) : Reader Insn :=
  match Operands.ofOpcode opcode with
  | some operands => operandReader position opcode operands
  | none => fail (.badOpcode opcode position)

/-- The instructions up to the end of the bytes, behind those in `done`. -/
def decodeOnto (done : Array (Nat × Insn)) (c : Cursor) :
    Except FormatError (Array (Nat × Insn)) :=
  match c with
  | ⟨[], _⟩ => .ok done
  | ⟨opcode :: rest, position⟩ =>
    match _h : (readerBehind position opcode).run ⟨rest, position + 1⟩ with
    | .error e => .error e
    | .ok (insn, next) => decodeOnto (done.push (position, insn)) next
termination_by c.rest.length
decreasing_by
  have := ((readerBehind position opcode).advances _h).length_le
  simp only [List.length_cons] at this ⊢
  omega

/-- The instructions of a code array, each with its offset. -/
def decode (code : Bytes) : Except FormatError (List (Nat × Insn)) :=
  match decodeOnto #[] (.start code) with
  | .error e => .error e
  | .ok done => .ok done.toList

end Insn

end ClassTemplates
