import ClassTemplates.Bytes
import ClassTemplates.FormatError
import ClassTemplates.Insn.Basic

/-!
# The byte form of instructions

How long an instruction is at a position, and which bytes it has there once every label is known.
The two are separate definitions: lengths decide where labels lie before any byte is made.

## Main definitions

- `Insn.length` — the number of bytes at a position
- `Insn.encode` — the bytes at a position
-/

namespace ClassTemplates

open BigEndian

namespace Insn

/-- The zero bytes behind the opcode of a switch, up to the next multiple of four. -/
def switchPadding (position : Nat) : Nat :=
  (4 - (position + 1) % 4) % 4

/-- The number of bytes of an instruction that starts at `position`. -/
def length (position : Nat) : Insn → Nat
  | label _ => 0
  | op _ => 1
  | bipush _ | newArray _ => 2
  | sipush _ | ldc2 _ => 3
  | ldc index => if fitsByte index then 2 else 3
  | localVar _ index => if fitsByte index then 2 else 4
  | iinc index delta => if fitsByte index && fitsSignedByte delta then 3 else 6
  | jump opcode _ => if Opcode.isWideJump opcode then 5 else 3
  | tableSwitch _ _ _ targets => 1 + switchPadding position + 12 + 4 * targets.length
  | lookupSwitch _ pairs => 1 + switchPadding position + 8 + 8 * pairs.length
  | field _ _ | invoke _ _ | type _ _ => 3
  | invokeInterface _ _ | invokeDynamic _ => 5
  | multiNewArray _ _ => 4

/-- The distance from `position` to `target`. -/
def distance (position target : Nat) : Int :=
  (target : Int) - position

/-- The four bytes of a distance. -/
def wideOffset (position target : Nat) : Bytes :=
  word32 (Int32.ofInt (distance position target)).toUInt32

/-- The two bytes of a distance, if they can hold it. -/
def shortOffset (position target : Nat) : Except LayoutError Bytes :=
  let d := distance position target
  if -32768 ≤ d ∧ d ≤ 32767 then .ok (word16 (Int16.ofInt d).toUInt16)
  else .error (.branchTooFar position target)

/-- The bytes of an instruction that starts at `position`, where `resolve` gives the place of a
label. -/
def encode (resolve : Label → Except LayoutError Nat) (position : Nat) :
    Insn → Except LayoutError Bytes
  | label _ => pure []
  | op opcode => pure [opcode]
  | bipush value => pure [Opcode.bipush, value.toUInt8]
  | sipush value => pure (Opcode.sipush :: word16 value.toUInt16)
  | newArray primitive => pure [Opcode.newarray, primitive]
  | ldc index =>
    pure (if fitsByte index then [Opcode.ldc, index.toUInt8] else Opcode.ldcWide :: word16 index)
  | ldc2 index => pure (Opcode.ldc2Wide :: word16 index)
  | field opcode index | invoke opcode index | type opcode index => pure (opcode :: word16 index)
  | localVar opcode index =>
    pure (if fitsByte index then [opcode, index.toUInt8]
      else Opcode.wide :: opcode :: word16 index)
  | iinc index delta =>
    pure (if fitsByte index && fitsSignedByte delta then
        [Opcode.iinc, index.toUInt8, delta.toUInt16.toUInt8]
      else Opcode.wide :: Opcode.iinc :: (word16 index ++ word16 delta.toUInt16))
  | jump opcode target => do
    let target ← resolve target
    if Opcode.isWideJump opcode then pure (opcode :: wideOffset position target)
    else do
      let offset ← shortOffset position target
      pure (opcode :: offset)
  | tableSwitch otherwise low high targets => do
    let otherwise ← resolve otherwise
    let targets ← targets.mapM resolve
    pure (Opcode.tableswitch :: (List.replicate (switchPadding position) 0
      ++ wideOffset position otherwise ++ word32 low.toUInt32 ++ word32 high.toUInt32
      ++ targets.flatMap (wideOffset position)))
  | lookupSwitch otherwise pairs => do
    let otherwise ← resolve otherwise
    let pairs ← pairs.mapM fun (key, target) => do
      let target ← resolve target
      pure (key, target)
    pure (Opcode.lookupswitch :: (List.replicate (switchPadding position) 0
      ++ wideOffset position otherwise ++ count32 pairs
      ++ pairs.flatMap fun (key, target) => word32 key.toUInt32 ++ wideOffset position target))
  | invokeInterface index count => pure (Opcode.invokeinterface :: (word16 index ++ [count, 0]))
  | invokeDynamic index => pure (Opcode.invokedynamic :: (word16 index ++ [0, 0]))
  | multiNewArray index dimensions =>
    pure (Opcode.multianewarray :: (word16 index ++ [dimensions]))

end Insn

end ClassTemplates
