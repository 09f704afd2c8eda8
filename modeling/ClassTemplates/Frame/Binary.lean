import ClassTemplates.Frame.Basic
import ClassTemplates.Reader

/-!
# The byte form of stack maps

The first byte of a frame tells its shape, and for the short shapes its distance or the number of
its locals as well.

## Main definitions

- `VerificationType.toBytes`, `Frame.toBytes`, `Frame.tableBytes` — writing
- `VerificationType.reader`, `Frame.reader`, `Frame.tableReader` — reading
-/

namespace ClassTemplates

open BigEndian

namespace VerificationType

/-- The bytes of a type: its tag and what it names. -/
def toBytes : VerificationType → Bytes
  | top => [0]
  | integer => [1]
  | float => [2]
  | double => [3]
  | long => [4]
  | null => [5]
  | uninitializedThis => [6]
  | object index => 7 :: word16 index
  | uninitialized offset => 8 :: word16 offset

open Reader in
/-- A type: its tag and what it names. -/
def reader : Reader VerificationType := do
  let tag ← byte
  match tag.toNat with
  | 0 => pure top
  | 1 => pure integer
  | 2 => pure float
  | 3 => pure double
  | 4 => pure long
  | 5 => pure null
  | 6 => pure uninitializedThis
  | 7 => do
    let index ← word16
    pure (object index)
  | 8 => do
    let offset ← word16
    pure (uninitialized offset)
  | _ => fail (.badVerificationType tag)

/-- The bytes of a list of types, without its length. -/
def listBytes (types : List VerificationType) : Bytes :=
  types.flatMap toBytes

end VerificationType

namespace Frame

open VerificationType (listBytes)

/-- The bytes of a frame. The short forms are used where the distance is at most 63; the tags of the
other forms wrap at 256. -/
def toBytes (f : Frame) : Bytes :=
  match f.shape with
  | .same => if f.delta ≤ 63 then [f.delta.toUInt8] else 251 :: word16 f.delta
  | .oneItem item =>
    (if f.delta ≤ 63 then [64 + f.delta.toUInt8] else 247 :: word16 f.delta) ++ item.toBytes
  | .oneItemExtended item => 247 :: (word16 f.delta ++ item.toBytes)
  | .chop count => (251 - count) :: word16 f.delta
  | .sameExtended => 251 :: word16 f.delta
  | .append locals => (251 + UInt8.ofNat locals.length) :: (word16 f.delta ++ listBytes locals)
  | .full locals stack =>
    255 :: (word16 f.delta ++ count16 locals ++ listBytes locals ++ count16 stack
      ++ listBytes stack)

/-- The bytes of a table: the number of frames and the frames. -/
def tableBytes (frames : List Frame) : Bytes :=
  count16 frames ++ frames.flatMap toBytes

open Reader in
/-- One frame. -/
def reader : Reader Frame := do
  let tag ← byte
  if tag ≤ 63 then pure ⟨tag.toUInt16, .same⟩
  else if tag ≤ 127 then do
    let item ← VerificationType.reader
    pure ⟨(tag - 64).toUInt16, .oneItem item⟩
  else if tag < 247 then fail (.badFrameType tag)
  else do
    let delta ← word16
    if tag = 247 then do
      let item ← VerificationType.reader
      pure ⟨delta, .oneItemExtended item⟩
    else if tag ≤ 250 then pure ⟨delta, .chop (251 - tag)⟩
    else if tag = 251 then pure ⟨delta, .sameExtended⟩
    else if tag ≤ 254 then do
      let locals ← times (tag - 251).toNat VerificationType.reader
      pure ⟨delta, .append locals⟩
    else do
      let locals ← counted16 VerificationType.reader
      let stack ← counted16 VerificationType.reader
      pure ⟨delta, .full locals stack⟩

/-- A table: the number of frames and the frames. -/
def tableReader : Reader (List Frame) :=
  Reader.counted16 reader

end Frame

end ClassTemplates
