import ClassTemplates.Files.Zip.Basic
import ClassTemplates.Text.CodePage437
import ClassTemplates.Text.Utf8

/-!
# What a directory says about an entry

A record of the directory has fields of fixed places and extra fields behind them. An extra field
can give sizes and the offset in the long form, another name or comment, or a cipher.

## Main definitions

- `Record` — what a record says, as far as reading needs it
- `Extra.Step` — a step through extra fields
- `Record.withExtra?` — a record after its extra fields
- `Record.at?` — the record at an offset
-/

namespace ClassTemplates.Zip

/-- What the directory says about an entry, as far as reading needs it. -/
structure Record where
  /-- The bytes of the name. -/
  rawName : Bytes
  name : String
  comment : String
  /-- The entry is marked as one that needs a password. -/
  encrypted : Bool
  /-- An extra field names a cipher. -/
  ciphered : Bool
  method : Nat
  checksum : Nat
  /-- The number of bytes that are kept. -/
  size : Nat
  /-- The number of bytes that they stand for. -/
  fullSize : Nat
  /-- The offset of the header. A record as it is written counts from where the archive starts. -/
  offset : Nat
  deriving DecidableEq, Repr

namespace Extra

/-- Why a walk through extra fields stops before their end. -/
inductive Halt
  /-- The bytes end inside a field. -/
  | cutShort
  /-- A field says what cannot be. -/
  | refused
  deriving DecidableEq, Repr

/-- A step through extra fields: it takes bytes off their front and may change the record. What it
changed before it stopped stays changed. -/
abbrev Step := ExceptT Halt (StateM (Record × Bytes))

/-- Exactly `n` bytes. -/
def take (n : Nat) : Step Bytes := do
  let (r, rest) ← get
  let front := rest.take n
  if front.length = n then
    set (r, rest.drop n)
    pure front
  else throw .cutShort

/-- A number of `width` bytes. -/
def number (width : Nat) : Step Nat := do
  let bytes ← take width
  pure (unlittle bytes)

/-- Takes `n` bytes and forgets them. -/
def pass (n : Nat) : Step Unit := do
  let _ ← take n
  pure ()

/-- Stops unless the condition holds. -/
def require (condition : Bool) : Step Unit :=
  if condition then pure () else throw .refused

/-- Changes the record. -/
def change (f : Record → Record) : Step Unit :=
  modify fun (r, rest) => (f r, rest)

/-- What stands for a number that is given in the long form. -/
def elsewhere : Nat := 0xffffffff

/-- A number in the long form, if there is one, and how many bytes it took. -/
def longNumber (present : Bool) (put : Record → Nat → Record) : Step Nat := do
  if present then
    let n ← number 8
    change fun r => put r n
    pure 8
  else pure 0

/-- Sizes and offset in the long form. All three are there if there is room for them; else only
those whose place in the record says so. -/
def longForm (length : Nat) : Step Unit := do
  let (r, _) ← get
  let a ← longNumber (24 ≤ length || r.fullSize == elsewhere) fun r n => { r with fullSize := n }
  let b ← longNumber (24 ≤ length || r.size == elsewhere) fun r n => { r with size := n }
  let c ← longNumber (24 ≤ length || r.offset == elsewhere) fun r n => { r with offset := n }
  require (a + b + c ≤ length)
  pass (length - (a + b + c))

/-- The times of a file in units of a tenth of a microsecond: one attribute with three of them. -/
def fineTimes (length : Nat) : Step Unit := do
  require (length == 32)
  pass 4
  let tag ← number 2
  require (tag == 1)
  let size ← number 2
  require (size == 24)
  pass 24

/-- The times of a file in seconds. Three bits say which of them are there, or there is only the
first. -/
def times (length : Nat) : Step Unit := do
  let flags ← number 1
  let count := flags % 2 + flags / 2 % 2 + flags / 4 % 2
  require (flags < 8 && (length == 5 || length == 1 + 4 * count))
  pass (length - 1)

/-- A cipher, and how the data below it is kept. -/
def cipher (length : Nat) : Step Unit := do
  require (length == 7)
  let version ← number 2
  let vendor ← number 2
  let strength ← number 1
  let method ← number 2
  require (vendor == 0x4541 && (version == 1 || version == 2) && 1 ≤ strength && strength ≤ 3)
  change fun r => { r with ciphered := true, method := method }

/-- A text in UTF-8 that takes the place of an old one, and its bytes. It comes with the checksum of
the old one. -/
def text (length : Nat) (old : Record → Bytes) : Step (Bytes × String) := do
  pass 1
  let check ← number 4
  require (5 ≤ length)
  let bytes ← take (length - 5)
  let (r, _) ← get
  require ((Zip.checksum (old r)).toNat == check)
  match Utf8.decode? bytes with
  | some text => pure (bytes, text)
  | none => throw .refused

/-- One extra field. -/
def field : Step Unit := do
  let kind ← number 2
  let length ← number 2
  if kind = 0x0001 then longForm length
  else if kind = 0x000a then fineTimes length
  else if kind = 0x5455 then times length
  else if kind = 0x9901 then cipher length
  else if kind = 0x6375 then
    let (_, comment) ← text length fun r => r.comment.toUTF8.toList
    change fun r => { r with comment := comment }
  else if kind = 0x7075 then
    let (rawName, name) ← text length fun r => r.rawName
    change fun r => { r with rawName := rawName, name := name }
  else pass length

/-- At most `n` extra fields, up to the end of the bytes. -/
def fields : Nat → Step Unit
  | 0 => pure ()
  | n + 1 => do
    let (_, rest) ← get
    if rest.isEmpty then pure ()
    else
      field
      fields n

end Extra

namespace Record

/-- A record after its extra fields, unless one of them is refused. A field that is cut short ends
them. -/
def withExtra? (r : Record) (extra : Bytes) : Option Record :=
  match (Extra.fields extra.length).run.run (r, extra) with
  | (.error .refused, _) => none
  | (_, r, _) => some r

/-- The way of keeping bytes that stands for a cipher. -/
def cipherMethod : Nat := 99

/-- The text of bytes that are marked as UTF-8 or not. -/
def textOf (isUtf8 : Bool) (bytes : Bytes) : String :=
  if isUtf8 then Utf8.decodeLossy bytes else CodePage437.decode bytes

/-- The record at an offset, and the offset behind it. -/
def at? (data : Array UInt8) (offset : Nat) : Option (Record × Nat) := do
  guard (isMarked data Mark.record offset)
  let flags ← number? data (offset + 8) 2
  let method ← number? data (offset + 10) 2
  let checksum ← number? data (offset + 16) 4
  let size ← number? data (offset + 20) 4
  let fullSize ← number? data (offset + 24) 4
  let nameLength ← number? data (offset + 28) 2
  let extraLength ← number? data (offset + 30) 2
  let commentLength ← number? data (offset + 32) 2
  let place ← number? data (offset + 42) 4
  let extraOffset := offset + 46 + nameLength
  let commentOffset := extraOffset + extraLength
  let rawName ← slice? data (offset + 46) nameLength
  let extra ← slice? data extraOffset extraLength
  let comment ← slice? data commentOffset commentLength
  let isUtf8 := flags / 2048 % 2 == 1
  let r ← withExtra? ⟨rawName, textOf isUtf8 rawName, textOf isUtf8 comment, flags % 2 == 1, false,
    method, checksum, size, fullSize, place⟩ extra
  guard (r.method != cipherMethod || r.ciphered)
  pure (r, commentOffset + commentLength)

end Record

end ClassTemplates.Zip
