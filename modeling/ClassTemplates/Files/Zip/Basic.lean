import ClassTemplates.Files.Archive

/-!
# Numbers and checksums of archives

Archives are made of records. Each record starts with a mark of four bytes. Numbers have their
lowest byte first.

## Main definitions

- `Zip.checksum` — the checksum of the data of an entry
- `Zip.little`, `Zip.unlittle` — numbers as bytes, and back
- `Zip.number?`, `Zip.slice?` — numbers and bytes at an offset
- `Mark` — what records start with
-/

namespace ClassTemplates.Zip

/-- One byte into the running remainder. -/
def checksumStep (r : UInt32) (b : UInt8) : UInt32 :=
  (List.range 8).foldl (fun r _ => if r &&& 1 == 1 then (r >>> 1) ^^^ 0xedb88320 else r >>> 1)
    (r ^^^ b.toUInt32)

/-- The cyclic redundancy checksum of bytes. -/
def checksum (bytes : Bytes) : UInt32 :=
  ~~~(bytes.foldl checksumStep 0xffffffff)

/-- The lowest `width` bytes of a number, the lowest first. -/
def little : Nat → Nat → Bytes
  | 0, _ => []
  | width + 1, n => UInt8.ofNat n :: little width (n / 256)

/-- The number that bytes spell, the lowest first. -/
def unlittle : Bytes → Nat
  | [] => 0
  | b :: rest => b.toNat + 256 * unlittle rest

/-- Some bytes at an offset. -/
def slice? (data : Array UInt8) (offset length : Nat) : Option Bytes :=
  if offset + length ≤ data.size then some (data.extract offset (offset + length)).toList
  else none

/-- The `width` bytes at an offset as a number. -/
def number? (data : Array UInt8) (offset width : Nat) : Option Nat :=
  (slice? data offset width).map unlittle

/-- The number of a way of keeping bytes. -/
def method : Compression → Nat
  | .stored => 0
  | .deflated => 8

/-- The way of keeping bytes that a number stands for. -/
def ofMethod? (n : Nat) : Option Compression :=
  if n = 0 then some .stored else if n = 8 then some .deflated else none

namespace Mark

/-- The mark of the header in front of the data of an entry. -/
def header : Nat := 0x04034b50

/-- The mark of a record of the directory. -/
def record : Nat := 0x02014b50

/-- The mark of the record that ends an archive. -/
def last : Nat := 0x06054b50

/-- The mark of the record that ends an archive in the long form. -/
def longLast : Nat := 0x06064b50

/-- The mark of the record that leads to the long form. -/
def locator : Nat := 0x07064b50

end Mark

/-- A record with the mark stands at an offset. -/
def isMarked (data : Array UInt8) (mark offset : Nat) : Bool :=
  number? data offset 4 == some mark

end ClassTemplates.Zip
