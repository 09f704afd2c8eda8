import ClassTemplates.Files.Zip.Record

/-!
# Finding the directory of an archive

The record that ends an archive says where the directory is, counted from where the archive starts.
What stands in front of the archive moves it, by as much as the first record of the directory stands
behind the place it should have. The long form of the end record stands in front of the plain one,
and a record between them leads to it.

## Main definitions

- `LastRecord`, `Locator`, `LongLast` — the records at the end
- `Directory` — where records are, and by how much the archive is moved
- `Record.moved?` — a record of an archive that is moved
- `Zip.records?` — the records of the last directory that can be read
-/

namespace ClassTemplates.Zip

/-- The first of `n` offsets from `offset` on where a record with the mark stands. -/
def firstMarked? (data : Array UInt8) (mark offset : Nat) : Nat → Option Nat
  | 0 => none
  | n + 1 =>
    if isMarked data mark offset then some offset else firstMarked? data mark (offset + 1) n

/-- The record that ends an archive. -/
structure LastRecord where
  disk : Nat
  /-- The disk on which the directory starts. -/
  directoryDisk : Nat
  /-- The number of entries on this disk. -/
  here : Nat
  /-- The number of entries on all disks. -/
  total : Nat
  /-- Where the directory starts. -/
  offset : Nat
  deriving DecidableEq, Repr

/-- The end record at an offset. A comment follows it. -/
def LastRecord.at? (data : Array UInt8) (offset : Nat) : Option LastRecord := do
  guard (isMarked data Mark.last offset)
  let disk ← number? data (offset + 4) 2
  let directoryDisk ← number? data (offset + 6) 2
  let here ← number? data (offset + 8) 2
  let total ← number? data (offset + 10) 2
  let start ← number? data (offset + 16) 4
  let commentLength ← number? data (offset + 20) 2
  guard (offset + 22 + commentLength ≤ data.size)
  pure ⟨disk, directoryDisk, here, total, start⟩

/-- The record that leads to the long form of the end record. -/
structure Locator where
  disk : Nat
  /-- Where the long form is. -/
  offset : Nat
  /-- The number of disks. -/
  disks : Nat
  deriving DecidableEq, Repr

namespace Locator

/-- The number of bytes of a locator. -/
def size : Nat := 20

/-- The locator in front of an offset. -/
def before? (data : Array UInt8) (offset : Nat) : Option Locator := do
  guard (size ≤ offset)
  let start := offset - size
  guard (isMarked data Mark.locator start)
  let disk ← number? data (start + 4) 4
  let place ← number? data (start + 8) 8
  let disks ← number? data (start + 16) 4
  pure ⟨disk, place, disks⟩

end Locator

/-- The end record may have a long form: a number in it is as large as can be. -/
def LastRecord.mayBeLong (e : LastRecord) : Bool :=
  e.total == 0xffff || e.offset == 0xffffffff

/-- The long form of the end record, and where it stands. -/
structure LongLast where
  place : Nat
  /-- The version of the format that the writer knows. -/
  versionMade : Nat
  /-- The version of the format that a reader has to know. -/
  versionNeeded : Nat
  disk : Nat
  directoryDisk : Nat
  here : Nat
  total : Nat
  offset : Nat
  deriving DecidableEq, Repr

namespace LongLast

/-- The long form at an offset. It ends where the locator starts, on the disk that the locator
names, and there is room for as many entries as it counts. -/
def at? (data : Array UInt8) (l : Locator) (stop offset : Nat) : Option LongLast := do
  guard (isMarked data Mark.longLast offset)
  let size ← number? data (offset + 4) 8
  let versionMade ← number? data (offset + 12) 2
  let versionNeeded ← number? data (offset + 14) 2
  let disk ← number? data (offset + 16) 4
  let directoryDisk ← number? data (offset + 20) 4
  let here ← number? data (offset + 24) 8
  let total ← number? data (offset + 32) 8
  let start ← number? data (offset + 48) 8
  guard (44 ≤ size && offset + 12 + size == stop && directoryDisk == l.disk
    && 46 * total + start ≤ offset)
  pure ⟨offset, versionMade, versionNeeded, disk, directoryDisk, here, total, start⟩

/-- The first long form at one of `n` offsets from `offset` on. -/
def first? (data : Array UInt8) (l : Locator) (stop offset : Nat) : Nat → Option LongLast
  | 0 => none
  | n + 1 =>
    match at? data l stop offset with
    | some e => some e
    | none => first? data l stop (offset + 1) n

/-- The numbers of the long form do not contradict each other. -/
def isSound (e : LongLast) : Bool :=
  e.here ≤ e.total && e.versionNeeded ≤ e.versionMade && e.disk == e.directoryDisk

end LongLast

/-- Where the records of a directory are. -/
structure Directory where
  /-- How many bytes stand in front of the archive. -/
  shift : Nat
  /-- The offset of the first record. -/
  start : Nat
  /-- The number of records. -/
  count : Nat
  deriving DecidableEq, Repr

namespace Directory

/-- The directory that an end record leads to. Without entries it ends where the end record is; else
it starts with the first record that stands where it should be or behind. -/
def ofLast? (data : Array UInt8) (stop : Nat) (e : LastRecord) : Option Directory := do
  guard (e.disk == e.directoryDisk)
  if e.total = 0 then
    let shift := stop - e.offset
    pure ⟨shift, e.offset + shift, e.here⟩
  else
    let start ← firstMarked? data Mark.record e.offset (stop - e.offset - 3)
    pure ⟨start - e.offset, start, e.here⟩

/-- The directory that a locator leads to. -/
def ofLocator? (data : Array UInt8) (stop : Nat) (l : Locator) : Option Directory := do
  guard (l.disks ≤ 1)
  let e ← LongLast.first? data l stop l.offset (stop - l.offset)
  guard e.isSound
  let shift := e.place - l.offset
  pure ⟨shift, e.offset + shift, e.total⟩

/-- The directory of the archive whose end record stands at an offset. -/
def endingAt? (data : Array UInt8) (offset : Nat) : Option Directory := do
  let e ← LastRecord.at? data offset
  match (if e.mayBeLong then Locator.before? data offset else none) with
  | some l => ofLocator? data (offset - Locator.size) l
  | none => ofLast? data offset e

end Directory

/-- A record with its offset counted from where the file starts, and not the archive. No file has
offsets of more than 64 bits. -/
def Record.moved? (r : Record) (shift : Nat) : Option Record :=
  if r.offset + shift < 0x10000000000000000 then some { r with offset := r.offset + shift }
  else none

/-- Records by name, with one more. It takes the place of an earlier one of its name. -/
def putRecord (done : Array Record) (r : Record) : Array Record :=
  match done.findIdx? fun o => o.name == r.name with
  | some i => done.setIfInBounds i r
  | none => done.push r

/-- The next `n` records of a directory from an offset on, behind those that are done. -/
def Directory.recordsOnto (d : Directory) (data : Array UInt8) (done : Array Record)
    (offset : Nat) : Nat → Option (Array Record)
  | 0 => some done
  | n + 1 =>
    match Record.at? data offset with
    | none => none
    | some (r, next) =>
      match r.moved? d.shift with
      | none => none
      | some r => d.recordsOnto data (putRecord done r) next n

/-- The records of the archive whose end record stands at an offset. -/
def recordsEndingAt? (data : Array UInt8) (offset : Nat) : Option (Array Record) := do
  let d ← Directory.endingAt? data offset
  d.recordsOnto data #[] d.start d.count

/-- The records of the last directory that can be read, with its end record at one of the first `n`
offsets. -/
def records? (data : Array UInt8) : Nat → Option (Array Record)
  | 0 => none
  | n + 1 =>
    match recordsEndingAt? data n with
    | some records => some records
    | none => records? data n

end ClassTemplates.Zip
