import ClassTemplates.Files.Deflate
import ClassTemplates.Files.Zip.Directory

/-!
# Reading archives

The directory of an archive is read first, and all of it. Then entries are read in its order, up to
one that cannot be. A header is looked at only when its entry is read, so of records with one name
only the last has to lead to a header.

## Main definitions

- `Zip.Record.start?` — where the data of an entry starts
- `Zip.Record.bytes` — the data of an entry
- `Zip.read` — the entries of an archive whose names are wanted
-/

namespace ClassTemplates.Zip

/-- Where the data of an entry starts: behind the header at its offset. -/
def Record.start? (r : Record) (data : Array UInt8) : Option Nat := do
  guard (isMarked data Mark.header r.offset)
  let nameLength ← number? data (r.offset + 26) 2
  let extraLength ← number? data (r.offset + 28) 2
  pure (r.offset + 30 + nameLength + extraLength)

/-- Where the data of an entry starts and how it is kept, if it can be read without a password. -/
def Record.opened (r : Record) (data : Array UInt8) : Except ArchiveError (Nat × Compression) :=
  if r.encrypted then .error (.encrypted r.name)
  else
    match r.start? data, ofMethod? r.method with
    | none, _ => .error (.noHeader r.name)
    | some _, none => .error (.unknownMethod r.name r.method)
    | some start, some c => if r.ciphered then .error (.ciphered r.name) else .ok (start, c)

/-- The bytes that the data of an entry stands for. -/
def unkept? (c : Compression) (data : Bytes) : Option Bytes :=
  match c with
  | .stored => some data
  | .deflated => Deflate.inflate? data

/-- The data of an entry from an offset on. Data that the end of the file cuts short is read as far
as it goes. -/
def Record.bytes (r : Record) (data : Array UInt8) (start : Nat) (c : Compression) :
    Except ArchiveError Bytes :=
  match unkept? c (data.extract start (start + r.size)).toList with
  | none => .error (.badData r.name)
  | some bytes =>
    if (Zip.checksum bytes).toNat = r.checksum then .ok bytes else .error (.badChecksum r.name)

/-- An entry. Its data is only read if its name is wanted. -/
def Record.entry? (r : Record) (data : Array UInt8) (wanted : String → Bool) :
    Except ArchiveError (Option ArchiveEntry) := do
  let (start, c) ← r.opened data
  if wanted r.name then
    let bytes ← r.bytes data start c
    pure (some ⟨r.name, c, bytes⟩)
  else pure none

/-- The entries of an archive whose names are wanted. -/
def read (wanted : String → Bool) (bytes : Bytes) : Except ArchiveError (List ArchiveEntry) :=
  let data := bytes.toArray
  match records? data data.size with
  | none => .error .noDirectory
  | some records => records.toList.filterMapM fun r => r.entry? data wanted

end ClassTemplates.Zip
