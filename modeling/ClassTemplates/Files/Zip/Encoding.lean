import ClassTemplates.Files.Deflate
import ClassTemplates.Files.Zip.Basic

/-!
# Writing archives

The data of each entry stands behind a header of its own. A directory that lists the entries
follows, and the archive ends in a record that tells where the directory is.

## Main definitions

- `Zip.toBytes` — the bytes of an archive
-/

namespace ClassTemplates.Zip

/-- The bytes of an entry as they are kept. -/
def kept (entry : ArchiveEntry) : Bytes :=
  match entry.compression with
  | .stored => entry.bytes
  | .deflated => Deflate.deflate entry.bytes

/-- An entry that is ready to be written: its name, its data and where the data goes. -/
structure Placed where
  entry : ArchiveEntry
  name : Bytes
  data : Bytes
  checksum : UInt32
  offset : Nat

/-- The bytes of a name. -/
def nameBytes (name : String) : Bytes :=
  name.toUTF8.toList

/-- The fields that a header shares with the directory. Names are marked as UTF-8, and the date is
the first one that can be written. -/
def fields (p : Placed) : Bytes :=
  little 2 20 ++ little 2 0x800 ++ little 2 (method p.entry.compression)
    ++ little 2 0 ++ little 2 0x21 ++ little 4 p.checksum.toNat
    ++ little 4 p.data.length ++ little 4 p.entry.bytes.length
    ++ little 2 p.name.length ++ little 2 0

/-- What stands at the place of an entry: its header and its data. -/
def localRecord (p : Placed) : Bytes :=
  little 4 Mark.header ++ fields p ++ p.name ++ p.data

/-- What the directory says about an entry. -/
def centralRecord (p : Placed) : Bytes :=
  little 4 Mark.record ++ little 2 20 ++ fields p ++ little 2 0 ++ little 2 0 ++ little 2 0
    ++ little 4 0 ++ little 4 p.offset ++ p.name

/-- The bytes of entries behind those in `out`, and what the directory says about them behind
`central`. -/
def recordsOnto (out central : Array UInt8) : List ArchiveEntry → Array UInt8 × Array UInt8
  | [] => (out, central)
  | entry :: rest =>
    let p : Placed := ⟨entry, nameBytes entry.name, kept entry, checksum entry.bytes, out.size⟩
    recordsOnto (out ++ localRecord p) (central ++ centralRecord p) rest

/-- The record that ends an archive of `count` entries. -/
def lastRecord (count size offset : Nat) : Bytes :=
  little 4 Mark.last ++ little 2 0 ++ little 2 0 ++ little 2 count ++ little 2 count
    ++ little 4 size ++ little 4 offset ++ little 2 0

/-- The bytes of an archive. -/
def toBytes (entries : List ArchiveEntry) : Bytes :=
  let (records, central) := recordsOnto #[] #[] entries
  (records ++ central).toList ++ lastRecord entries.length central.size records.size

end ClassTemplates.Zip
