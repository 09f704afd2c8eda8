import ClassTemplates.Bytes

/-!
# Archives

An archive is a list of named entries. An entry is stored as it is or deflated; an entry whose name
ends in a slash or a backslash is a directory.

## Main definitions

- `Compression`, `ArchiveEntry` — an entry of an archive
- `ArchiveEntry.isDirectory` — the entry only names a directory
- `ArchiveEntry.written` — the entry as it is written
- `ArchiveError` — why an archive cannot be read
-/

namespace ClassTemplates

/-- How the bytes of an entry are kept. -/
inductive Compression
  | stored
  | deflated
  deriving DecidableEq, Repr

/-- An entry of an archive. -/
structure ArchiveEntry where
  name : String
  compression : Compression
  bytes : Bytes
  deriving DecidableEq, Repr

namespace ArchiveEntry

/-- The name is that of a directory. -/
def isDirectoryName (name : String) : Bool :=
  name.endsWith "/" || name.endsWith "\\"

/-- The entry only names a directory. -/
def isDirectory (entry : ArchiveEntry) : Bool :=
  isDirectoryName entry.name

/-- The entry as it is written: a directory holds nothing. -/
def written (entry : ArchiveEntry) : ArchiveEntry :=
  if entry.isDirectory then { entry with compression := .stored, bytes := [] } else entry

end ArchiveEntry

/-- Why an archive cannot be read. -/
inductive ArchiveError
  /-- Nowhere in the file ends a directory that can be read. -/
  | noDirectory
  /-- No header of the entry stands where the directory says. -/
  | noHeader (name : String)
  /-- The entry needs a password. -/
  | encrypted (name : String)
  /-- The entry needs no password, but its data is below a cipher. -/
  | ciphered (name : String)
  /-- The entry is neither stored nor deflated. -/
  | unknownMethod (name : String) (method : Nat)
  /-- The data of the entry cannot be inflated. -/
  | badData (name : String)
  /-- The data of the entry has another checksum than the directory says. -/
  | badChecksum (name : String)
  deriving DecidableEq, Repr

namespace ArchiveError

/-- The data of an entry is damaged, and not what the archive says about it. -/
def isDamage : ArchiveError → Bool
  | badData _ => true
  | badChecksum _ => true
  | _ => false

/-- The wording of an archive error. -/
def message : ArchiveError → String
  | noDirectory => "invalid Zip archive: Could not find EOCD"
  | noHeader _ => "invalid Zip archive: Invalid local file header"
  | encrypted _ => "unsupported Zip archive: Password required to decrypt file"
  | ciphered _ => "provided password is incorrect"
  | unknownMethod _ _ => "unsupported Zip archive: Compression method not supported"
  | badData _ => "corrupt deflate stream"
  | badChecksum _ => "Invalid checksum"

end ArchiveError

end ClassTemplates
