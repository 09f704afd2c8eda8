import ClassTemplates.Files.Tree
import ClassTemplates.Settings

/-!
# Why a run stops

## Main definitions

- `RunError` — the causes
- `RunError.message`, `RunError.reason?` — their wording
-/

namespace ClassTemplates

/-- Why a run over files stops. Classes that cannot be expanded do not stop it. -/
inductive RunError
  | file (cause : FileError)
  /-- The file is taken for an archive and cannot be read as one. -/
  | archive (path : String) (cause : ArchiveError)
  /-- The assets of a catalog are looked for where there is no directory. -/
  | noCatalog (path : String)
  /-- The asset is not JSON. -/
  | badAsset (path : String)
  | settings (cause : SettingsError)
  | missingInput (path : String)
  /-- The input is neither a directory nor a kind of file that can hold classes. -/
  | unknownInput (path : String)
  deriving DecidableEq, Repr

/-- The wording of a run error. -/
def RunError.message : RunError → String
  | file cause => "IO error: " ++ cause.message
  | archive _ cause => (if cause.isDamage then "IO error: " else "Archive error: ") ++ cause.message
  | noCatalog path => "Catalog error in " ++ path ++ ": not a directory"
  | badAsset path => "Catalog error in " ++ path ++ ": malformed JSON"
  | settings cause => "Configuration error: " ++ cause.message
  | missingInput path => "Configuration error: input " ++ path ++ " does not exist"
  | unknownInput path =>
    "Configuration error: input " ++ path ++ " is not a directory, jar or class file"

/-- What lies behind a run error, for those that only pass on another one. -/
def RunError.reason? : RunError → Option String
  | file cause => some cause.message
  | archive _ cause => some cause.message
  | _ => none

/-- A run over files. What it changed before it stopped stays changed. -/
abbrev RunM := ExceptT RunError (StateM Tree)

namespace RunM

/-- An operation on files as a part of a run. -/
def onFiles (x : TreeM α) : RunM α := fun t =>
  match x.run t with
  | (.ok a, t) => (.ok a, t)
  | (.error cause, t) => (.error (.file cause), t)

/-- The result of a look at the tree. -/
def look (f : Tree → Except RunError α) : RunM α := fun t =>
  (f t, t)

end RunM

end ClassTemplates
