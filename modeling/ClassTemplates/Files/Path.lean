import ClassTemplates.Text.Blank

/-!
# Paths

A path is a text whose parts are divided by slashes. Empty parts and single dots stand for where one
already is; a dot in front counts when paths are compared.

## Main definitions

- `Path.segments`, `Path.parts` — the parts of a path, all of them and those that count
- `Path.IsName` — a name that a file can have
- `Path.join` — a name below a path
- `Path.fileName?`, `Path.extension?`, `Path.stem` — the last name and its two halves
- `Path.same` — two paths with the same parts
-/

namespace ClassTemplates.Path

/-- The parts of a path between slashes, empty ones included. -/
def segments (path : String) : List String :=
  Text.split '/' path

/-- The part leads nowhere else. -/
def isIdle (part : String) : Bool :=
  part.isEmpty || part == "."

/-- The name leads to a file or a directory in the directory where one is. -/
structure IsName (name : String) : Prop where
  noSlash : '/' ∉ name.toList
  counts : isIdle name = false
  notAbove : name ≠ ".."

instance (name : String) : Decidable (IsName name) :=
  decidable_of_decidable_of_iff (p := '/' ∉ name.toList ∧ isIdle name = false ∧ name ≠ "..")
    ⟨fun h => ⟨h.1, h.2.1, h.2.2⟩, fun h => ⟨h.noSlash, h.counts, h.notAbove⟩⟩

/-- The path starts at the root. -/
def isAbsolute (path : String) : Bool :=
  path.startsWith "/"

/-- The parts that count: a slash or a dot in front, and every part that leads somewhere. -/
def parts (path : String) : List String :=
  let all := segments path
  let behind := all.filter fun part => !isIdle part
  if isAbsolute path then "/" :: behind
  else
    match all with
    | "." :: _ => "." :: behind
    | _ => behind

/-- Two paths with the same parts. -/
def same (a b : String) : Bool :=
  parts a == parts b

/-- The path of a name below a path. -/
def join (path name : String) : String :=
  if isAbsolute name || path.isEmpty then name
  else if path.endsWith "/" then path ++ name
  else path ++ "/" ++ name

/-- The last name of a path, if the path ends in a name. -/
def fileName? (path : String) : Option String :=
  match (parts path).getLast? with
  | some part => if part == "/" || part == "." || part == ".." then none else some part
  | none => none

/-- The last name of a path, or nothing. -/
def fileName (path : String) : String :=
  (fileName? path).getD ""

/-- A name in two halves, before and behind its last dot. A dot in front does not count. -/
def halves (name : String) : String × Option String :=
  let backward := name.toList.reverse
  match backward.dropWhile (· != '.') with
  | '.' :: c :: rest =>
    let behind := (backward.takeWhile (· != '.')).reverse
    (String.ofList (c :: rest).reverse, some (String.ofList behind))
  | _ => (name, none)

/-- What stands behind the last dot of the last name. -/
def extension? (path : String) : Option String :=
  (fileName? path).bind fun name => (halves name).2

/-- The last name without its extension. -/
def stem (path : String) : String :=
  (halves (fileName path)).1

end ClassTemplates.Path
