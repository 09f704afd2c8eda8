import ClassTemplates.Batch.Error
import ClassTemplates.Text.Blank

/-!
# Inputs

An input is a directory of class files, an archive or a single class file. Inputs can be listed in
one text, divided by colons.

## Main definitions

- `Input` — a path with its kind
- `Input.listed` — the paths of a list
- `Input.ofPath`, `Input.resolve` — the inputs that paths, and lists of paths, stand for
- `Tree.classFiles` — the class files below a path
-/

namespace ClassTemplates

/-- A path with its kind. -/
inductive Input
  | directory (path : String)
  | archive (path : String)
  | classFile (path : String)
  deriving DecidableEq, Repr

namespace Input

/-- The paths of a list: what stands between colons, without the blanks around it. -/
def listed (text : String) : List String :=
  ((Text.split ':' text).map Text.trim).filter fun path => !path.isEmpty

/-- The kind of a file by its extension. -/
def ofFile (path : String) : Except RunError Input :=
  match Path.extension? path with
  | some "jar" => .ok (.archive path)
  | some "zip" => .ok (.archive path)
  | some "class" => .ok (.classFile path)
  | _ => .error (.unknownInput path)

/-- The input that a path stands for. -/
def ofPath (t : Tree) (path : String) : Except RunError Input :=
  if t.isDirectory path then .ok (.directory path)
  else if t.isFile path then ofFile path
  else .error (.missingInput path)

/-- The inputs that lists of paths stand for. -/
def resolve (t : Tree) (lists : List String) : Except RunError (List Input) :=
  (lists.flatMap listed).mapM (ofPath t)

end Input

namespace Tree

/-- The path of a file below a path. -/
def pathBelow (path : String) (names : List String) : String :=
  names.foldl Path.join path

/-- The name of a file below a path, or of the file itself if no names lead to it. -/
def lastName (path : String) (names : List String) : String :=
  names.getLast?.getD (Path.fileName path)

/-- The names that lead to the class files below a path, in order. -/
def classFiles (t : Tree) (path : String) : Except RunError (List (List String)) :=
  match t.below path with
  | .error cause => .error (.file cause)
  | .ok all => .ok (all.filter fun names => Settings.isClassName (lastName path names))

end Tree

end ClassTemplates
