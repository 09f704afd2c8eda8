import ClassTemplates.CommandLine.Run

/-!
# The executable

Reads the files that the arguments lead to, runs the program on them, and writes what has changed.

## Main definitions

- `Disk.load` — the files that paths lead to
- `Disk.store` — writes what has changed
- `main` — the executable
-/

namespace ClassTemplates.Disk

/-- The path to a location; the working directory is a dot. -/
def pathTo (l : Location) : String :=
  if l.isEmpty then "." else Tree.pathTo l

/-- What is at a path, if there is anything. Below a directory links are not followed. -/
def kindOf (path : String) (followLinks : Bool) : IO (Option IO.FS.FileType) := do
  let path := (← IO.currentDir) / path
  try
    let found ← if followLinks then path.metadata else path.symlinkMetadata
    pure (some found.type)
  catch _ => pure none

/-- The names in a directory. -/
def namesIn (path : String) : IO (List String) := do
  let path := (← IO.currentDir) / path
  pure ((← path.readDir).toList.map (·.fileName))

/-- The tree with what is found at a location and down to a depth below it. -/
def loadBelow (followLinks : Bool) : Nat → Tree → Location → IO Tree
  | 0, t, _ => pure t
  | depth + 1, t, l => do
    match ← kindOf (pathTo l) followLinks with
    | some .dir =>
      let names ← namesIn (pathTo l)
      names.foldlM (fun t name => loadBelow false depth t (l ++ [name])) (t.addDirectory l)
    | some .file =>
      let data ← IO.FS.readBinFile (pathTo l)
      pure (t.setFile l (.bytes data.toList))
    | _ => pure t

/-- No path is longer than this, so nothing is deeper either. -/
def maxDepth : Nat := 4096

/-- The tree with what is found on the way from a location along parts, and below its end. -/
def loadAlong (t : Tree) (l : Location) : List String → IO Tree
  | [] => loadBelow true maxDepth t l
  | part :: rest => do
    match ← kindOf (pathTo l) true with
    | some .dir => loadAlong (t.addDirectory l) (Tree.step l part) rest
    | _ => loadBelow true maxDepth t l

/-- The files that paths lead to. -/
def load (paths : List String) : IO Tree :=
  paths.foldlM (fun t path => loadAlong t (Tree.origin path) (Path.segments path)) .empty

/-- Makes the directories of a tree, and writes the files that have changed. -/
def store (before after : Tree) : IO Unit := do
  after.directories.reverse.forM fun l => IO.FS.createDirAll (pathTo l)
  (before.changes after).forM fun (path, contents) =>
    IO.FS.writeBinFile path ⟨contents.toBytes.toArray⟩

/-- The variables of the environment that can override settings. -/
def environment : IO (String → Option String) := do
  let found ← Settings.variableNames.mapM fun name => do pure (name, ← IO.getEnv name)
  pure fun name => (found.find? fun v => v.1 == name).bind (·.2)

end ClassTemplates.Disk

open ClassTemplates in
/-- Runs the program on the files of the working directory. -/
def main (arguments : List String) : IO UInt32 := do
  let env ← Disk.environment
  let before ← Disk.load (CommandLine.paths arguments)
  let (output, after) := CommandLine.run arguments env before
  Disk.store before after
  (← IO.getStdout).putStr output.stdout
  (← IO.getStderr).putStr output.stderr
  pure (UInt32.ofNat output.code)
