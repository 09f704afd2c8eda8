import ClassTemplates.Files.Path
import ClassTemplates.Files.Zip.Decoding
import ClassTemplates.Files.Zip.Encoding

/-!
# Trees of files

Files and directories below a working directory. A path is followed part by part, and every part it
goes through has to be a directory.

## Main definitions

- `Contents`, `Tree` — files and directories by location
- `Tree.locate?` — where a path leads
- `Tree.isDirectory`, `isFile` — what is there
- `TreeM` — computations that change a tree and may fail
- `Files.read`, `write`, `writeBelow`, `copy` — the operations
- `Tree.below` — the files below a path, with the names that lead to them
- `Tree.changes` — what has become different
-/

namespace ClassTemplates

/-- What a file holds: bytes, or an archive with its entries. -/
inductive Contents
  | bytes (bytes : Bytes)
  | archive (entries : List ArchiveEntry)
  deriving DecidableEq, Repr

namespace Contents

/-- The bytes of a file. -/
def toBytes : Contents → Bytes
  | bytes data => data
  | archive entries => Zip.toBytes entries

/-- The entries of a file whose names are wanted, if it is an archive. -/
def entriesNamed (wanted : String → Bool) : Contents → Except ArchiveError (List ArchiveEntry)
  | bytes data => Zip.read wanted data
  | archive entries => .ok (entries.filter fun entry => wanted entry.name)

/-- The entries of a file, if it is an archive. -/
def entries : Contents → Except ArchiveError (List ArchiveEntry)
  | bytes data => Zip.read (fun _ => true) data
  | archive entries => .ok entries

end Contents

/-- The names that lead from the working directory to a file or a directory. What lies outside
starts with a slash or with two dots. -/
abbrev Location := List String

/-- Files and directories by location. The working directory and what is above it are not listed.
There is one file at most at a location. -/
structure Tree where
  directories : List Location
  files : List (Location × Contents)
  once : (files.map (·.1)).Nodup
  deriving DecidableEq, Repr

/-- Why an operation on a tree fails. -/
inductive FileError
  /-- The path leads nowhere. -/
  | missing (path : String)
  /-- The path leads to a directory where a file is needed. -/
  | isDirectory (path : String)
  /-- A directory cannot be made because a file is in the way. -/
  | notDirectory (path : String)
  /-- The file does not hold a text. -/
  | notText (path : String)
  deriving DecidableEq, Repr

/-- The wording of a file error. -/
def FileError.message : FileError → String
  | missing path => path ++ ": no such file or directory"
  | isDirectory path => path ++ ": is a directory"
  | notDirectory path => path ++ ": is not a directory"
  | notText path => path ++ ": stream did not contain valid UTF-8"

namespace Tree

/-- The tree with nothing in it. -/
def empty : Tree :=
  ⟨[], [], .nil⟩

/-- The location is the working directory, the root, or above the working directory. -/
def isOutside (l : Location) : Bool :=
  l == ["/"] || l.all (· == "..")

/-- There is a directory at a location. -/
def isDirectoryAt (t : Tree) (l : Location) : Bool :=
  isOutside l || t.directories.contains l

/-- What the file at a location holds. -/
def contentsAt? (t : Tree) (l : Location) : Option Contents :=
  (t.files.find? fun f => f.1 == l).map (·.2)

/-- The location above a location. -/
def above (l : Location) : Location :=
  if l == ["/"] then l
  else if l.all (· == "..") then ".." :: l
  else l.dropLast

/-- Where a part leads from a location. -/
def step (l : Location) (part : String) : Location :=
  if Path.isIdle part then l
  else if part == ".." then above l
  else l ++ [part]

/-- Where parts lead from a location, if each of them starts from a directory. -/
def follow? (t : Tree) (l : Location) : List String → Option Location
  | [] => some l
  | part :: rest => if t.isDirectoryAt l then follow? t (step l part) rest else none

/-- Where a path starts. -/
def origin (path : String) : Location :=
  if Path.isAbsolute path then ["/"] else []

/-- Where a path leads; there may be nothing yet. -/
def locate? (t : Tree) (path : String) : Option Location :=
  if path.isEmpty then none else t.follow? (origin path) (Path.segments path)

/-- There is a directory at the end of a path. -/
def isDirectory (t : Tree) (path : String) : Bool :=
  match t.locate? path with
  | some l => t.isDirectoryAt l
  | none => false

/-- What the file at the end of a path holds. -/
def contents? (t : Tree) (path : String) : Option Contents :=
  (t.locate? path).bind t.contentsAt?

/-- There is a file at the end of a path. -/
def isFile (t : Tree) (path : String) : Bool :=
  (t.contents? path).isSome

/-- The tree with a directory at a location. -/
def addDirectory (t : Tree) (l : Location) : Tree :=
  if t.isDirectoryAt l then t else { t with directories := l :: t.directories }

/-- A file takes the place of the one at its location. -/
theorem map_fst_replace {files : List (Location × Contents)} (l : Location)
    (contents : Contents) :
    (files.map fun f => if f.1 == l then (l, contents) else f).map (·.1) = files.map (·.1) := by
  rw [List.map_map]
  refine List.map_congr_left fun f _ => ?_
  by_cases h : f.1 = l <;> simp [h]

theorem notMem_of_contentsAt? {t : Tree} {l : Location}
    (h : ¬ (t.contentsAt? l).isSome = true) : l ∉ t.files.map (·.1) := by
  intro hmem
  obtain ⟨f, hf, rfl⟩ := List.mem_map.1 hmem
  rw [contentsAt?, Option.isSome_map, List.find?_isSome] at h
  exact h ⟨f, hf, beq_self_eq_true f.1⟩

/-- The tree with a file at a location. -/
def setFile (t : Tree) (l : Location) (contents : Contents) : Tree :=
  if h : (t.contentsAt? l).isSome then
    { t with
      files := t.files.map fun f => if f.1 == l then (l, contents) else f
      once := (map_fst_replace l contents).symm ▸ t.once }
  else
    { t with
      files := (l, contents) :: t.files
      once := List.nodup_cons.2 ⟨notMem_of_contentsAt? h, t.once⟩ }

/-- The names that lead from one location to another below it. What is outside of a location is not
below it: names that files can have do not lead there. -/
def namesBelow? : Location → Location → Option (List String)
  | [], l => if ∀ name ∈ l, Path.IsName name then some l else none
  | _, [] => none
  | x :: xs, y :: ys => if x = y then namesBelow? xs ys else none

/-- Names in order, by their bytes; a list comes before every longer one that starts with it. -/
def precedes : List String → List String → Bool
  | [], _ => true
  | _ :: _, [] => false
  | a :: as, b :: bs => if a = b then precedes as bs else a < b

/-- The files below a path with the names that lead to them, in the order of the names. For a file
there is only the file itself, with no names. -/
def below (t : Tree) (path : String) : Except FileError (List (List String)) :=
  match t.locate? path with
  | none => .error (.missing path)
  | some l =>
    if t.isDirectoryAt l || (t.contentsAt? l).isSome then
      .ok ((t.files.filterMap fun f => namesBelow? l f.1).mergeSort precedes)
    else .error (.missing path)

/-- The path to a location. -/
def pathTo (l : Location) : String :=
  String.intercalate "/" l

/-- The files of `after` that are not in `t` or hold something else there, in the order of their
paths. -/
def changes (t after : Tree) : List (String × Contents) :=
  let changed := after.files.filter fun f => t.contentsAt? f.1 != some f.2
  (changed.map fun f => (pathTo f.1, f.2)).mergeSort fun a b => a.1 ≤ b.1

end Tree

/-- A computation with a tree. What it changed before it failed stays changed. -/
abbrev TreeM := ExceptT FileError (StateM Tree)

namespace Files

/-- What the file at the end of a path holds. -/
def read (path : String) : TreeM Contents := fun t =>
  match t.contents? path with
  | some contents => (.ok contents, t)
  | none => (.error (if t.isDirectory path then .isDirectory path else .missing path), t)

/-- Puts a file at the end of a path, in place of one that is there. -/
def write (path : String) (contents : Contents) : TreeM Unit := fun t =>
  match t.locate? path with
  | none => (.error (.missing path), t)
  | some l =>
    if t.isDirectoryAt l then (.error (.isDirectory path), t)
    else if t.isDirectoryAt (Tree.above l) then (.ok (), t.setFile l contents)
    else (.error (.missing path), t)

/-- Makes the directories that parts lead through from a location, as far as they are missing. -/
def makeFrom (path : String) (l : Location) : List String → TreeM Unit
  | [] => pure ()
  | part :: rest => fun t =>
    let next := Tree.step l part
    if (t.contentsAt? next).isSome then (.error (.notDirectory path), t)
    else makeFrom path next rest (t.addDirectory next)

/-- Makes the directories on the way to a path, as far as they are missing. -/
def makeParents (path : String) : TreeM Unit :=
  let parts := (Path.segments path).filter fun part => !Path.isIdle part
  makeFrom path (Tree.origin path) parts.dropLast

/-- Puts a file at the end of a path, with the directories on the way. -/
def writeBelow (path : String) (contents : Contents) : TreeM Unit := do
  makeParents path
  write path contents

/-- Copies a file, with the directories on the way. Under the same path nothing happens; a file
copied onto itself under another path loses what it held, because the copy is emptied before it is
filled. -/
def copy (source target : String) : TreeM Unit := do
  if Path.same source target then pure ()
  else do
    makeParents target
    let contents ← read source
    let t ← get
    write target (if t.locate? source == t.locate? target then .bytes [] else contents)

end Files

end ClassTemplates
