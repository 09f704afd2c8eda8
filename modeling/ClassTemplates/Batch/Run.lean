import ClassTemplates.Batch.Input
import ClassTemplates.Batch.Report

/-!
# Runs over inputs

Every selected class of the inputs is expanded. Without an output directory the files are changed
where they are; with one, the files of a directory keep their place below it, and archives and
single class files are written to it under their names. A class that cannot be expanded keeps its
bytes and is reported.

## Main definitions

- `Job` — what is needed to expand a class
- `Job.outcome?` — what becomes of a class file, if it is selected
- `Job.archive` — what becomes of an archive
- `Job.directory`, `archiveFile`, `classFile` — the three kinds of inputs
- `Job.run` — a run over inputs
-/

namespace ClassTemplates

/-- What is needed to expand a class. -/
structure Job where
  catalog : Catalog
  settings : Settings

namespace Job

/-- What becomes of a class file, if it is selected. -/
def outcome? (job : Job) (name : String) (bytes : Bytes) : Option Outcome :=
  if job.settings.selects name then some (Outcome.ofClass job.catalog job.settings.lookup bytes)
  else none

/-! ### Directories -/

/-- A class file of a directory: the names that lead to it, what it holds, and what becomes of it.
-/
structure Visited where
  names : List String
  contents : Contents
  outcome : Option Outcome

/-- The path of a class file as it is reported. -/
def Visited.name (v : Visited) : String :=
  String.intercalate "/" v.names

/-- A class file of a directory is looked at. -/
def visit (job : Job) (t : Tree) (root : String) (names : List String) :
    Except RunError Visited := do
  let path := Tree.pathBelow root names
  match t.contents? path with
  | none => .error (.file (.missing path))
  | some contents =>
    pure ⟨names, contents, job.outcome? (String.intercalate "/" names) contents.toBytes⟩

/-- Writes a class file of a directory, or copies it if it has not changed. -/
def place (root : String) (output : Option String) (v : Visited) : TreeM Unit :=
  let source := Tree.pathBelow root v.names
  let target := (output.map fun out => Tree.pathBelow out v.names).getD source
  match v.outcome, output with
  | some (.expanded bytes), _ => Files.writeBelow target (.bytes bytes)
  | _, some _ => Files.copy source target
  | _, none => pure ()

/-- Class files of a directory are reported and written, one after the other. -/
def placeAll (root : String) (output : Option String) (report : Report) :
    List Visited → RunM Report
  | [] => pure report
  | v :: rest => do
    RunM.onFiles (place root output v)
    placeAll root output (report.add v.name v.outcome) rest

/-- Copies the files of a directory that are not among its class files. -/
def copyOthers (root output : String) (classes : List (List String)) : RunM Unit := do
  let all ← RunM.look fun t => (t.below root).mapError .file
  for names in all do
    if !classes.contains names then
      RunM.onFiles (Files.copy (Tree.pathBelow root names) (Tree.pathBelow output names))

/-- A directory of class files. -/
def directory (job : Job) (root : String) (output : Option String) (report : Report) :
    RunM Report := do
  let visited ← RunM.look fun t => do
    let classes ← t.classFiles root
    classes.mapM (job.visit t root)
  let report ← placeAll root output report visited
  match output with
  | none => pure report
  | some out => do
    copyOthers root out (visited.map (·.names))
    pure report

/-! ### Archives -/

/-- An entry of this name is offered as a class file. -/
def isClassEntryName (name : String) : Bool :=
  !ArchiveEntry.isDirectoryName name && Settings.isClassName name

/-- The entry is offered as a class file. -/
def isClassEntry (entry : ArchiveEntry) : Bool :=
  isClassEntryName entry.name

/-- An entry as it is written after the run, and what has become of it if it is a class file. -/
def resultEntry (job : Job) (entry : ArchiveEntry) : ArchiveEntry × Option (Option Outcome) :=
  if isClassEntry entry then
    let o := job.outcome? entry.name entry.bytes
    ({ entry with bytes := (o.map fun o => o.result entry.bytes).getD entry.bytes }, some o)
  else (entry.written, none)

/-- The report with one more entry. -/
def addEntry (report : Report) (entry : ArchiveEntry) : Option (Option Outcome) → Report
  | some o => report.add entry.name o
  | none => report

/-- The entries of an archive after the run, the report on them, and whether one has changed. -/
def archive (job : Job) (entries : List ArchiveEntry) (report : Report) :
    List ArchiveEntry × Report × Bool :=
  let results := entries.map job.resultEntry
  (results.map (·.1), results.foldl (fun r x => addEntry r x.1 x.2) report,
    results.any fun x =>
      match x.2 with
      | some (some o) => o.isExpanded
      | _ => false)

/-- The entries of the file at the end of a path. -/
def entriesOf (path : String) : RunM (List ArchiveEntry) := do
  let contents ← RunM.onFiles (Files.read path)
  match contents.entries with
  | .ok entries => pure entries
  | .error cause => throw (.archive path cause)

/-- An archive. Where it is it is only written if an entry has changed. -/
def archiveFile (job : Job) (path : String) (output : Option String) (report : Report) :
    RunM Report := do
  let entries ← entriesOf path
  let (entries, report, changed) := job.archive entries report
  if output.isNone && !changed then pure report
  else do
    let target := (output.map fun out => Path.join out (Path.fileName path)).getD path
    RunM.onFiles (Files.writeBelow target (.archive entries))
    pure report

/-! ### Class files -/

/-- A single class file. -/
def classFile (job : Job) (path : String) (output : Option String) (report : Report) :
    RunM Report := do
  let name := Path.fileName path
  let target := output.map fun out => Path.join out name
  if job.settings.selects name then
    let bytes := (← RunM.onFiles (Files.read path)).toBytes
    let o := Outcome.ofClass job.catalog job.settings.lookup bytes
    match o, target with
    | .expanded bytes, _ => RunM.onFiles (Files.writeBelow (target.getD path) (.bytes bytes))
    | _, some target => RunM.onFiles (Files.writeBelow target (.bytes bytes))
    | _, none => pure ()
    pure (report.record name o)
  else do
    match target with
    | some target => RunM.onFiles (Files.copy path target)
    | none => pure ()
    pure report.skip

/-! ### Runs -/

/-- One input. -/
def input (job : Job) (output : Option String) (report : Report) : Input → RunM Report
  | .directory path => job.directory path output report
  | .archive path => job.archiveFile path output report
  | .classFile path => job.classFile path output report

/-- All inputs, one after the other. -/
def run (job : Job) (inputs : List Input) (output : Option String) : RunM Report :=
  inputs.foldlM (job.input output) .empty

end Job

end ClassTemplates
