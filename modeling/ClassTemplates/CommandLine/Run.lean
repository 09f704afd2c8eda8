import ClassTemplates.Batch.CatalogFiles
import ClassTemplates.Batch.Run
import ClassTemplates.CommandLine.Arguments
import ClassTemplates.Json.Printer
import ClassTemplates.Scan

/-!
# The program

What the program prints and what becomes of the files, for arguments and environment variables.

## Main definitions

- `Output` — what is printed, and the exit code
- `CommandLine.paths` — the paths that the program goes to
- `CommandLine.run` — the program
-/

namespace ClassTemplates

/-- What a program prints, and its exit code. -/
structure Output where
  stdout : String
  stderr : String
  code : Nat
  deriving DecidableEq, Repr

/-- Why the program fails. -/
inductive Complaint
  | run (cause : RunError)
  /-- An archive cannot be read where nothing is expanded. -/
  | unreadable (cause : ArchiveError)
  /-- The catalog of a directory cannot be loaded. -/
  | loading (directory : String) (cause : RunError)
  /-- Some classes could not be expanded. -/
  | failedClasses (count : Nat)
  deriving DecidableEq, Repr

namespace Complaint

/-- The complaint about an input of which only the tokens are listed. -/
def ofListing : RunError → Complaint
  | .archive _ cause => unreadable cause
  | cause => run cause

/-- The line below a complaint that tells what lies behind it. -/
def reasonText (reason : String) : String :=
  "\nCaused by:\n    " ++ reason ++ "\n"

/-- How a complaint is printed. -/
def text : Complaint → String
  | run cause =>
    "Error: " ++ cause.message ++ "\n" ++ ((cause.reason?.map reasonText).getD "")
  | unreadable cause => "Error: " ++ cause.message ++ "\n"
  | loading directory cause =>
    "Error: loading catalog from " ++ directory ++ "\n" ++ reasonText cause.message
  | failedClasses count => s!"Error: {count} classes could not be rewritten\n"

end Complaint

namespace Output

/-- Nothing is printed. -/
def silent : Output :=
  ⟨"", "", 0⟩

/-- Printed on the output. -/
def print (o : Output) (text : String) : Output :=
  { o with stdout := o.stdout ++ text }

/-- Printed beside the output. -/
def warn (o : Output) (text : String) : Output :=
  { o with stderr := o.stderr ++ text }

/-- The program fails with a complaint. -/
def fail (o : Output) (c : Complaint) : Output :=
  { o.warn c.text with code := 1 }

end Output

namespace CommandLine

/-- The name and the version of the program. -/
def versionText : String := "flavorize 0.1.0\n"

/-- Lines of text, each with its end. -/
def lines (texts : List String) : String :=
  String.join (texts.map (· ++ "\n"))

/-- The help on the program. -/
def programHelp : String :=
  lines [
    "Rewrite templated string constants in compiled classes into per-flavor lookups",
    "",
    "Usage: flavorize [OPTIONS] <COMMAND>",
    "",
    "Commands:",
    "  rewrite  Rewrite class directories, jars or class files",
    "  scan     List template occurrences without rewriting",
    "  catalog  Print the bindings a catalog yields for a variant",
    "  help     Print this message or the help of the given subcommand(s)",
    "",
    "Options:",
    "  -v, --verbose  Verbose output",
    "  -h, --help     Print help",
    "  -V, --version  Print version"]

/-- The help on the command that expands classes. -/
def expandHelp : String :=
  lines [
    "Rewrite class directories, jars or class files",
    "",
    "Usage: flavorize rewrite [OPTIONS] --catalog <DIR> --variant <VARIANT> <INPUT>...",
    "",
    "Arguments:",
    "  <INPUT>...  Inputs: directories, jars or class files",
    "",
    "Options:",
    "      --catalog <DIR>           Directory holding one JSON asset per module",
    "      --variant <VARIANT>       Build variant whose entries are used",
    "  -o, --output <DIR>            Write results here instead of rewriting in place",
    "  -j, --jobs <JOBS>             Worker threads",
    "      --lookup-class <CLASS>    Internal or dotted name of the lookup class",
    "      --lookup-method <METHOD>  Name of the static lookup method",
    "  -v, --verbose                 Verbose output",
    "  -h, --help                    Print help"]

/-- The help on the command that lists tokens. -/
def scanHelp : String :=
  lines [
    "List template occurrences without rewriting",
    "",
    "Usage: flavorize scan [OPTIONS] <INPUT>...",
    "",
    "Arguments:",
    "  <INPUT>...  Inputs: directories, jars or class files",
    "",
    "Options:",
    "  -v, --verbose  Verbose output",
    "  -h, --help     Print help"]

/-- The help on the command that lists bindings. -/
def listHelp : String :=
  lines [
    "Print the bindings a catalog yields for a variant",
    "",
    "Usage: flavorize catalog [OPTIONS] --catalog <DIR> --variant <VARIANT>",
    "",
    "Options:",
    "      --catalog <DIR>      Directory holding one JSON asset per module",
    "      --variant <VARIANT>  Build variant whose entries are used",
    "  -v, --verbose            Verbose output",
    "  -h, --help               Print help"]

/-- The help on the command that explains commands. -/
def helpHelp : String :=
  lines [
    "Print this message or the help of the given subcommand(s)",
    "",
    "Usage: flavorize help [OPTIONS] [COMMAND]...",
    "",
    "Arguments:",
    "  [COMMAND]...  Print help for the subcommand(s)",
    "",
    "Options:",
    "  -v, --verbose  Verbose output"]

/-- The help on a command, or on the program. -/
def helpText (command : String) : String :=
  if command == Command.expandForm.name then expandHelp
  else if command == Command.scanForm.name then scanHelp
  else if command == Command.listForm.name then listHelp
  else if command == Command.helpName then helpHelp
  else programHelp

/-- What is printed where arguments do not lead to a command. -/
def stopped : Stop → Output
  | .usage => ⟨"", "error: invalid arguments\n\nFor more information, try '--help'.\n", 2⟩
  | .help command => Output.silent.print (helpText command)
  | .version => Output.silent.print versionText

/-- The settings that the environment gives. -/
def environmentSettings (env : String → Option String) : Except Complaint Settings :=
  (Settings.standard.overridden env).mapError fun e => .run (.settings e)

/-! ### Expanding classes -/

/-- The settings of the environment, changed by options. -/
def optionSettings (env : String → Option String) (jobs : Option Nat)
    (lookupClass lookupMethod : Option String) : Except Complaint Settings := do
  let s ← environmentSettings env
  let owner := ((lookupClass.map internalName).getD s.lookup.owner)
  let s : Settings := ⟨⟨owner, lookupMethod.getD s.lookup.name⟩, s.excluded, jobs.or s.jobs⟩
  s.check.mapError fun e => .run (.settings e)
  pure s

/-- A line for a class that could not be expanded. -/
def failedLine (f : FailedClass) : String :=
  "failed: " ++ f.name ++ ": " ++ f.cause.message ++ "\n"

/-- What is printed for a report. -/
def reportOutput (r : Report) : Output :=
  let o := r.failed.foldl (fun o f => o.warn (failedLine f)) Output.silent
  let changed := r.expanded.size
  let unchanged := r.unchanged
  let skipped := r.skipped
  let failed := r.failed.size
  let o := o.print
    s!"{changed} rewritten, {unchanged} unchanged, {skipped} skipped, {failed} failed\n"
  if r.isSuccess then o else o.fail (.failedClasses r.failed.size)

/-- The catalog and the inputs of a command to expand classes. -/
def prepare (t : Tree) (s : Settings) (directory variant : String) (lists : List String) :
    Except Complaint (Job × List Input) := do
  let catalog ← (Catalog.load t directory variant).mapError (.loading directory)
  let inputs ← (Input.resolve t lists).mapError .run
  pure (⟨catalog, s⟩, inputs)

/-- Expands the classes of inputs. -/
def expand (s : Settings) (directory variant : String) (output : Option String)
    (lists : List String) (t : Tree) : Output × Tree :=
  match prepare t s directory variant lists with
  | .error c => (Output.silent.fail c, t)
  | .ok (job, inputs) =>
    match (job.run inputs output).run t with
    | (.ok report, t) => (reportOutput report, t)
    | (.error cause, t) => (Output.silent.fail (.run cause), t)

/-! ### Listing tokens -/

/-- A class file of an input. -/
structure NamedClass where
  name : String
  bytes : Bytes

/-- The class file at the end of a path. -/
def classAt (t : Tree) (path name : String) : Except RunError NamedClass :=
  match t.contents? path with
  | some contents => .ok ⟨name, contents.toBytes⟩
  | none => .error (.file (.missing path))

/-- The name of a file below a directory. Backslashes count as slashes. -/
def nameBelow (names : List String) : String :=
  (String.intercalate "/" names).map fun c => if c = '\\' then '/' else c

/-- The class files of an input. -/
def classesOf (t : Tree) : Input → Except RunError (List NamedClass)
  | .directory path => do
    let classes ← t.classFiles path
    classes.mapM fun names => classAt t (Tree.pathBelow path names) (nameBelow names)
  | .archive path => do
    match t.contents? path with
    | some contents =>
      let entries ← (contents.entriesNamed Job.isClassEntryName).mapError (.archive path)
      pure (entries.map fun entry => ⟨entry.name, entry.bytes⟩)
    | none => .error (.file (.missing path))
  | .classFile path => do
    let c ← classAt t path (Path.fileName path)
    pure [c]

/-- A line for a text with tokens. -/
def findingLine (className : String) (f : Finding) : String :=
  let place := match f.offset with
    | some offset => s!"@{offset}"
    | none => ""
  className ++ " " ++ f.member ++ place ++ ": " ++ String.intercalate ", " f.tokens ++ "\n"

/-- The tokens of a class are printed, or why it cannot be read. -/
def scanClass (s : Settings) (o : Output) (c : NamedClass) : Output :=
  if s.selects c.name then
    match Scan.ofBytes c.bytes with
    | .ok (className, findings) => findings.foldl (fun o f => o.print (findingLine className f)) o
    | .error cause => o.warn (c.name ++ ": " ++ (ExpansionError.format cause).message ++ "\n")
  else o

/-- The tokens of inputs are printed, up to an input that cannot be read. -/
def scanInputs (t : Tree) (s : Settings) (o : Output) : List Input → Output
  | [] => o
  | input :: rest =>
    match classesOf t input with
    | .error cause => o.fail (.ofListing cause)
    | .ok classes => scanInputs t s (classes.foldl (scanClass s) o) rest

/-- Lists the tokens of inputs. -/
def scan (t : Tree) (env : String → Option String) (lists : List String) : Output :=
  match environmentSettings env with
  | .error c => Output.silent.fail c
  | .ok s =>
    match Input.resolve t lists with
    | .error cause => Output.silent.fail (.run cause)
    | .ok inputs => scanInputs t s .silent inputs

/-! ### Listing bindings -/

/-- A binding as JSON. -/
def bindingJson (b : Binding) : Json :=
  .object [("module_id", .string b.moduleId), ("key", .string b.key),
    ("literal_fallback", .string b.fallback)]

/-- Lists the bindings of a catalog. -/
def list (t : Tree) (directory variant : String) : Output :=
  match Catalog.load t directory variant with
  | .error cause => Output.silent.fail (.run cause)
  | .ok catalog =>
    Output.silent.print (Json.pretty (.array (catalog.toList.map bindingJson)) ++ "\n")

/-! ### The program -/

/-- The paths that a command goes to. -/
def pathsOf : Command → List String
  | .expand directory _ output _ _ _ lists =>
    directory :: output.toList ++ lists.flatMap Input.listed
  | .scan lists => lists.flatMap Input.listed
  | .list directory _ => [directory]

/-- The paths that the program goes to. -/
def paths (arguments : List String) : List String :=
  match Command.ofArguments arguments with
  | .ok command => pathsOf command
  | .error _ => []

/-- What a command prints, and the files after it. -/
def runCommand (env : String → Option String) (t : Tree) : Command → Output × Tree
  | .expand directory variant output jobs lookupClass lookupMethod lists =>
    match optionSettings env jobs lookupClass lookupMethod with
    | .error c => (Output.silent.fail c, t)
    | .ok s => expand s directory variant output lists t
  | .scan lists => (scan t env lists, t)
  | .list directory variant => (list t directory variant, t)

/-- What the program prints, and the files after it. -/
def run (arguments : List String) (env : String → Option String) (t : Tree) : Output × Tree :=
  match Command.ofArguments arguments with
  | .error stop => (stopped stop, t)
  | .ok command => runCommand env t command

end CommandLine

end ClassTemplates
