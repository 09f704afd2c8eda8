import ClassTemplates.Text.Blank

/-!
# Settings

Which method is called to look up a token, which class files are left alone, and how many workers
are asked for. Settings start from defaults and can be overridden by environment variables.

## Main definitions

- `LookupMethod` — the class and the name of the lookup method
- `Settings`, `Settings.standard` — the settings and their defaults
- `Settings.overridden` — settings changed by variables
- `Settings.check` — the rules that settings obey
- `Settings.selects` — the class files that are offered for expansion
-/

namespace ClassTemplates

/-- A class name with slashes in place of dots. -/
def internalName (name : String) : String :=
  name.map fun c => if c = '.' then '/' else c

/-- What follows the last character of `text` for which `p` holds; all of it if there is none. -/
def lastSegment (p : Char → Bool) (text : String) : String :=
  String.ofList (text.toList.reverse.takeWhile fun c => !p c).reverse

/-- The static method that is called for the value of a token. -/
structure LookupMethod where
  /-- The class of the method, with slashes. -/
  owner : String
  name : String
  deriving DecidableEq, Repr

namespace LookupMethod

/-- The method takes a module, a key and what to fall back to, and gives a string. -/
def descriptor : String :=
  "(Ljava/lang/String;Ljava/lang/String;Ljava/lang/String;)Ljava/lang/String;"

/-- The method that is called unless another is set. -/
def standard : LookupMethod :=
  ⟨"com/android/BuildConfigDelegate", "getString"⟩

/-- The name of the file that holds the class of the method. -/
def fileName (m : LookupMethod) : String :=
  lastSegment (· == '/') m.owner ++ ".class"

end LookupMethod

/-- The settings of a run. -/
structure Settings where
  lookup : LookupMethod
  /-- The names of class files that are never offered for expansion. -/
  excluded : List String
  /-- The number of workers, if it is set. -/
  jobs : Option Nat
  deriving DecidableEq, Repr

/-- What is wrong with settings. -/
inductive SettingsError
  | noLookupClass
  | badLookupMethod (name : String)
  | noWorkers
  /-- The number of workers is set to a text that is no number. -/
  | badJobs (text : String)
  deriving DecidableEq, Repr

namespace Settings

/-- The variable that sets the class of the lookup method. -/
def lookupClassVariable : String := "FLAVORIZE_LOOKUP_CLASS"

/-- The variable that sets the name of the lookup method. -/
def lookupMethodVariable : String := "FLAVORIZE_LOOKUP_METHOD"

/-- The variable that lists further class files to leave alone. -/
def excludeVariable : String := "FLAVORIZE_EXCLUDE"

/-- The variable that sets the number of workers. -/
def jobsVariable : String := "FLAVORIZE_JOBS"

/-- The names of the variables that can override settings. -/
def variableNames : List String :=
  [lookupClassVariable, lookupMethodVariable, excludeVariable, jobsVariable]

end Settings

/-- The wording of a settings error. -/
def SettingsError.message : SettingsError → String
  | noLookupClass => "lookup class must not be empty"
  | badLookupMethod name => "'" ++ name ++ "' is not a valid lookup method name"
  | noWorkers => "jobs must be at least 1"
  | badJobs text => Settings.jobsVariable ++ " must be a positive integer, got '" ++ text ++ "'"

namespace Settings

/-- The settings of a run that nothing is set for. -/
def standard : Settings :=
  ⟨.standard, ["R.class", "BuildConfig.class", "module-info.class"], none⟩

/-- The characters that the name of a method cannot have. -/
def forbiddenInMethod (c : Char) : Bool :=
  ['.', ';', '[', '/', '<', '>'].contains c

/-- Settings name a class and a method, and at least one worker if any number. -/
def check (s : Settings) : Except SettingsError Unit :=
  if s.lookup.owner.isEmpty then .error .noLookupClass
  else if s.lookup.name.isEmpty || s.lookup.name.toList.any forbiddenInMethod then
    .error (.badLookupMethod s.lookup.name)
  else if s.jobs = some 0 then .error .noWorkers
  else .ok ()

/-- The largest number of workers that can be written. -/
def maxJobs : Nat := UInt64.size - 1

/-- The number that decimal digits spell, if there are any and it is not too large. -/
def count? (digits : List Char) : Option Nat :=
  if digits.isEmpty || !digits.all Char.isDigit then none
  else
    let n := digits.foldl (fun n c => n * 10 + (c.toNat - 48)) 0
    if n ≤ maxJobs then some n else none

/-- A count as it is written: digits, behind a plus sign or not. -/
def ofText? (text : String) : Option Nat :=
  match text.toList with
  | '+' :: digits => count? digits
  | digits => count? digits

/-- The value of a variable without the blanks around it; `none` if nothing else is left. -/
def nonBlank? (value : Option String) : Option String :=
  value.bind fun text => if Text.isBlankText text then none else some (Text.trim text)

/-- The parts of a list that commas divide, without the blanks around them. -/
def listed (text : String) : List String :=
  ((Text.split ',' text).map Text.trim).filter fun part => !part.isEmpty

/-- The settings with the values of variables in place of their own. -/
def overridden (s : Settings) (var : String → Option String) : Except SettingsError Settings := do
  let owner := ((nonBlank? (var lookupClassVariable)).map internalName).getD s.lookup.owner
  let name := (nonBlank? (var lookupMethodVariable)).getD s.lookup.name
  let excluded := s.excluded ++ ((var excludeVariable).map listed).getD []
  let jobs ← match var jobsVariable with
    | none => pure s.jobs
    | some text =>
      match ofText? (Text.trim text) with
      | some n => pure (some n)
      | none => .error (.badJobs text)
  let changed : Settings := ⟨⟨owner, name⟩, excluded, jobs⟩
  changed.check
  pure changed

/-- The names of class files end like this. -/
def isClassName (name : String) : Bool :=
  name.endsWith ".class"

/-- A class file is offered for expansion, judged by the last segment of its name. Resource classes,
the class of the lookup method and the excluded ones are not. -/
def selects (s : Settings) (name : String) : Bool :=
  let file := lastSegment (fun c => c == '/' || c == '\\') name
  isClassName file && !file.startsWith "R$" && file != s.lookup.fileName
    && !s.excluded.contains file

end Settings

end ClassTemplates
