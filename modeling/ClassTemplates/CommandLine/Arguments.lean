import ClassTemplates.Settings

/-!
# Arguments

The arguments of the program: a command with its options and its inputs. An option is written with
two dashes and its name or, if it has one, with one dash and its letter. Its value follows as the
next argument, or directly behind the option. Two dashes alone end the options.

## Main definitions

- `OptionForm`, `CommandForm` — what may be written
- `Stop` — why the arguments do not lead to a command
- `CommandForm.parse` — the options and inputs of a command
- `Command`, `Command.ofArguments` — what the program is asked to do
-/

namespace ClassTemplates

/-- An option of a command. -/
structure OptionForm where
  name : String
  letter : Option Char
  takesValue : Bool
  /-- The values that the option takes. -/
  accepts : String → Bool

/-- What may be written for a command. -/
structure CommandForm where
  name : String
  options : List OptionForm
  takesInputs : Bool
  /-- The version of the program can be asked for. -/
  hasVersion : Bool

/-- Why arguments do not lead to a command. -/
inductive Stop
  /-- The arguments are not well formed. -/
  | usage
  /-- Help on a command is asked for; the program itself has no name here. -/
  | help (command : String)
  | version
  deriving DecidableEq, Repr

/-- The options and inputs that are given. -/
structure Given where
  values : List (String × String)
  inputs : Array String
  deriving Repr

namespace Given

/-- Nothing is given. -/
def nothing : Given :=
  ⟨[], #[]⟩

/-- The value of an option. -/
def value? (g : Given) (name : String) : Option String :=
  (g.values.find? fun v => v.1 == name).map (·.2)

/-- One more option. None may be given twice. -/
def add (g : Given) (o : OptionForm) (value : String) : Except Stop Given :=
  if (g.value? o.name).isSome || !o.accepts value then .error .usage
  else .ok { g with values := (o.name, value) :: g.values }

/-- One more input. -/
def addInput (g : Given) (input : String) : Given :=
  { g with inputs := g.inputs.push input }

end Given

namespace CommandForm

/-- The argument is written like an option; a dash alone is not. -/
def isOption (argument : String) : Bool :=
  argument.startsWith "-" && argument != "-"

/-- The option that is written with two dashes: its name, and its value if there is one behind an
equals sign. The option is given back if its value is still to come. -/
def long (form : CommandForm) (g : Given) (name : String) (value : Option String) :
    Except Stop (Given × Option OptionForm) :=
  match form.options.find? (·.name == name), value with
  | some o, some value =>
    if o.takesValue then (g.add o value).map fun g => (g, none) else .error .usage
  | some o, none =>
    if o.takesValue then .ok (g, some o) else (g.add o "").map fun g => (g, none)
  | none, some _ => .error .usage
  | none, none =>
    if name == "help" then .error (.help form.name)
    else if name == "version" && form.hasVersion then .error .version
    else .error .usage

/-- The options that are written with one dash and a letter each. The last one is given back if its
value is still to come. -/
def letters (form : CommandForm) (g : Given) : List Char → Except Stop (Given × Option OptionForm)
  | [] => .ok (g, none)
  | c :: rest =>
    match form.options.find? (·.letter == some c) with
    | some o =>
      if o.takesValue then
        match rest with
        | [] => .ok (g, some o)
        | '=' :: value => (g.add o (String.ofList value)).map fun g => (g, none)
        | value => (g.add o (String.ofList value)).map fun g => (g, none)
      else
        match g.add o "" with
        | .error stop => .error stop
        | .ok g => letters form g rest
    | none =>
      if c == 'h' then .error (.help form.name)
      else if c == 'V' && form.hasVersion then .error .version
      else .error .usage

/-- One argument that is written like an option. -/
def option (form : CommandForm) (g : Given) (argument : String) :
    Except Stop (Given × Option OptionForm) :=
  match argument.toList with
  | '-' :: '-' :: text =>
    match text.dropWhile (· != '=') with
    | '=' :: value =>
      form.long g (String.ofList (text.takeWhile (· != '='))) (some (String.ofList value))
    | _ => form.long g (String.ofList text) none
  | _ => form.letters g (argument.toList.drop 1)

/-- Inputs behind two dashes. -/
def addInputs (form : CommandForm) (g : Given) (inputs : List String) : Except Stop Given :=
  if form.takesInputs || inputs.isEmpty then .ok (inputs.foldl Given.addInput g) else .error .usage

/-- The arguments of a command, on top of what is given already. -/
def parse (form : CommandForm) (g : Given) : List String → Except Stop Given
  | [] => .ok g
  | argument :: rest =>
    if argument == "--" then form.addInputs g rest
    else if isOption argument then
      match form.option g argument, rest with
      | .error stop, _ => .error stop
      | .ok (g, none), rest => parse form g rest
      | .ok (_, some _), [] => .error .usage
      | .ok (g, some o), value :: rest =>
        if isOption value then .error .usage
        else
          match g.add o value with
          | .error stop => .error stop
          | .ok g => parse form g rest
    else if form.takesInputs then parse form (g.addInput argument) rest
    else .error .usage

end CommandForm

/-! ### The commands -/

/-- What the program is asked to do. -/
inductive Command
  /-- Expand the classes of inputs. -/
  | expand (catalog variant : String) (output : Option String) (jobs : Option Nat)
    (lookupClass lookupMethod : Option String) (inputs : List String)
  /-- List the tokens of inputs. -/
  | scan (inputs : List String)
  /-- List the bindings of a catalog. -/
  | list (catalog variant : String)
  deriving DecidableEq, Repr

namespace Command

/-- An option that is on or off. -/
def verbose : OptionForm :=
  ⟨"verbose", some 'v', false, fun _ => true⟩

/-- An option with any text as its value. -/
def textOption (name : String) : OptionForm :=
  ⟨name, none, true, fun _ => true⟩

/-- An option whose value is a path. -/
def pathOption (name : String) (letter : Option Char) : OptionForm :=
  ⟨name, letter, true, fun value => !value.isEmpty⟩

/-- The number of workers. -/
def jobsOption : OptionForm :=
  ⟨"jobs", some 'j', true, fun value => (Settings.ofText? value).isSome⟩

/-- What may be written in front of a command. -/
def programForm : CommandForm :=
  ⟨"", [verbose], false, true⟩

/-- What may be written to expand classes. -/
def expandForm : CommandForm :=
  ⟨"rewrite", [pathOption "catalog" none, textOption "variant", pathOption "output" (some 'o'),
    jobsOption, textOption "lookup-class", textOption "lookup-method", verbose], true, false⟩

/-- What may be written to list tokens. -/
def scanForm : CommandForm :=
  ⟨"scan", [verbose], true, false⟩

/-- What may be written to list bindings. -/
def listForm : CommandForm :=
  ⟨"catalog", [pathOption "catalog" none, textOption "variant", verbose], false, false⟩

/-- The value of an option that has to be given. -/
def needed (g : Given) (name : String) : Except Stop String :=
  match g.value? name with
  | some value => .ok value
  | none => .error .usage

/-- The inputs, of which there has to be one. -/
def someInputs (g : Given) : Except Stop (List String) :=
  if g.inputs.isEmpty then .error .usage else .ok g.inputs.toList

/-- The command with a name. -/
def named (name : String) (arguments : List String) : Except Stop Command :=
  if name == expandForm.name then do
    let g ← expandForm.parse .nothing arguments
    let catalog ← needed g "catalog"
    let variant ← needed g "variant"
    let inputs ← someInputs g
    pure (.expand catalog variant (g.value? "output") ((g.value? "jobs").bind Settings.ofText?)
      (g.value? "lookup-class") (g.value? "lookup-method") inputs)
  else if name == scanForm.name then do
    let g ← scanForm.parse .nothing arguments
    let inputs ← someInputs g
    pure (.scan inputs)
  else if name == listForm.name then do
    let g ← listForm.parse .nothing arguments
    let catalog ← needed g "catalog"
    let variant ← needed g "variant"
    pure (.list catalog variant)
  else .error .usage

/-- The name of the command that explains commands. -/
def helpName : String := "help"

/-- Help on the command that is named, or on the program. -/
def helpOn : List String → Stop
  | [] => .help programForm.name
  | [name] =>
    if name == helpName || [expandForm, scanForm, listForm].any (·.name == name) then .help name
    else .usage
  | _ => .usage

/-- What arguments ask for, on top of what is given in front of the command. -/
def parse (g : Given) : List String → Except Stop Command
  | [] => .error .usage
  | argument :: rest =>
    if argument == "--" then .error .usage
    else if CommandForm.isOption argument then
      match programForm.option g argument with
      | .ok (g, none) => parse g rest
      | .ok (_, some _) => .error .usage
      | .error stop => .error stop
    else if argument == helpName then .error (helpOn rest)
    else named argument rest

/-- What arguments ask for. -/
def ofArguments (arguments : List String) : Except Stop Command :=
  parse .nothing arguments

end Command

end ClassTemplates
