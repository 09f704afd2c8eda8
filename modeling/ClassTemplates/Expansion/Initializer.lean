import ClassTemplates.Expansion.Expander

/-!
# The type initializer

A constant field cannot hold a value that is looked up. Such constants are deferred to the type
initializer of the class: they are assigned in front of the code of the initializer that the class
has, or in a new one. Whichever happens, it happens once.

## Main definitions

- `DeferredConstant` — a field and the text of its value
- `Initializer` — what is known about the initializer of a class, and the constants deferred to it
- `Initializer.defer`, `found`, `finalize` — adding a constant, telling of an initializer, and the
  code to add
-/

namespace ClassTemplates

/-- A constant field whose value holds a bound token. -/
structure DeferredConstant where
  field : String
  text : String
  deriving DecidableEq, Repr

/-- How far a class is with its type initializer. -/
inductive InitializerState
  | notStarted
  /-- The class has an initializer, the method at this position. -/
  | found (method : Nat)
  /-- A new initializer is being made. -/
  | synthesizing
  | finalized
  deriving DecidableEq, Repr

/-- Code to add to a class. -/
inductive Injection
  /-- The instructions go in front of the method at this position. -/
  | prepend (method : Nat) (insns : List Insn)
  /-- The instructions are a new initializer. -/
  | synthesize (insns : List Insn)
  deriving DecidableEq, Repr

/-- What is known about the type initializer of a class. -/
structure Initializer where
  state : InitializerState
  deferred : Array DeferredConstant
  deriving DecidableEq, Repr

namespace Initializer

/-- The start: no initializer has been found and no constant deferred. -/
def new : Initializer :=
  ⟨.notStarted, #[]⟩

/-- The descriptor of the fields that can be deferred. -/
def stringDescriptor : String := "Ljava/lang/String;"

/-- One more constant. -/
def defer (i : Initializer) (c : DeferredConstant) : Initializer :=
  { i with deferred := i.deferred.push c }

/-- The class has an initializer, the method at this position. Only the first one counts. -/
def found (i : Initializer) (method : Nat) : Initializer :=
  match i.state with
  | .notStarted => { i with state := .found method }
  | _ => i

/-- An initializer that is found now is the first one. -/
def isOpen (i : Initializer) : Bool :=
  i.state == .notStarted

/-- The code that puts the value of a text on the stack. -/
def value (catalog : Catalog) (lookup : LookupMethod) (text : String) : ExpanderM (List Insn) := do
  match ← Expander.expand catalog lookup text with
  | some insns => pure insns
  | none => do
    let text ← Expander.load text
    pure [text]

/-- The code that assigns the value of a constant to its field. -/
def assign (catalog : Catalog) (lookup : LookupMethod) (owner : String) (c : DeferredConstant) :
    ExpanderM (List Insn) := do
  let insns ← value catalog lookup c.text
  let field ← Expander.onPool (Pool.addFieldRef owner c.field stringDescriptor)
  pure (insns ++ [.field Opcode.putstatic field])

/-- The code that assigns constants in order, behind that in `done`. -/
def assignOnto (catalog : Catalog) (lookup : LookupMethod) (owner : String) (done : Array Insn) :
    List DeferredConstant → Expander → Except PoolError (Array Insn) × Expander
  | [], e => (.ok done, e)
  | c :: rest, e =>
    match (assign catalog lookup owner c).run e with
    | (.error fault, e) => (.error fault, e)
    | (.ok insns, e) => assignOnto catalog lookup owner (done ++ insns) rest e

/-- The code that assigns constants in order. -/
def assignAll (catalog : Catalog) (lookup : LookupMethod) (owner : String)
    (constants : List DeferredConstant) : ExpanderM (List Insn) := do
  let insns ← ExceptT.mk (assignOnto catalog lookup owner #[] constants)
  pure insns.toList

/-- Where the assignments of a class in the given state go. -/
def inject (state : InitializerState) (insns : List Insn) : Injection :=
  match state with
  | .found method => .prepend method insns
  | _ => .synthesize (insns ++ [.op Opcode.voidReturn])

/-- The state while the assignments are being made. -/
def working : InitializerState → InitializerState
  | .notStarted => .synthesizing
  | state => state

/-- The code to add to the class `owner`, the first time that this is asked for and if a constant
has been deferred by then. If the code cannot be made the constants are gone all the same. -/
def finalize (catalog : Catalog) (lookup : LookupMethod) (owner : String) (i : Initializer)
    (e : Expander) : Except PoolError (Option Injection) × Initializer × Expander :=
  if i.state == .finalized || i.state == .synthesizing then (.ok none, i, e)
  else if i.deferred.isEmpty then (.ok none, { i with state := .finalized }, e)
  else
    match (assignAll catalog lookup owner i.deferred.toList).run e with
    | (.error fault, e) => (.error fault, ⟨working i.state, #[]⟩, e)
    | (.ok insns, e) => (.ok (some (inject i.state insns)), ⟨.finalized, #[]⟩, e)

end Initializer

end ClassTemplates
