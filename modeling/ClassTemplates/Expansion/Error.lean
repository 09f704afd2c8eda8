import ClassTemplates.Depth.Analysis
import ClassTemplates.FormatError
import ClassTemplates.Verify.Class

/-!
# Why a class cannot be expanded

## Main definitions

- `ExpansionError` — the causes
- `ExpansionError.message` — their wording
-/

namespace ClassTemplates

/-- Why a class cannot be expanded. -/
inductive ExpansionError
  /-- The bytes are no class, or a method cannot be taken apart. -/
  | format (cause : FormatError)
  /-- The expanded class is not well formed. -/
  | verification (cause : ClassFault)
  /-- The constants that are needed do not fit the pool. -/
  | pool (cause : PoolError)
  /-- An expanded method has no byte form. -/
  | layout (cause : LayoutError)
  /-- The class does not say how it is called. -/
  | unnamedClass
  /-- A constant to be deferred belongs to a field without a name. -/
  | badFieldName (className : String) (index : UInt16)
  /-- Constants are deferred to an initializer that has no code. -/
  | emptyInitializer (className : String)
  /-- An expanded method, given by name and descriptor, has no stack depths. -/
  | depth (className signature : String) (cause : DepthError)
  deriving DecidableEq, Repr

namespace ExpansionError

/-- A message about a class. -/
def about (className text : String) : String :=
  "Rewrite error in " ++ className ++ ": " ++ text

/-- The name that stands in for one that a class does not have. -/
def unknownName : String := "<unknown>"

/-- The wording of an expansion error. -/
def message : ExpansionError → String
  | format cause => s!"Class format error: {cause.message}"
  | verification cause => s!"Verification failed: {cause.message}"
  | pool cause => s!"Constant pool error: {cause.message}"
  | layout cause => s!"Code error: {cause.message}"
  | unnamedClass => about unknownName "this_class is not a class constant"
  | badFieldName className index => about className s!"bad field name index {index}"
  | emptyInitializer className => about className "type initializer has no code"
  | depth className signature cause => about className s!"{signature}: {cause.message}"

end ExpansionError

end ClassTemplates
