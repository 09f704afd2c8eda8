import ClassTemplates.Expansion.Class
import ClassTemplates.Settings

/-!
# Outcomes and reports

## Main definitions

- `Outcome`, `Outcome.ofClass` — what became of a class
- `Report` — how many classes met which outcome, and the names of those that changed or failed
- `Report.record`, `Report.skip` — one more class
-/

namespace ClassTemplates

/-- What became of a class. -/
inductive Outcome
  | expanded (bytes : Bytes)
  | unchanged
  | failed (cause : ExpansionError)
  deriving DecidableEq, Repr

/-- What becomes of the class that bytes spell. -/
def Outcome.ofClass (catalog : Catalog) (lookup : LookupMethod) (bytes : Bytes) : Outcome :=
  match ClassFile.expandBytes catalog lookup bytes with
  | .ok (some bytes) => expanded bytes
  | .ok none => unchanged
  | .error cause => failed cause

/-- What a file with the given bytes holds after an outcome. -/
def Outcome.result (o : Outcome) (bytes : Bytes) : Bytes :=
  match o with
  | expanded bytes => bytes
  | _ => bytes

/-- The class has changed. -/
def Outcome.isExpanded : Outcome → Bool
  | expanded _ => true
  | _ => false

/-- A class that could not be expanded. -/
structure FailedClass where
  name : String
  cause : ExpansionError
  deriving DecidableEq, Repr

/-- What became of the classes of a run. -/
structure Report where
  /-- The names of the classes that changed, in order. -/
  expanded : Array String
  unchanged : Nat
  /-- The number of class files that were left alone. -/
  skipped : Nat
  failed : Array FailedClass
  deriving DecidableEq, Repr

namespace Report

/-- The report on no classes. -/
def empty : Report :=
  ⟨#[], 0, 0, #[]⟩

/-- The report with one more class. -/
def record (r : Report) (name : String) : Outcome → Report
  | .expanded _ => { r with expanded := r.expanded.push name }
  | .unchanged => { r with unchanged := r.unchanged + 1 }
  | .failed cause => { r with failed := r.failed.push ⟨name, cause⟩ }

/-- The report with one more class file that was left alone. -/
def skip (r : Report) : Report :=
  { r with skipped := r.skipped + 1 }

/-- The report with one more class file, left alone if there is no outcome. -/
def add (r : Report) (name : String) : Option Outcome → Report
  | some o => r.record name o
  | none => r.skip

/-- No class has failed. -/
def isSuccess (r : Report) : Bool :=
  r.failed.isEmpty

end Report

end ClassTemplates
