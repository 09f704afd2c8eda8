import Std.Data.HashMap
import ClassTemplates.Attribute
import ClassTemplates.Insn.Basic

/-!
# Method bodies

The code of a method with every offset replaced by a label: branch and switch targets, protected
ranges, line numbers, ranges of local variables, stack-map frames and the allocations that frames
name. In this form instructions can be added and replaced freely.

## Main definitions

- `LocalRange`, `BodyAttribute`, `Body` — the parts of a body
- `Body.ofInsns` — a body of instructions alone
- `Body.placements`, `Body.freshLabel`, `Body.prepend`, `Body.withoutCarried` — operations
-/

namespace ClassTemplates

/-- The range of code in which a local variable has a name and a type. -/
structure LocalRange where
  start : Label
  stop : Label
  name : UInt16
  descriptor : UInt16
  index : UInt16
  deriving DecidableEq, Repr

/-- An attribute of a body, with its name where it has one of its own. -/
inductive BodyAttribute
  | lineNumbers (name : UInt16) (entries : List (LineEntry Label))
  | localVariables (name : UInt16) (ranges : List LocalRange)
  | localVariableTypes (name : UInt16) (ranges : List LocalRange)
  /-- Each frame with the label it stands at. An uninitialized type names its allocation by the
  offset that numbers the label there. -/
  | stackMap (name : UInt16) (frames : List (Label × Frame))
  /-- An attribute that is not relocated. -/
  | carried (content : Attribute)
  deriving Repr

/-- The code of a method, addressed by labels. -/
structure Body where
  maxStack : UInt16
  maxLocals : UInt16
  insns : List Insn
  handlers : List (Handler Label)
  attributes : List BodyAttribute
  /-- The number of the next label that nothing uses. -/
  nextLabel : Nat
  deriving Repr

namespace Body

/-- A body of instructions without handlers and attributes. -/
def ofInsns (maxLocals : UInt16) (insns : List Insn) : Body :=
  ⟨0, maxLocals, insns, [], [], 0⟩

/-- A label that nothing in a body made from code uses, and the body that counts it as used. -/
def freshLabel (b : Body) : Label × Body :=
  (⟨b.nextLabel⟩, { b with nextLabel := b.nextLabel + 1 })

/-- The instructions with `insns` in front of everything, labels at the entry included, so that
branches to the first instruction do not run them again. -/
def prepend (b : Body) (insns : List Insn) : Body :=
  { b with insns := insns ++ b.insns }

/-- The attribute that is carried, if the attribute is. -/
def carried? : BodyAttribute → Option Attribute
  | .carried content => some content
  | _ => none

/-- The body without the attributes that are not relocated. -/
def withoutCarried (b : Body) : Body :=
  { b with attributes := b.attributes.filter fun a => (carried? a).isNone }

/-- The names of the attributes that are not relocated. -/
def carriedNames (b : Body) : List UInt16 :=
  (b.attributes.filterMap carried?).map (·.name)

/-- The index of each placed label among instructions that start at index `i`, added to `found`. A
label that is placed twice has its last place. -/
def placementsOnto (found : Std.HashMap Label Nat) (i : Nat) : List Insn → Std.HashMap Label Nat
  | [] => found
  | insn :: rest =>
    placementsOnto (match insn.placed? with
      | some l => found.insert l i
      | none => found) (i + 1) rest

/-- The index of each placed label among the instructions. -/
def placements (b : Body) : Std.HashMap Label Nat :=
  placementsOnto ∅ 0 b.insns

end Body

end ClassTemplates
