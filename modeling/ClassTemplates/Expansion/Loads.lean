import ClassTemplates.Body.Basic
import ClassTemplates.Expansion.Expander

/-!
# Expanding loads

In the instructions of a method every load of a string with a bound token is replaced by the code
that builds its value. A load whose value goes straight to the lookup method is what an expansion
left behind and stays as it is.

## Main definitions

- `Expander.feedsLookup` — what follows a load passes its value to the lookup method
- `Expander.expandInsn` — the code for one instruction, if it has to be replaced
- `Expander.expandInsns`, `expandBody` — instructions, and a body, with all such loads replaced
-/

namespace ClassTemplates.Expander

/-- The first instruction of `rest` that is not the place of a label calls the lookup method. -/
def feedsLookup (lookup : LookupMethod) (pool : Pool) (rest : List Insn) : Bool :=
  match rest.find? fun insn => !insn.isLabel with
  | some (.invoke opcode index) => opcode == Opcode.invokestatic && isLookup lookup pool index
  | _ => false

/-- The text that an instruction in front of `rest` loads, unless the lookup method gets it. -/
def loadedText? (lookup : LookupMethod) (pool : Pool) (insn : Insn) (rest : List Insn) :
    Option String :=
  match insn with
  | .ldc index => if feedsLookup lookup pool rest then none else pool.stringValue? index
  | _ => none

/-- The code that replaces an instruction in front of `rest`, if any does. -/
def expandInsn (catalog : Catalog) (lookup : LookupMethod) (insn : Insn) (rest : List Insn) :
    ExpanderM (Option (List Insn)) := do
  match loadedText? lookup (← get).pool insn rest with
  | some text => expand catalog lookup text
  | none => pure none

/-- Instructions with their loads replaced, behind those in `done`, and the number of loads replaced
on top of `count`. -/
def expandOnto (catalog : Catalog) (lookup : LookupMethod) (done : Array Insn) (count : Nat) :
    List Insn → Expander → Except PoolError (Nat × Array Insn) × Expander
  | [], e => (.ok (count, done), e)
  | insn :: rest, e =>
    match (expandInsn catalog lookup insn rest).run e with
    | (.error fault, e) => (.error fault, e)
    | (.ok (some insns), e) => expandOnto catalog lookup (done ++ insns) (count + 1) rest e
    | (.ok none, e) => expandOnto catalog lookup (done.push insn) count rest e

/-- The number of loads replaced, and the instructions with these loads replaced. -/
def expandInsns (catalog : Catalog) (lookup : LookupMethod) (insns : List Insn) :
    ExpanderM (Nat × List Insn) := do
  let (count, insns) ← ExceptT.mk (expandOnto catalog lookup #[] 0 insns)
  pure (count, insns.toList)

/-- The number of loads replaced, and the body with these loads replaced. -/
def expandBody (catalog : Catalog) (lookup : LookupMethod) (b : Body) :
    ExpanderM (Nat × Body) := do
  let (count, insns) ← expandInsns catalog lookup b.insns
  pure (count, { b with insns := insns })

end ClassTemplates.Expander
