import ClassTemplates.Expansion.Segment
import ClassTemplates.Insn.Basic
import ClassTemplates.Pool.Basic
import ClassTemplates.Settings

/-!
# Expanding a text

A text with bound tokens becomes code that builds its value: a string builder to which each segment
is appended, bound tokens by way of the lookup method. The code leaves one string on the stack. The
constants it needs are added to a pool, those of the builder once.

## Main definitions

- `BuilderMembers` — the indices of the members that every expansion uses
- `Expander` — a pool, the members once they are in it, and what has been expanded so far
- `Expander.expand` — the code for a text
-/

namespace ClassTemplates

/-- The indices of the members that every expansion uses. -/
structure BuilderMembers where
  builder : UInt16
  init : UInt16
  append : UInt16
  toText : UInt16
  lookup : UInt16
  deriving DecidableEq, Repr

/-- How much has been expanded. -/
structure ExpansionStats where
  /-- Texts that were expanded. -/
  expansions : Nat
  /-- Bound tokens in them. -/
  lookups : Nat
  /-- Tokens without a binding in them. -/
  unresolved : Nat
  deriving DecidableEq, Repr

/-- A pool that expansions add to. -/
structure Expander where
  pool : Pool
  /-- The members that expansions use, once they have been added. -/
  members : Option BuilderMembers
  stats : ExpansionStats
  deriving Repr

/-- A computation with an expander. What it did before it failed stays done. -/
abbrev ExpanderM := ExceptT PoolError (StateM Expander)

namespace Expander

/-- The expander of a pool that nothing has been expanded into. -/
def ofPool (pool : Pool) : Expander :=
  ⟨pool, none, ⟨0, 0, 0⟩⟩

/-- The class that builds strings. -/
def builderClass : String := "java/lang/StringBuilder"

/-- Adding to the pool of an expander. -/
def onPool (x : PoolM α) : ExpanderM α := fun e =>
  match e with
  | ⟨pool, members, stats⟩ =>
    match x pool with
    | (result, pool) => (result, ⟨pool, members, stats⟩)

/-- Changing the counts of an expander. -/
def count (f : ExpansionStats → ExpansionStats) : ExpanderM Unit := fun e =>
  match e with
  | ⟨pool, members, stats⟩ => (.ok (), ⟨pool, members, f stats⟩)

/-- Keeping the members that expansions use. -/
def keepMembers (m : BuilderMembers) : ExpanderM Unit := fun e =>
  match e with
  | ⟨pool, _, stats⟩ => (.ok (), ⟨pool, some m, stats⟩)

/-- The members that expansions use, added to a pool. -/
def addMembers (lookup : LookupMethod) : PoolM BuilderMembers := do
  let builder ← Pool.addClass builderClass
  let init ← Pool.addMethodRef builderClass "<init>" "()V"
  let append ←
    Pool.addMethodRef builderClass "append" "(Ljava/lang/String;)Ljava/lang/StringBuilder;"
  let toText ← Pool.addMethodRef builderClass "toString" "()Ljava/lang/String;"
  let lookup ← Pool.addMethodRef lookup.owner lookup.name LookupMethod.descriptor
  pure ⟨builder, init, append, toText, lookup⟩

/-- The members that expansions use, added at the first call. -/
def getMembers (lookup : LookupMethod) : ExpanderM BuilderMembers := do
  match (← get).members with
  | some m => pure m
  | none => do
    let m ← onPool (addMembers lookup)
    keepMembers m
    pure m

/-- The load of a text. -/
def load (text : String) : ExpanderM Insn := do
  let index ← onPool (Pool.addString text)
  pure (.ldc index)

/-- The code that puts the value of a segment on the stack. -/
def push (m : BuilderMembers) : Segment → ExpanderM (List Insn)
  | .literal text => do
    let text ← load text
    pure [text]
  | .unbound token => do
    let token ← load token
    count fun s => { s with unresolved := s.unresolved + 1 }
    pure [token]
  | .bound binding => do
    let moduleId ← load binding.moduleId
    let key ← load binding.key
    let fallback ← load binding.fallback
    count fun s => { s with lookups := s.lookups + 1 }
    pure [moduleId, key, fallback, .invoke Opcode.invokestatic m.lookup]

/-- The code that appends the value of each segment to the builder on the stack, behind that in
`done`. -/
def appendOnto (m : BuilderMembers) (done : Array Insn) :
    List Segment → Expander → Except PoolError (Array Insn) × Expander
  | [], e => (.ok done, e)
  | segment :: rest, e =>
    match (push m segment).run e with
    | (.error fault, e) => (.error fault, e)
    | (.ok insns, e) =>
      appendOnto m ((done ++ insns).push (.invoke Opcode.invokevirtual m.append)) rest e

/-- The code that makes a builder. -/
def start (m : BuilderMembers) : Array Insn :=
  #[.type Opcode.newObject m.builder, .op Opcode.dup, .invoke Opcode.invokespecial m.init]

/-- The code that builds the value of segments. -/
def build (lookup : LookupMethod) (segments : List Segment) : ExpanderM (List Insn) := do
  let m ← getMembers lookup
  let insns ← ExceptT.mk (appendOnto m (start m) segments)
  count fun s => { s with expansions := s.expansions + 1 }
  pure (insns.push (.invoke Opcode.invokevirtual m.toText)).toList

/-- The code that builds the value of a text; `none` for a text without bound tokens. -/
def expand (catalog : Catalog) (lookup : LookupMethod) (text : String) :
    ExpanderM (Option (List Insn)) := do
  let segments := Segment.ofText catalog text
  if segments.any Segment.isBound then
    let insns ← build lookup segments
    pure (some insns)
  else pure none

/-- The index names a reference to the lookup method. -/
def isLookup (lookup : LookupMethod) (pool : Pool) (index : UInt16) : Bool :=
  match pool.member? index with
  | some m =>
    m.owner == lookup.owner && m.name == lookup.name && m.descriptor == LookupMethod.descriptor
  | none => false

end Expander

end ClassTemplates
