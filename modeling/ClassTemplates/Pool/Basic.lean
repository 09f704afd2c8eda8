import ClassTemplates.FormatError
import ClassTemplates.Pool.Constant

/-!
# Constant pools

Entries are numbered from one. A `long` or `double` takes two numbers, the second of which holds
`Constant.secondSlot`, so every index read from a class file keeps naming the same entry when
constants are appended. Additions only ever append, and reuse an entry that is the same.

## Main definitions

- `Pool` — the slots in order
- `Pool.get?`, `entries`, `count` — views of a pool
- `Pool.fits`, `append` — room for a constant, and the pool with it
- `PoolM` — computations that may append to a pool and may run out of space
- `Pool.ofConstants` — the pool of a list of constants
- `Pool.push`, `insert`, `addUtf8`, `addClass`, … — the index of a constant, appended if it is
  absent
- `Pool.utf8?`, `className?`, … — the texts an entry stands for
-/

namespace ClassTemplates

/-- A constant pool: slot `i` of the list has index `i + 1`. -/
structure Pool where
  slots : Array Constant
  deriving DecidableEq, Repr

/-- The texts that a field or method reference stands for. -/
structure MemberRef where
  owner : String
  name : String
  descriptor : String
  deriving DecidableEq, Repr

namespace Pool

/-- The pool without entries. -/
def empty : Pool :=
  ⟨#[]⟩

/-- The number of slots a pool may have: the largest index is one below the largest word. -/
def maxSlots : Nat := 65534

/-- The number written in front of a pool: one more than its last index. -/
def count (p : Pool) : UInt16 :=
  UInt16.ofNat (p.slots.size + 1)

/-- The entry with an index. -/
def get? (p : Pool) (index : UInt16) : Option Constant :=
  if index = 0 then none else p.slots[index.toNat - 1]?

/-- All entries with their indices, in order and without second slots. -/
def entries (p : Pool) : List (UInt16 × Constant) :=
  (p.slots.toList.zipIdx 1).filterMap fun (c, i) =>
    if c = .secondSlot then none else some (UInt16.ofNat i, c)

/-- The index that the next constant gets. -/
def nextIndex (p : Pool) : UInt16 :=
  UInt16.ofNat (p.slots.size + 1)

/-- There is room for `c`. -/
def fits (p : Pool) (c : Constant) : Bool :=
  p.slots.size + c.width ≤ maxSlots

/-- The pool with `c` behind its entries, followed by a second slot if `c` takes two. -/
def append (p : Pool) (c : Constant) : Pool :=
  let slots := p.slots.push c
  ⟨if c.width = 2 then slots.push .secondSlot else slots⟩

/-- The index of the first entry that is the same as `c`. -/
def find? (p : Pool) (c : Constant) : Option UInt16 :=
  (p.slots.findIdx? fun d => d.same c).map fun i => UInt16.ofNat (i + 1)

/-- The text of a text entry. -/
def utf8? (p : Pool) (index : UInt16) : Option String :=
  match p.get? index with
  | some (.utf8 text) => some text
  | _ => none

/-- The name of a class entry. -/
def className? (p : Pool) (index : UInt16) : Option String :=
  match p.get? index with
  | some (.class name) => p.utf8? name
  | _ => none

/-- The text of a string entry. -/
def stringValue? (p : Pool) (index : UInt16) : Option String :=
  match p.get? index with
  | some (.string text) => p.utf8? text
  | _ => none

/-- The name and the descriptor of a name-and-type entry. -/
def nameAndType? (p : Pool) (index : UInt16) : Option (String × String) :=
  match p.get? index with
  | some (.nameAndType name descriptor) => do
    let name ← p.utf8? name
    let descriptor ← p.utf8? descriptor
    pure (name, descriptor)
  | _ => none

/-- The texts of a reference with the given indices. -/
def memberOf? (p : Pool) (owner nameAndType : UInt16) : Option MemberRef := do
  let owner ← p.className? owner
  let (name, descriptor) ← p.nameAndType? nameAndType
  pure ⟨owner, name, descriptor⟩

/-- The texts of a field or method reference. -/
def member? (p : Pool) (index : UInt16) : Option MemberRef :=
  match p.get? index with
  | some (.fieldRef owner nameAndType) => p.memberOf? owner nameAndType
  | some (.methodRef owner nameAndType) => p.memberOf? owner nameAndType
  | some (.interfaceMethodRef owner nameAndType) => p.memberOf? owner nameAndType
  | _ => none

end Pool

/-- A computation over a pool. What it appended before it failed stays in the pool. -/
abbrev PoolM := ExceptT PoolError (StateM Pool)

namespace Pool

/-- Appends `c` without looking for it; without room the pool stays as it is. -/
def push (c : Constant) : PoolM UInt16 := fun p =>
  if p.fits c then (.ok p.nextIndex, p.append c) else (.error .outOfSpace, p)

/-- The pool of constants that are appended in order, as far as there is room for each. -/
def ofConstants (constants : List Constant) : Pool :=
  constants.foldl (fun p c => ((push c).run p).2) empty

/-- The index of an entry that is the same as `c`, appended if there is none. -/
def insert (c : Constant) : PoolM UInt16 := fun p =>
  match p.find? c with
  | some index => (.ok index, p)
  | none => push c p

/-- The index of a text. -/
def addUtf8 (text : String) : PoolM UInt16 :=
  insert (.utf8 text)

/-- The index of a class. -/
def addClass (name : String) : PoolM UInt16 := do
  insert (.class (← addUtf8 name))

/-- The index of a string. -/
def addString (text : String) : PoolM UInt16 := do
  insert (.string (← addUtf8 text))

/-- The index of a name and a descriptor. -/
def addNameAndType (name descriptor : String) : PoolM UInt16 := do
  let name ← addUtf8 name
  let descriptor ← addUtf8 descriptor
  insert (.nameAndType name descriptor)

/-- The index of a field reference. -/
def addFieldRef (owner name descriptor : String) : PoolM UInt16 := do
  let owner ← addClass owner
  let nameAndType ← addNameAndType name descriptor
  insert (.fieldRef owner nameAndType)

/-- The index of a method reference. -/
def addMethodRef (owner name descriptor : String) : PoolM UInt16 := do
  let owner ← addClass owner
  let nameAndType ← addNameAndType name descriptor
  insert (.methodRef owner nameAndType)

/-- The index of a 64-bit integer. -/
def addLong (value : Int64) : PoolM UInt16 :=
  insert (.long value)

end Pool

end ClassTemplates
