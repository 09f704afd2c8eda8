import ClassTemplates.ClassFile.Basic

/-!
# Well-formed pools

Every index that a constant holds must name a constant of the kind that belongs there, and constants
that are computed by a bootstrap method need the attribute that lists those methods.

## Main definitions

- `PoolFault` — what is wrong with a pool
- `Constant.references` — the indices a constant holds, with the kind each has to name
- `ClassFile.poolFault?` — the first fault of a pool
-/

namespace ClassTemplates

/-- What is wrong with a pool. An index is that of the constant at fault. -/
inductive PoolFault
  /-- The constant refers to an index that nothing has. -/
  | danglingIndex (owner : UInt16)
  /-- The constant refers to a constant of another kind. -/
  | wrongKind (owner : UInt16)
  | noBootstrapMethods
  | tooManyConstants (slots : Nat)
  deriving DecidableEq, Repr

/-- The wording of a pool fault. -/
def PoolFault.message : PoolFault → String
  | danglingIndex owner => s!"Invalid constant pool index {owner}"
  | wrongKind owner => s!"Invalid constant pool index type {owner}"
  | noBootstrapMethods => "BootstrapMethods attribute not defined"
  | tooManyConstants slots =>
    s!"Constant pool has {slots} entries, more than a class file can hold"

/-- The kinds of constants that another constant may refer to. -/
inductive ConstantKind
  | text
  | «class»
  | nameAndType
  /-- A reference to a field or a method. -/
  | member
  deriving DecidableEq, Repr

namespace Constant

/-- The kind of a constant, if others may refer to it. -/
def kind? : Constant → Option ConstantKind
  | utf8 _ | rawUtf8 _ => some .text
  | «class» _ => some .class
  | nameAndType _ _ => some .nameAndType
  | fieldRef _ _ | methodRef _ _ | interfaceMethodRef _ _ => some .member
  | _ => none

/-- The indices that a constant holds, each with the kind it has to name. -/
def references : Constant → List (UInt16 × ConstantKind)
  | «class» name | «module» name | package name => [(name, .text)]
  | string text => [(text, .text)]
  | methodType descriptor => [(descriptor, .text)]
  | fieldRef owner nat | methodRef owner nat | interfaceMethodRef owner nat =>
    [(owner, .class), (nat, .nameAndType)]
  | nameAndType name descriptor => [(name, .text), (descriptor, .text)]
  | methodHandle _ reference => [(reference, .member)]
  | dynamic _ nat | invokeDynamic _ nat => [(nat, .nameAndType)]
  | _ => []

/-- The constant is computed by a bootstrap method. -/
def needsBootstrap : Constant → Bool
  | dynamic _ _ | invokeDynamic _ _ => true
  | _ => false

end Constant

/-- What is wrong with a reference from the constant `owner` to one of a kind. -/
def Pool.referenceFault? (p : Pool) (owner target : UInt16) (kind : ConstantKind) :
    Option PoolFault :=
  match p.get? target with
  | none => some (.danglingIndex owner)
  | some c => if c.kind? = some kind then none else some (.wrongKind owner)

namespace ClassFile

/-- The class has an attribute that lists bootstrap methods. -/
def hasBootstrapMethods (cls : ClassFile) : Bool :=
  cls.attributes.any fun a => (bootstrapPayload? cls.pool a).isSome

/-- What is wrong with the constant `owner`. -/
def constantFault? (cls : ClassFile) (owner : UInt16) (c : Constant) : Option PoolFault :=
  if c.needsBootstrap && !cls.hasBootstrapMethods then some .noBootstrapMethods
  else c.references.findSome? fun (target, kind) => cls.pool.referenceFault? owner target kind

/-- The first fault of the pool of a class, in the order of its constants. -/
def poolFault? (cls : ClassFile) : Option PoolFault :=
  if cls.pool.slots.size ≥ 65535 then some (.tooManyConstants cls.pool.slots.size)
  else cls.pool.entries.findSome? fun (owner, c) => cls.constantFault? owner c

end ClassFile

end ClassTemplates
