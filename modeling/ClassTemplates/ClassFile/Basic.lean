import ClassTemplates.Attribute
import ClassTemplates.Pool.Basic
import ClassTemplates.Reader

/-!
# Class files

A class with its pool, its fields and methods and its attributes. All names are indices into the
pool.

## Main definitions

- `Member` — a field or a method
- `Member.constantIndex?`, `withoutConstant`, `code?`, `withCode` — its attributes
- `ClassFile` — a class
- `ClassFile.name?`, `bootstrapArguments` — what the class says about itself
- `Access` — the access flags that matter
-/

namespace ClassTemplates

namespace Access

def isStatic : UInt16 := 0x0008
def isFinal : UInt16 := 0x0010
def isNative : UInt16 := 0x0100
def isInterface : UInt16 := 0x0200
def isAbstract : UInt16 := 0x0400

/-- All bits of `flag` are set in `flags`. -/
def has (flags flag : UInt16) : Bool :=
  flags &&& flag == flag

end Access

/-- A field or a method. -/
structure Member where
  access : UInt16
  name : UInt16
  descriptor : UInt16
  attributes : List Attribute
  deriving Repr

namespace Member

/-- The constant in an attribute that gives a field its value. -/
def constantOf? (a : Attribute) : Option UInt16 :=
  match a.content with
  | .constantValue index => some index
  | _ => none

/-- The constant that the first such attribute of a field names. -/
def constantIndex? (m : Member) : Option UInt16 :=
  m.attributes.findSome? constantOf?

/-- The field without the attributes that name a constant value. -/
def withoutConstant (m : Member) : Member :=
  { m with attributes := m.attributes.filter fun a => (constantOf? a).isNone }

/-- The code of a method: that of its first code attribute. -/
def code? (m : Member) : Option Code :=
  Attribute.firstCode? m.attributes

/-- The attributes with `code` in place of the first code among them. -/
def replaceCode (code : Code) : List Attribute → List Attribute
  | [] => []
  | a :: rest =>
    match a.content with
    | .code _ => { a with content := .code code } :: rest
    | _ => a :: replaceCode code rest

/-- The method with `code` in place of its code; a method without code stays as it is. -/
def withCode (m : Member) (code : Code) : Member :=
  { m with attributes := replaceCode code m.attributes }

end Member

/-- A class. -/
structure ClassFile where
  minorVersion : UInt16
  majorVersion : UInt16
  pool : Pool
  access : UInt16
  thisClass : UInt16
  superClass : UInt16
  interfaces : List UInt16
  fields : List Member
  methods : List Member
  attributes : List Attribute
  deriving Repr

namespace ClassFile

/-- A class with nothing in it, of the version that new classes get. -/
def empty : ClassFile where
  minorVersion := 0
  majorVersion := 52
  pool := .empty
  access := 0
  thisClass := 0
  superClass := 0
  interfaces := []
  fields := []
  methods := []
  attributes := []

/-- The name of the class, with slashes. -/
def name? (cls : ClassFile) : Option String :=
  cls.pool.className? cls.thisClass

/-- The name of the attribute that lists bootstrap methods. -/
def bootstrapName : String := "BootstrapMethods"

/-- The bytes of an attribute that lists bootstrap methods. -/
def bootstrapPayload? (pool : Pool) (a : Attribute) : Option Bytes :=
  match a.content with
  | .carried bytes => if pool.utf8? a.name = some bootstrapName then some bytes else none
  | _ => none

/-- The arguments of one bootstrap method, behind its method handle. -/
def bootstrapReader : Reader (List UInt16) := do
  let _ ← Reader.word16
  Reader.counted16 Reader.word16

/-- The indices of the static arguments of every bootstrap method, in order. -/
def bootstrapArguments (cls : ClassFile) : Except FormatError (List UInt16) := do
  let payloads := cls.attributes.filterMap (bootstrapPayload? cls.pool)
  let groups ← payloads.mapM fun bytes => do
    let (groups, _) ← (Reader.counted16 bootstrapReader).run (.start bytes)
    pure groups.flatten
  pure groups.flatten

end ClassFile

end ClassTemplates
