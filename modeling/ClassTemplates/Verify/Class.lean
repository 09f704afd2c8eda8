import ClassTemplates.Verify.Method
import ClassTemplates.Verify.Pool

/-!
# Well-formed classes

The checks that a class has to pass: its pool, the class it names itself and its superclass by, a
single type initializer, and some or all of its methods.

## Main definitions

- `ClassFault` — what is wrong with a class
- `ClassFile.isInitializer` — the method is a type initializer
- `ClassFile.verify`, `verifyMethods` — the checks of a class with all, or some, of its methods
-/

namespace ClassTemplates

/-- What is wrong with a class. -/
inductive ClassFault
  | pool (cause : PoolFault)
  /-- A method, given by name and descriptor, is at fault. -/
  | method (signature : String) (cause : MethodFault)
  | invalidThisClass (index : UInt16)
  | invalidSuperClass (index : UInt16)
  | multipleInitializers (count : Nat)
  deriving DecidableEq, Repr

/-- The wording of a class fault. -/
def ClassFault.message : ClassFault → String
  | pool cause => s!"Constant pool: {cause.message}"
  | method signature cause => s!"Method {signature}: {cause.message}"
  | invalidThisClass index => s!"Invalid this_class index {index}"
  | invalidSuperClass index => s!"Invalid super_class index {index}"
  | multipleInitializers count => s!"Class declares {count} type initializers"

/-- The name of a type initializer. -/
def initializerName : String := "<clinit>"

/-- The descriptor of a type initializer. -/
def initializerDescriptor : String := "()V"

/-- The name and the descriptor of a method as one text, where they resolve. -/
def Pool.signature (p : Pool) (m : Member) : String :=
  (p.utf8? m.name).getD "?" ++ (p.utf8? m.descriptor).getD ""

/-- The method is a type initializer. -/
def Pool.isInitializer (p : Pool) (m : Member) : Bool :=
  p.utf8? m.name == some initializerName && p.utf8? m.descriptor == some initializerDescriptor

namespace ClassFile

/-- An index names a class. -/
def namesClass (cls : ClassFile) (index : UInt16) : Bool :=
  match cls.pool.get? index with
  | some (.class _) => true
  | _ => false

/-- Only a class that is no interface may do without a superclass. -/
def superClassOk (cls : ClassFile) : Bool :=
  (cls.superClass == 0 && !Access.has cls.access Access.isInterface)
    || cls.namesClass cls.superClass

/-- The number of type initializers. -/
def initializerCount (cls : ClassFile) : Nat :=
  cls.methods.countP cls.pool.isInitializer

/-- The checks that do not look into methods. -/
def verifyOutline (cls : ClassFile) : Except ClassFault Unit :=
  match cls.poolFault? with
  | some fault => .error (.pool fault)
  | none =>
    if !cls.namesClass cls.thisClass then .error (.invalidThisClass cls.thisClass)
    else if !cls.superClassOk then .error (.invalidSuperClass cls.superClass)
    else if cls.initializerCount > 1 then .error (.multipleInitializers cls.initializerCount)
    else .ok ()

/-- A method must be well formed; the fault names it. -/
def verifyMethod (cls : ClassFile) (m : Member) : Except ClassFault Unit :=
  (cls.checkMethod m).mapError (.method (cls.pool.signature m))

/-- The class with its methods at the given positions; positions without a method are passed over.
-/
def verifyMethods (cls : ClassFile) (positions : List Nat) : Except ClassFault Unit := do
  cls.verifyOutline
  (positions.filterMap fun i => cls.methods[i]?).forM cls.verifyMethod

/-- The class with all its methods. -/
def verify (cls : ClassFile) : Except ClassFault Unit := do
  cls.verifyOutline
  cls.methods.forM cls.verifyMethod

end ClassFile

end ClassTemplates
