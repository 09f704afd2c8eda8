import ClassTemplates.Body.OfCode
import ClassTemplates.Body.ToCode
import ClassTemplates.ClassFile.Binary
import ClassTemplates.Expansion.Error
import ClassTemplates.Expansion.Initializer
import ClassTemplates.Expansion.Loads

/-!
# Expanding a class

Constant fields with bound tokens lose their constant and are deferred to the type initializer.
Loads of strings with bound tokens are expanded in every method, except in initializers behind the
first. The bodies that changed get a depth of their own and are laid out again, and the result must
be well formed. Either all of this succeeds or the class stays as it was.

## Main definitions

- `ExpansionSummary` — what was done to a class
- `Expansion` — a class that stays as it is, or an expanded one
- `ClassFile.expand` — the expansion of a class
- `ClassFile.expandBytes` — the same from bytes to bytes
-/

namespace ClassTemplates

/-- What happened to the type initializer of a class. -/
inductive InitializerChange
  /-- Assignments were added in front of its code. -/
  | extended
  /-- The class got one. -/
  | synthesized
  deriving DecidableEq, Repr

/-- What was done to a class. -/
structure ExpansionSummary where
  className : String
  /-- The number of loads that were replaced. -/
  loads : Nat
  /-- The number of constants that were deferred. -/
  deferred : Nat
  /-- The names and descriptors of the methods that changed, in order. -/
  methods : List String
  initializer : Option InitializerChange
  stats : ExpansionStats
  deriving DecidableEq, Repr

/-- The outcome for a class. -/
inductive Expansion
  | unchanged (cls : ClassFile)
  | expanded (cls : ClassFile) (summary : ExpansionSummary)
  deriving Repr

/-- Some string of the pool holds a token. -/
def Pool.hasToken (p : Pool) : Bool :=
  p.slots.any fun c =>
    match c with
    | .string text => ((p.utf8? text).map Token.occursIn).getD false
    | _ => false

namespace Expansion

/-! ### Fields -/

/-- The constant of a field that has to be deferred: the field is static, final and a string, and
its value holds a bound token. -/
def templateOf? (catalog : Catalog) (pool : Pool) (field : Member) : Option String := do
  guard (Access.has field.access Access.isStatic && Access.has field.access Access.isFinal)
  guard (pool.utf8? field.descriptor == some Initializer.stringDescriptor)
  let text ← pool.stringValue? (← field.constantIndex?)
  guard (catalog.bindsAny text)
  pure text

/-- What a field becomes, and the constant that is deferred from it. -/
def deferField (catalog : Catalog) (pool : Pool) (className : String) (field : Member) :
    Except ExpansionError (Member × Option DeferredConstant) :=
  match templateOf? catalog pool field with
  | none => .ok (field, none)
  | some text =>
    match pool.utf8? field.name with
    | none => .error (.badFieldName className field.name)
    | some name => .ok (field.withoutConstant, some ⟨name, text⟩)

/-- What the fields of a class become, and the constants that are deferred from them, in order. -/
def deferFields (catalog : Catalog) (pool : Pool) (className : String) (fields : List Member) :
    Except ExpansionError (List Member × List DeferredConstant) := do
  let results ← fields.mapM (deferField catalog pool className)
  pure (results.map (·.1), results.filterMap (·.2))

/-! ### Methods -/

/-- The methods of a class while it is expanded: each with its new body, if it has to get one. -/
abbrev Edits := Array (Member × Option Body)

/-- How far a class has been expanded. -/
structure Progress where
  edits : Edits
  /-- The number of loads that were replaced. -/
  loads : Nat
  initializer : Initializer

/-- A failure to add to the pool, as a failure to expand a class. -/
def lift (x : Except PoolError α × Expander) : Except ExpansionError (α × Expander) :=
  match x with
  | (.ok a, e) => .ok (a, e)
  | (.error fault, _) => .error (.pool fault)

/-- The body of a code attribute. -/
def bodyOf (code : Code) : Except ExpansionError Body :=
  (Body.ofCode code).mapError .format

/-- The number of loads of a method that were replaced, and its new body if there are any. -/
def expandMethod (catalog : Catalog) (lookup : LookupMethod) (m : Member) (e : Expander) :
    Except ExpansionError ((Nat × Option Body) × Expander) :=
  match m.code? with
  | none => .ok ((0, none), e)
  | some code => do
    let body ← bodyOf code
    let ((count, body), e) ← lift ((Expander.expandBody catalog lookup body).run e)
    pure ((count, if count = 0 then none else some body), e)

/-- A method of a class with the progress so far. Initializers behind the first are passed over. -/
def visitMethod (catalog : Catalog) (lookup : LookupMethod) (p : Progress) (m : Member)
    (e : Expander) : Except ExpansionError (Progress × Expander) :=
  let initializes := e.pool.isInitializer m
  let ⟨edits, loads, initializer⟩ := p
  if initializes && !initializer.isOpen then .ok (⟨edits.push (m, none), loads, initializer⟩, e)
  else
    let initializer := if initializes then initializer.found edits.size else initializer
    match expandMethod catalog lookup m e with
    | .error fault => .error fault
    | .ok ((count, body), e) => .ok (⟨edits.push (m, body), loads + count, initializer⟩, e)

/-- The methods of a class, in order, with the progress so far. -/
def visitMethods (catalog : Catalog) (lookup : LookupMethod) (p : Progress) (e : Expander) :
    List Member → Except ExpansionError (Progress × Expander)
  | [] => .ok (p, e)
  | m :: rest =>
    match visitMethod catalog lookup p m e with
    | .error fault => .error fault
    | .ok (p, e) => visitMethods catalog lookup p e rest

/-! ### The type initializer -/

/-- The edits with instructions in front of the method at a position. -/
def prependAt (className : String) (edits : Edits) (method : Nat) (insns : List Insn) :
    Except ExpansionError Edits :=
  match edits[method]? with
  | none => .ok edits
  | some (m, some body) => .ok (edits.setIfInBounds method (m, some (body.prepend insns)))
  | some (m, none) =>
    match m.code? with
    | none => .error (.emptyInitializer className)
    | some code => do
      let body ← bodyOf code
      pure (edits.setIfInBounds method (m, some (body.prepend insns)))

/-- A type initializer without code, with its name and descriptor in the pool. -/
def newInitializer : PoolM Member := do
  let name ← Pool.addUtf8 initializerName
  let descriptor ← Pool.addUtf8 initializerDescriptor
  pure ⟨Access.isStatic, name, descriptor, []⟩

/-- The edits with the code that has to be added to a class. -/
def applyInjection (className : String) (edits : Edits) (e : Expander) :
    Option Injection → Except ExpansionError ((Edits × Option InitializerChange) × Expander)
  | none => .ok ((edits, none), e)
  | some (.prepend method insns) => do
    let edits ← prependAt className edits method insns
    pure ((edits, some .extended), e)
  | some (.synthesize insns) => do
    let (m, e) ← lift ((Expander.onPool newInitializer).run e)
    pure ((edits.push (m, some (Body.ofInsns 0 insns)), some .synthesized), e)

/-! ### New code -/

/-- The name of the attribute that holds the code of a method. -/
def codeName : String := ContentKind.code.name

/-- The method with new code. A method that has none gets an attribute for it. -/
def setCode (m : Member) (code : Code) : PoolM Member :=
  match m.code? with
  | some _ => pure (m.withCode code)
  | none => do
    let name ← Pool.addUtf8 codeName
    pure { m with attributes := m.attributes ++ [⟨name, .code code⟩] }

/-- The code of a new body of the method `signature`, as deep as it was or as it has become. -/
def layOut (className signature : String) (pool : Pool) (body : Body) :
    Except ExpansionError Code := do
  let body := body.withoutCarried
  let summary ← (body.analyze pool).mapError (.depth className signature)
  (body.toCode (max body.maxStack summary.maxDepth)).mapError .layout

/-- A method and its name and descriptor, with its new body laid out. -/
def finishMethod (className : String) (m : Member) (body : Body) (e : Expander) :
    Except ExpansionError ((Member × String) × Expander) := do
  let signature := e.pool.signature m
  let code ← layOut className signature e.pool body
  let (m, e) ← lift ((Expander.onPool (setCode m code)).run e)
  pure ((m, signature), e)

/-- The methods of a class, and the positions and names of those that changed. -/
structure Finished where
  methods : Array Member
  changed : Array (Nat × String)

/-- The methods with their new bodies laid out, behind those that are done. -/
def finishMethods (className : String) (done : Finished) (e : Expander) :
    List (Member × Option Body) → Except ExpansionError (Finished × Expander)
  | [] => .ok (done, e)
  | (m, none) :: rest => finishMethods className { done with methods := done.methods.push m } e rest
  | (m, some body) :: rest =>
    match finishMethod className m body e with
    | .error fault => .error fault
    | .ok ((m, signature), e) =>
      let ⟨methods, changed⟩ := done
      finishMethods className ⟨methods.push m, changed.push (methods.size, signature)⟩ e rest

/-! ### The class -/

/-- The class with its methods laid out, if any of them has a new body; it has to be well formed. -/
def finish (cls : ClassFile) (summary : ExpansionSummary) (edits : Edits) (e : Expander) :
    Except ExpansionError Expansion := do
  if edits.any fun edit => edit.2.isSome then
    let (done, e) ← finishMethods summary.className ⟨#[], #[]⟩ e edits.toList
    let cls := { cls with pool := e.pool, methods := done.methods.toList }
    (cls.verifyMethods (done.changed.toList.map (·.1))).mapError .verification
    let signatures := done.changed.toList.map (·.2)
    pure (.expanded cls { summary with methods := signatures, stats := e.stats })
  else pure (.unchanged { cls with pool := e.pool, methods := edits.toList.map (·.1) })

/-- The expansion of a class of the given name whose pool holds a string with a token. -/
def ofNamed (catalog : Catalog) (lookup : LookupMethod) (cls : ClassFile) (className : String) :
    Except ExpansionError Expansion := do
  let (fields, deferred) ← deferFields catalog cls.pool className cls.fields
  let start : Progress := ⟨#[], 0, deferred.foldl Initializer.defer .new⟩
  let (p, e) ← visitMethods catalog lookup start (.ofPool cls.pool) cls.methods
  let (result, _, e) := p.initializer.finalize catalog lookup className e
  let (injection, e) ← lift (result, e)
  let ((edits, change), e) ← applyInjection className p.edits e injection
  let summary : ExpansionSummary := ⟨className, p.loads, deferred.length, [], change, e.stats⟩
  finish { cls with fields := fields } summary edits e

end Expansion

namespace ClassFile

/-- The expansion of a class. -/
def expand (catalog : Catalog) (lookup : LookupMethod) (cls : ClassFile) :
    Except ExpansionError Expansion :=
  if cls.pool.hasToken then
    match cls.name? with
    | none => .error .unnamedClass
    | some className => Expansion.ofNamed catalog lookup cls className
  else .ok (.unchanged cls)

/-- The bytes of the expanded class that bytes spell; `none` if the class stays as it is. -/
def expandBytes (catalog : Catalog) (lookup : LookupMethod) (bytes : Bytes) :
    Except ExpansionError (Option Bytes) := do
  let cls ← (ofBytes bytes).mapError .format
  match ← cls.expand catalog lookup with
  | .unchanged _ => pure none
  | .expanded cls _ => pure (some cls.toBytes)

end ClassFile

end ClassTemplates
