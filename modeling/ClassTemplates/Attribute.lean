import ClassTemplates.Frame.Basic
import ClassTemplates.Bytes

/-!
# Attributes

An attribute has a name, given by its index in the pool, and a content. The contents that hold
offsets into code are kept as structures, the code of a method among them, which has attributes of
its own; every other content is carried as bytes.

## Main definitions

- `Handler`, `LineEntry`, `LocalEntry` — the tables beside the code
- `CodeOf`, `ContentOf`, `Attribute` — attributes and the code they hold
- `Code`, `Content` — the same with the nested attributes filled in
- `Attribute.code?`, `Attribute.firstCode?` — the code in an attribute, and in a list of attributes
-/

namespace ClassTemplates

/-- A protected range of code with its handler; places are offsets or labels. -/
structure Handler (Place : Type) where
  start : Place
  stop : Place
  target : Place
  /-- The index of the class that is caught, zero for every class. -/
  caught : UInt16
  deriving DecidableEq, Repr

/-- The line of the source that the code from a place on belongs to. -/
structure LineEntry (Place : Type) where
  start : Place
  line : UInt16
  deriving DecidableEq, Repr

/-- The range of code in which a local variable has a name and a type. -/
structure LocalEntry where
  start : UInt16
  length : UInt16
  name : UInt16
  descriptor : UInt16
  index : UInt16
  deriving DecidableEq, Repr

/-- The code of a method, with nested attributes of type `α`. -/
structure CodeOf (α : Type) where
  maxStack : UInt16
  maxLocals : UInt16
  bytes : Bytes
  handlers : List (Handler UInt16)
  attributes : List α
  deriving Repr

/-- The content of an attribute, with attributes nested in code of type `α`. -/
inductive ContentOf (α : Type)
  | constantValue (index : UInt16)
  | code (code : CodeOf α)
  | stackMap (frames : List Frame)
  | lineNumbers (entries : List (LineEntry UInt16))
  | localVariables (entries : List LocalEntry)
  | localVariableTypes (entries : List LocalEntry)
  /-- A content that is not taken apart. -/
  | carried (bytes : Bytes)
  deriving Repr

/-- A named attribute. -/
structure Attribute where
  name : UInt16
  content : ContentOf Attribute
  deriving Repr

/-- The code of a method. -/
abbrev Code := CodeOf Attribute

/-- The content of an attribute. -/
abbrev Content := ContentOf Attribute

namespace Attribute

/-- The code that an attribute holds. -/
def code? (a : Attribute) : Option Code :=
  match a.content with
  | .code code => some code
  | _ => none

/-- The code of the first attribute that holds some. -/
def firstCode? (attributes : List Attribute) : Option Code :=
  attributes.findSome? code?

/-- The attributes nested in code are smaller than the attribute that holds it. -/
theorem sizeOf_nested {a b : Attribute} {code : Code} (ha : a.content = .code code)
    (hb : b ∈ code.attributes) : sizeOf b < sizeOf a := by
  obtain ⟨name, content⟩ := a
  obtain ⟨s, l, bytes, handlers, attributes⟩ := code
  subst ha
  have := List.sizeOf_lt_of_mem hb
  simp at this ⊢
  omega

end Attribute

end ClassTemplates
