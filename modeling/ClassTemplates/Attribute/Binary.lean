import ClassTemplates.Attribute
import ClassTemplates.Frame.Binary
import ClassTemplates.Pool.Basic

/-!
# The byte form of attributes

An attribute is stored as its name, the length of its content and the content. Which structure the
content has follows from the name, so reading needs the pool. A name that does not resolve stands
for no known structure.

## Main definitions

- `ContentKind` — the names that decide a structure
- `Attribute.toBytes`, `Attribute.listBytes`, `Code.toBytes` — writing
- `Attribute.listReader`, `Attribute.reader` — reading
-/

namespace ClassTemplates

open BigEndian

/-- The attributes whose content is taken apart. -/
inductive ContentKind
  | constantValue | code | stackMap | lineNumbers | localVariables | localVariableTypes
  deriving DecidableEq, Repr

namespace ContentKind

/-- The name of an attribute of a kind. -/
def name : ContentKind → String
  | constantValue => "ConstantValue"
  | code => "Code"
  | stackMap => "StackMapTable"
  | lineNumbers => "LineNumberTable"
  | localVariables => "LocalVariableTable"
  | localVariableTypes => "LocalVariableTypeTable"

/-- The kind that a name stands for. -/
def ofName? (n : String) : Option ContentKind :=
  [constantValue, code, stackMap, lineNumbers, localVariables, localVariableTypes].find?
    (·.name == n)

end ContentKind

/-! ### Writing -/

/-- The bytes of an entry of an exception table. -/
def Handler.toBytes (h : Handler UInt16) : Bytes :=
  word16 h.start ++ word16 h.stop ++ word16 h.target ++ word16 h.caught

/-- The bytes of an entry of a line table. -/
def LineEntry.toBytes (e : LineEntry UInt16) : Bytes :=
  word16 e.start ++ word16 e.line

/-- The bytes of an entry of a table of local variables. -/
def LocalEntry.toBytes (e : LocalEntry) : Bytes :=
  word16 e.start ++ word16 e.length ++ word16 e.name ++ word16 e.descriptor ++ word16 e.index

namespace Attribute

/-- The bytes of an attribute: its name, the length of its content and the content. -/
def toBytes (a : Attribute) : Bytes :=
  let content : Bytes := match _h : a.content with
    | .constantValue index => word16 index
    | .code code =>
      word16 code.maxStack ++ word16 code.maxLocals ++ count32 code.bytes ++ code.bytes
        ++ count16 code.handlers ++ code.handlers.flatMap Handler.toBytes
        ++ count16 code.attributes ++ code.attributes.attach.flatMap fun ⟨b, _⟩ => b.toBytes
    | .stackMap frames => Frame.tableBytes frames
    | .lineNumbers entries => count16 entries ++ entries.flatMap LineEntry.toBytes
    | .localVariables entries => count16 entries ++ entries.flatMap LocalEntry.toBytes
    | .localVariableTypes entries => count16 entries ++ entries.flatMap LocalEntry.toBytes
    | .carried bytes => bytes
  word16 a.name ++ count32 content ++ content
termination_by sizeOf a
decreasing_by exact sizeOf_nested _h ‹_›

/-- The bytes of a list of attributes: their number and each of them. -/
def listBytes (attributes : List Attribute) : Bytes :=
  count16 attributes ++ attributes.flatMap toBytes

end Attribute

/-- The bytes of the content of a code attribute. -/
def Code.toBytes (code : Code) : Bytes :=
  word16 code.maxStack ++ word16 code.maxLocals ++ count32 code.bytes ++ code.bytes
    ++ count16 code.handlers ++ code.handlers.flatMap Handler.toBytes
    ++ Attribute.listBytes code.attributes

/-- The bytes of a content, without name and length. -/
def Content.toBytes : Content → Bytes
  | .constantValue index => word16 index
  | .code code => Code.toBytes code
  | .stackMap frames => Frame.tableBytes frames
  | .lineNumbers entries => count16 entries ++ entries.flatMap LineEntry.toBytes
  | .localVariables entries => count16 entries ++ entries.flatMap LocalEntry.toBytes
  | .localVariableTypes entries => count16 entries ++ entries.flatMap LocalEntry.toBytes
  | .carried bytes => bytes

theorem Attribute.toBytes_eq (a : Attribute) :
    a.toBytes =
      word16 a.name ++ count32 (Content.toBytes a.content) ++ Content.toBytes a.content := by
  rw [Attribute.toBytes]
  obtain ⟨name, content⟩ := a
  cases content <;> simp [Content.toBytes, Code.toBytes, Attribute.listBytes, List.flatMap_def]

/-! ### Reading -/

open Reader (take counted16 run_bind run_pure)

/-- An entry of an exception table. -/
def Handler.reader : Reader (Handler UInt16) := do
  let start ← Reader.word16
  let stop ← Reader.word16
  let target ← Reader.word16
  let caught ← Reader.word16
  pure ⟨start, stop, target, caught⟩

/-- An entry of a line table. -/
def LineEntry.reader : Reader (LineEntry UInt16) := do
  let start ← Reader.word16
  let line ← Reader.word16
  pure ⟨start, line⟩

/-- An entry of a table of local variables. -/
def LocalEntry.reader : Reader LocalEntry := do
  let start ← Reader.word16
  let length ← Reader.word16
  let name ← Reader.word16
  let descriptor ← Reader.word16
  let index ← Reader.word16
  pure ⟨start, length, name, descriptor, index⟩

/-- An attribute before its content is taken apart. -/
structure RawAttribute where
  name : UInt16
  length : UInt32
  payload : Bytes
  deriving Repr

/-- The name, the declared length and that many bytes. -/
def RawAttribute.reader : Reader RawAttribute := do
  let name ← Reader.word16
  let length ← Reader.word32
  let payload ← take length.toNat
  pure ⟨name, length, payload⟩

/-- What stands in front of the attributes nested in code. -/
structure CodeHead where
  maxStack : UInt16
  maxLocals : UInt16
  bytes : Bytes
  handlers : List (Handler UInt16)
  attributeCount : UInt16
  deriving Repr

/-- The part of a code attribute up to the number of nested attributes. -/
def CodeHead.reader : Reader CodeHead := do
  let maxStack ← Reader.word16
  let maxLocals ← Reader.word16
  let length ← Reader.word32
  let bytes ← take length.toNat
  let handlers ← counted16 Handler.reader
  let attributeCount ← Reader.word16
  pure ⟨maxStack, maxLocals, bytes, handlers, attributeCount⟩

/-- The code with a head and nested attributes. -/
def CodeHead.withAttributes (head : CodeHead) (attributes : List Attribute) : Code :=
  ⟨head.maxStack, head.maxLocals, head.bytes, head.handlers, attributes⟩

/-- A content without nested attributes. -/
def ContentKind.flatReader : ContentKind → Reader Content
  | constantValue => do
    let index ← Reader.word16
    pure (.constantValue index)
  | stackMap => do
    let frames ← Frame.tableReader
    pure (.stackMap frames)
  | lineNumbers => do
    let entries ← counted16 LineEntry.reader
    pure (.lineNumbers entries)
  | localVariables => do
    let entries ← counted16 LocalEntry.reader
    pure (.localVariables entries)
  | localVariableTypes => do
    let entries ← counted16 LocalEntry.reader
    pure (.localVariableTypes entries)
  | code => pure (.carried [])

/-- The payload is shorter than what it was read from, and so is what follows it. -/
theorem RawAttribute.reader_length {c next : Cursor} {raw : RawAttribute}
    (h : RawAttribute.reader.run c = .ok (raw, next)) :
    raw.payload.length + next.rest.length + 6 = c.rest.length := by
  obtain ⟨rest, p⟩ := c
  simp only [RawAttribute.reader, run_bind, Reader.word16, Reader.word32, take, run_pure] at h
  match rest, h with
  | a :: b :: c :: d :: e :: f :: rest, h =>
    simp only at h
    split at h
    · cases h
    · rename_i hs
      split at hs
      · rename_i hlen
        cases hs
        cases h
        simp only [List.length_take] at hlen
        simp only [List.length_take, List.length_drop, List.length_cons]
        omega
      · cases hs

namespace Attribute

/-- A content must fill the declared length of its attribute. -/
def filling (name : String) (raw : RawAttribute) (content : Content) (stop : Cursor) :
    Except FormatError Attribute :=
  if stop.rest.isEmpty then .ok ⟨raw.name, content⟩
  else .error (.attributeLength name raw.length stop.position)

/-- The next `n` attributes, behind those in `done`. -/
def listOnto (pool : Pool) (n : Nat) (done : Array Attribute) (c : Cursor) :
    Except FormatError (Array Attribute × Cursor) :=
  match n with
  | 0 => .ok (done, c)
  | n + 1 =>
    match _hraw : RawAttribute.reader.run c with
    | .error e => .error e
    | .ok (raw, next) =>
      let name := (pool.utf8? raw.name).getD ""
      let item : Except FormatError Attribute :=
        match ContentKind.ofName? name with
        | none => .ok ⟨raw.name, .carried raw.payload⟩
        | some .code =>
          match _hhead : CodeHead.reader.run (.start raw.payload) with
          | .error e => .error e
          | .ok (head, body) =>
            match listOnto pool head.attributeCount.toNat #[] body with
            | .error e => .error e
            | .ok (nested, stop) =>
              filling name raw (.code (head.withAttributes nested.toList)) stop
        | some kind =>
          match kind.flatReader.run (.start raw.payload) with
          | .error e => .error e
          | .ok (content, stop) => filling name raw content stop
      match item with
      | .error e => .error e
      | .ok item => listOnto pool n (done.push item) next
termination_by c.rest.length
decreasing_by
  · have hraw := RawAttribute.reader_length _hraw
    have hhead := (CodeHead.reader.advances _hhead).length_le
    simp only [Cursor.start] at hhead
    omega
  · have hraw := RawAttribute.reader_length _hraw
    omega

theorem listOnto_advances {pool : Pool} {n : Nat} {done all : Array Attribute} {c stop : Cursor}
    (h : listOnto pool n done c = .ok (all, stop)) : c.Advances stop := by
  induction n generalizing done c with
  | zero =>
    rw [listOnto] at h
    cases h
    exact .refl _
  | succ n ih =>
    rw [listOnto] at h
    split at h
    · cases h
    · rename_i raw next hraw
      simp only at h
      split at h
      · cases h
      · exact (RawAttribute.reader.advances hraw).trans (ih h)

/-- A list of attributes: their number and each of them. -/
def listReader (pool : Pool) : Reader (List Attribute) where
  run c :=
    match Reader.word16.run c with
    | .error e => .error e
    | .ok (n, next) =>
      match listOnto pool n.toNat #[] next with
      | .error e => .error e
      | .ok (all, stop) => .ok (all.toList, stop)
  advances {c _ _} h := by
    cases hn : Reader.word16.run c with
    | error e => simp [hn] at h
    | ok out =>
      simp only [hn] at h
      split at h
      · cases h
      · rename_i hl
        cases h
        exact (Reader.word16.advances hn).trans (listOnto_advances hl)

end Attribute

end ClassTemplates
