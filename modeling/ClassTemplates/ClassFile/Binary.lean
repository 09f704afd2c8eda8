import ClassTemplates.Attribute.Binary
import ClassTemplates.ClassFile.Basic
import ClassTemplates.Pool.Binary

/-!
# The byte form of classes

## Main definitions

- `Member.toBytes`, `ClassFile.toBytes` — writing
- `Member.reader`, `ClassFile.reader` — reading from a cursor
- `ClassFile.ofBytes` — the class that a whole byte sequence spells
-/

namespace ClassTemplates

open BigEndian

/-- The bytes of a field or a method. -/
def Member.toBytes (m : Member) : Bytes :=
  word16 m.access ++ word16 m.name ++ word16 m.descriptor ++ Attribute.listBytes m.attributes

/-- A field or a method of a class with the given pool. -/
def Member.reader (pool : Pool) : Reader Member := do
  let access ← Reader.word16
  let name ← Reader.word16
  let descriptor ← Reader.word16
  let attributes ← Attribute.listReader pool
  pure ⟨access, name, descriptor, attributes⟩

namespace ClassFile

/-- The number that every class file starts with. -/
def magic : UInt32 := 0xcafebabe

/-- The bytes of a class. -/
def toBytes (cls : ClassFile) : Bytes :=
  word32 magic ++ word16 cls.minorVersion ++ word16 cls.majorVersion ++ cls.pool.toBytes
    ++ word16 cls.access ++ word16 cls.thisClass ++ word16 cls.superClass
    ++ count16 cls.interfaces ++ cls.interfaces.flatMap word16
    ++ count16 cls.fields ++ cls.fields.flatMap Member.toBytes
    ++ count16 cls.methods ++ cls.methods.flatMap Member.toBytes
    ++ Attribute.listBytes cls.attributes

/-- The number that every class file starts with, or a complaint about another one. -/
def magicReader : Reader Unit := do
  let found ← Reader.word32
  if found = magic then pure () else Reader.fail (.badMagic found)

/-- A class, up to its last attribute. -/
def reader : Reader ClassFile := do
  magicReader
  let minorVersion ← Reader.word16
  let majorVersion ← Reader.word16
  let pool ← Pool.reader
  let access ← Reader.word16
  let thisClass ← Reader.word16
  let superClass ← Reader.word16
  let interfaces ← Reader.counted16 Reader.word16
  let fields ← Reader.counted16 (Member.reader pool)
  let methods ← Reader.counted16 (Member.reader pool)
  let attributes ← Attribute.listReader pool
  pure ⟨minorVersion, majorVersion, pool, access, thisClass, superClass, interfaces, fields,
    methods, attributes⟩

/-- The class that bytes spell, all of them. -/
def ofBytes (bytes : Bytes) : Except FormatError ClassFile :=
  match reader.run (.start bytes) with
  | .error e => .error e
  | .ok (cls, stop) =>
    if stop.rest.isEmpty then .ok cls else .error (.trailingBytes stop.rest.length)

end ClassFile

end ClassTemplates
