import ClassTemplates.Pool.Basic
import ClassTemplates.Reader

/-!
# The byte form of a pool

A pool is stored as its count and then its entries, each a tag and its contents. Second slots are
not stored: the reader numbers the entry behind a `long` or `double` two further.

## Main definitions

- `Constant.toBytes`, `Pool.toBytes` — writing
- `Constant.reader`, `Pool.reader` — reading
-/

namespace ClassTemplates

/-- The tags in front of the kinds of constants. -/
inductive ConstantTag
  | utf8 | integer | float | long | double | «class» | string | fieldRef | methodRef
  | interfaceMethodRef | nameAndType | methodHandle | methodType | dynamic | invokeDynamic
  | «module» | package
  deriving DecidableEq, Repr

namespace ConstantTag

/-- The byte of a tag. -/
def toByte : ConstantTag → UInt8
  | utf8 => 1
  | integer => 3
  | float => 4
  | long => 5
  | double => 6
  | «class» => 7
  | string => 8
  | fieldRef => 9
  | methodRef => 10
  | interfaceMethodRef => 11
  | nameAndType => 12
  | methodHandle => 15
  | methodType => 16
  | dynamic => 17
  | invokeDynamic => 18
  | «module» => 19
  | package => 20

/-- The tag of a byte. -/
def ofByte? (b : UInt8) : Option ConstantTag :=
  match b.toNat with
  | 1 => some utf8
  | 3 => some integer
  | 4 => some float
  | 5 => some long
  | 6 => some double
  | 7 => some «class»
  | 8 => some string
  | 9 => some fieldRef
  | 10 => some methodRef
  | 11 => some interfaceMethodRef
  | 12 => some nameAndType
  | 15 => some methodHandle
  | 16 => some methodType
  | 17 => some dynamic
  | 18 => some invokeDynamic
  | 19 => some «module»
  | 20 => some package
  | _ => none

end ConstantTag

namespace Constant

open BigEndian

/-- A text entry: its tag, the number of its bytes and the bytes. -/
def textBytes (bytes : Bytes) : Bytes :=
  ConstantTag.utf8.toByte :: (count16 bytes ++ bytes)

/-- The bytes of a constant; a second slot has none. -/
def toBytes : Constant → Bytes
  | utf8 text => textBytes (ModifiedUtf8.encode text)
  | rawUtf8 bytes => textBytes bytes
  | integer value => ConstantTag.integer.toByte :: word32 value.toUInt32
  | float bits => ConstantTag.float.toByte :: word32 bits
  | long value => ConstantTag.long.toByte :: word64 value.toUInt64
  | double bits => ConstantTag.double.toByte :: word64 bits
  | «class» name => ConstantTag.class.toByte :: word16 name
  | string text => ConstantTag.string.toByte :: word16 text
  | fieldRef owner nat =>
    ConstantTag.fieldRef.toByte :: (word16 owner ++ word16 nat)
  | methodRef owner nat =>
    ConstantTag.methodRef.toByte :: (word16 owner ++ word16 nat)
  | interfaceMethodRef owner nat =>
    ConstantTag.interfaceMethodRef.toByte :: (word16 owner ++ word16 nat)
  | nameAndType name descriptor =>
    ConstantTag.nameAndType.toByte :: (word16 name ++ word16 descriptor)
  | methodHandle kind reference => ConstantTag.methodHandle.toByte :: kind :: word16 reference
  | methodType descriptor => ConstantTag.methodType.toByte :: word16 descriptor
  | dynamic bootstrap nat =>
    ConstantTag.dynamic.toByte :: (word16 bootstrap ++ word16 nat)
  | invokeDynamic bootstrap nat =>
    ConstantTag.invokeDynamic.toByte :: (word16 bootstrap ++ word16 nat)
  | «module» name => ConstantTag.module.toByte :: word16 name
  | package name => ConstantTag.package.toByte :: word16 name
  | secondSlot => []

/-- The text entry with the given bytes, raw if they spell no text. -/
def ofTextBytes (bytes : Bytes) : Constant :=
  match ModifiedUtf8.decode bytes with
  | some text => utf8 text
  | none => rawUtf8 bytes

open Reader in
/-- The contents behind a tag. -/
def contents : ConstantTag → Reader Constant
  | .utf8 => do
    let length ← word16
    let bytes ← take length.toNat
    pure (ofTextBytes bytes)
  | .integer => do
    let word ← word32
    pure (integer word.toInt32)
  | .float => do
    let bits ← word32
    pure (float bits)
  | .long => do
    let word ← word64
    pure (long word.toInt64)
  | .double => do
    let bits ← word64
    pure (double bits)
  | .class => do
    let name ← word16
    pure («class» name)
  | .string => do
    let text ← word16
    pure (string text)
  | .fieldRef => do
    let owner ← word16
    let nat ← word16
    pure (fieldRef owner nat)
  | .methodRef => do
    let owner ← word16
    let nat ← word16
    pure (methodRef owner nat)
  | .interfaceMethodRef => do
    let owner ← word16
    let nat ← word16
    pure (interfaceMethodRef owner nat)
  | .nameAndType => do
    let name ← word16
    let descriptor ← word16
    pure (nameAndType name descriptor)
  | .methodHandle => do
    let kind ← byte
    let reference ← word16
    pure (methodHandle kind reference)
  | .methodType => do
    let descriptor ← word16
    pure (methodType descriptor)
  | .dynamic => do
    let bootstrap ← word16
    let nat ← word16
    pure (dynamic bootstrap nat)
  | .invokeDynamic => do
    let bootstrap ← word16
    let nat ← word16
    pure (invokeDynamic bootstrap nat)
  | .module => do
    let name ← word16
    pure («module» name)
  | .package => do
    let name ← word16
    pure (package name)

/-- A constant with its tag; `index` is the number it is going to have. -/
def reader (index : Nat) : Reader Constant := do
  let tag ← Reader.byte
  match ConstantTag.ofByte? tag with
  | some kind => contents kind
  | none => Reader.fail (.badConstantTag tag index)

end Constant

namespace Pool

/-- The bytes of a pool: its count and its entries. -/
def toBytes (p : Pool) : Bytes :=
  BigEndian.word16 p.count ++ p.slots.toList.flatMap Constant.toBytes

/-- Appends `c`, or fails as a reader does. -/
def appended (p : Pool) (c : Constant) : Except FormatError Pool :=
  if p.fits c then .ok (p.append c) else .error (.pool .outOfSpace)

theorem width_pos (c : Constant) : 0 < c.width := by
  unfold Constant.width
  split <;> decide

/-- Appends to `p` the entries numbered from `index` up to `count`. -/
def entriesOnto (count index : Nat) (p : Pool) (c : Cursor) : Except FormatError (Pool × Cursor) :=
  if index < count then
    match (Constant.reader index).run c with
    | .error e => .error e
    | .ok (constant, next) =>
      match p.appended constant with
      | .error e => .error e
      | .ok p => entriesOnto count (index + constant.width) p next
  else .ok (p, c)
termination_by count - index
decreasing_by
  have := width_pos constant
  omega

theorem entriesOnto_advances {count index : Nat} {p q : Pool} {c stop : Cursor}
    (h : entriesOnto count index p c = .ok (q, stop)) : c.Advances stop := by
  fun_induction entriesOnto count index p c with
  | case1 => cases h
  | case2 => cases h
  | case3 index p c _ constant next hr p' _ ih =>
    exact ((Constant.reader index).advances hr).trans (ih h)
  | case4 =>
    cases h
    exact .refl _

/-- A pool: its count and the entries up to it. -/
def reader : Reader Pool where
  run c :=
    match Reader.word16.run c with
    | .error e => .error e
    | .ok (count, next) => entriesOnto count.toNat 1 empty next
  advances {c _ _} h := by
    cases hr : Reader.word16.run c with
    | error e => simp [hr] at h
    | ok out =>
      simp only [hr] at h
      exact (Reader.word16.advances hr).trans (entriesOnto_advances h)

end Pool

end ClassTemplates
