import ClassTemplates.ClassFile.Binary
import ClassTemplates.Proofs.Format.Attributes
import ClassTemplates.Proofs.Format.Pools

/-!
# The byte form of classes

Bytes are read as a class if they are what is written of it, up to the spelling of its pool.

## Main definitions

- `Member.AsRead`, `ClassFile.AsRead` — a class in the form in which it is read
- `ClassFile.front`, `ClassFile.back` — what is written in front of the pool and behind it

## Main results

- `ClassFile.ofBytes_eq_ok` — the bytes that are read as a class
- `ClassFile.toBytes_of_ofBytes` — writing a class that has been read
-/

namespace ClassTemplates

open BigEndian
open Reader (accepts_word16 accepts_word32 accepts_pure accepts_fail)

/-! ### Fields and methods -/

/-- The attributes of a field or method are in the form in which they are read. -/
def Member.AsRead (p : Pool) (m : Member) : Prop :=
  m.attributes.length < 0x10000 ∧ ∀ a ∈ m.attributes, a.AsRead p

theorem Member.accepts_reader (p : Pool) :
    (Member.reader p).AcceptsWritten Member.toBytes (Member.AsRead p) := by
  refine (accepts_word16.bind fun _ => accepts_word16.bind fun _ => accepts_word16.bind fun _ =>
    (Attribute.accepts_listReader p).bind fun _ => accepts_pure _).congr fun m bytes => ?_
  obtain ⟨access, name, descriptor, attributes⟩ := m
  simp [AsRead, toBytes]

/-! ### Classes -/

namespace ClassFile

/-- What is written in front of the pool. -/
def front (cls : ClassFile) : Bytes :=
  word32 magic ++ (word16 cls.minorVersion ++ word16 cls.majorVersion)

/-- What is written behind the pool. -/
def back (cls : ClassFile) : Bytes :=
  word16 cls.access ++ (word16 cls.thisClass ++ (word16 cls.superClass
    ++ ((count16 cls.interfaces ++ cls.interfaces.flatMap word16)
    ++ ((count16 cls.fields ++ cls.fields.flatMap Member.toBytes)
    ++ ((count16 cls.methods ++ cls.methods.flatMap Member.toBytes)
    ++ Attribute.listBytes cls.attributes)))))

theorem toBytes_eq (cls : ClassFile) :
    cls.toBytes = cls.front ++ (cls.pool.toBytes ++ cls.back) := by
  simp only [toBytes, front, back, List.append_assoc]

/-- The class is in the form in which it is read. -/
structure AsRead (cls : ClassFile) : Prop where
  interfaces : cls.interfaces.length < 0x10000
  fields : cls.fields.length < 0x10000 ∧ ∀ m ∈ cls.fields, m.AsRead cls.pool
  methods : cls.methods.length < 0x10000 ∧ ∀ m ∈ cls.methods, m.AsRead cls.pool
  attributes : cls.attributes.length < 0x10000 ∧ ∀ a ∈ cls.attributes, a.AsRead cls.pool

theorem asRead_iff {cls : ClassFile} : cls.AsRead ↔ cls.interfaces.length < 0x10000 ∧
    (cls.fields.length < 0x10000 ∧ ∀ m ∈ cls.fields, m.AsRead cls.pool) ∧
    (cls.methods.length < 0x10000 ∧ ∀ m ∈ cls.methods, m.AsRead cls.pool) ∧
    (cls.attributes.length < 0x10000 ∧ ∀ a ∈ cls.attributes, a.AsRead cls.pool) :=
  ⟨fun h => ⟨h.interfaces, h.fields, h.methods, h.attributes⟩, fun ⟨a, b, c, d⟩ => ⟨a, b, c, d⟩⟩

theorem accepts_magicReader : magicReader.Accepts fun _ bytes => bytes = word32 magic := by
  have hcheck (found : UInt32) : (if found = magic then pure () else
      Reader.fail (.badMagic found) : Reader Unit).Accepts
        fun _ bytes => found = magic ∧ bytes = [] := by
    split
    · rename_i h
      exact (accepts_pure ()).congr fun _ bytes => by simp [h]
    · rename_i h
      exact (accepts_fail _).congr fun _ bytes => by simp [h]
  exact (accepts_word32.bind hcheck).congr fun _ bytes => by simp

theorem accepts_reader : reader.Accepts fun cls bytes => cls.AsRead ∧
    ∃ count constants pieces, cls.pool.Spelled count constants pieces ∧
      bytes = cls.front ++ ((word16 count ++ pieces.flatten) ++ cls.back) := by
  have hword : (Reader.counted16 Reader.word16).AcceptsWritten
      (fun ws => count16 ws ++ ws.flatMap word16) fun ws => ws.length < 0x10000 ∧ ∀ w ∈ ws, True :=
    Reader.AcceptsWritten.counted16 (accepts_word16.congr fun _ _ => by simp)
  refine (accepts_magicReader.bind fun _ => accepts_word16.bind fun _ =>
    accepts_word16.bind fun _ => Pool.accepts_reader.bind fun p => accepts_word16.bind fun _ =>
    accepts_word16.bind fun _ => accepts_word16.bind fun _ => hword.bind fun _ =>
    (Member.accepts_reader p).counted16.bind fun _ =>
    (Member.accepts_reader p).counted16.bind fun _ => (Attribute.accepts_listReader p).bind fun _ =>
    accepts_pure _).congr fun cls bytes => ?_
  obtain ⟨minor, major, pool, access, thisClass, superClass, interfaces, fields, methods,
    attributes⟩ := cls
  simp only [↓existsAndEq, and_true, implies_true, mk.injEq, List.append_nil, List.append_assoc,
    true_and, exists_const, asRead_iff, front, back]
  constructor
  · rintro ⟨count, constants, pieces, ⟨hpool, hread⟩, hbytes⟩
    exact ⟨hread, count, constants, pieces, hpool, hbytes⟩
  · rintro ⟨hread, count, constants, pieces, hpool, hbytes⟩
    exact ⟨count, constants, pieces, ⟨hpool, hread⟩, hbytes⟩

variable {cls : ClassFile} {bytes : Bytes} {count : UInt16} {constants : List Constant}
  {pieces : List Bytes}

/-- Bytes are read as a class that is in the form in which it is read if they are what is written of
it, with any spelling of its pool. -/
theorem ofBytes_eq_ok : ofBytes bytes = .ok cls ↔ cls.AsRead ∧
    ∃ count constants pieces, cls.pool.Spelled count constants pieces ∧
      bytes = cls.front ++ ((word16 count ++ pieces.flatten) ++ cls.back) := by
  unfold ofBytes
  constructor
  · intro h
    split at h
    · cases h
    rename_i found stop hrun
    split at h
    · rename_i hempty
      cases h
      obtain ⟨_, hpass, hread, count, constants, pieces, hpool, rfl⟩ :=
        accepts_reader.exists_spelling hrun
      have hbytes := hpass.1
      rw [List.isEmpty_iff.1 hempty, List.append_nil] at hbytes
      exact ⟨hread, count, constants, pieces, hpool, hbytes⟩
    · cases h
  · rintro ⟨hread, count, constants, pieces, hpool, hbytes⟩
    have hrun := accepts_reader.run (a := cls) ⟨hread, count, constants, pieces, hpool, rfl⟩ [] 0
    rw [← hbytes, List.append_nil] at hrun
    rw [Cursor.start, hrun]
    rfl

/-- The bytes are those of the class, with `pieces` for the constants of its pool and `count` in
front of them. -/
structure StoredAs (cls : ClassFile) (bytes : Bytes) (count : UInt16) (constants : List Constant)
    (pieces : List Bytes) : Prop where
  slots : cls.pool.slots.toList = constants.flatMap Constant.slots
  spelled : List.Forall₂ Constant.Spelled constants pieces
  /-- The count is that of the pool, or nothing is counted, or it leads into the middle of the last
  constant. -/
  count_eq : count = cls.pool.count ∨ constants = [] ∧ count = 0 ∨
    (∃ c, constants.getLast? = some c ∧ c.width = 2) ∧ count.toNat + 1 = cls.pool.count.toNat
  bytes_eq : bytes = cls.front ++ ((word16 count ++ pieces.flatten) ++ cls.back)
  toBytes_eq : cls.toBytes = cls.front ++
    ((word16 cls.pool.count ++ (constants.map Constant.toBytes).flatten) ++ cls.back)

/-- Writing a class that has been read gives back all bytes but those of its pool, of which texts
get their shortest spelling and the count becomes that of the pool. The same bytes come back if and
only if they were like this. -/
theorem toBytes_of_ofBytes (h : ofBytes bytes = .ok cls) :
    ∃ count constants pieces, cls.StoredAs bytes count constants pieces ∧
      (cls.toBytes = bytes ↔ count = cls.pool.count ∧ pieces = constants.map Constant.toBytes) := by
  obtain ⟨-, count, constants, pieces, hpool, rfl⟩ := ofBytes_eq_ok.1 h
  refine ⟨count, constants, pieces,
    ⟨hpool.slots, hpool.spelled, hpool.count_eq, rfl, ?_⟩, ?_⟩
  · rw [toBytes_eq, hpool.toBytes_eq]
  · rw [toBytes_eq, List.append_cancel_left_eq, List.append_cancel_right_eq, hpool.toBytes_eq_iff]

/-- A class without content but for the text of one character. -/
def letterClass : ClassFile :=
  { empty with pool := .ofConstants [.utf8 "A"] }

/-- The bytes of the class with its text in two bytes, of which one would do. -/
def longLetterBytes : Bytes :=
  letterClass.front ++ ((word16 2 ++ Constant.textBytes [0xc1, 0x81]) ++ letterClass.back)

theorem ofBytes_longLetterBytes : ofBytes longLetterBytes = .ok letterClass := by
  have hspelled : Constant.Spelled (.utf8 "A") (Constant.textBytes [0xc1, 0x81]) :=
    ⟨[0xc1, 0x81], by decide +kernel, by decide, rfl⟩
  have hread : letterClass.AsRead := by
    constructor <;> simp [letterClass, empty]
  exact ofBytes_eq_ok.2 ⟨hread, 2, [.utf8 "A"], [Constant.textBytes [0xc1, 0x81]],
    ⟨rfl, (by decide : 1 ≤ Pool.maxSlots), ⟨by decide, Nat.le_refl 2⟩, .cons hspelled .nil⟩, rfl⟩

/-- Such a class does not come back in the same bytes. -/
theorem toBytes_of_ofBytes_letter : ofBytes longLetterBytes = .ok letterClass ∧
    letterClass.toBytes ≠ longLetterBytes ∧
    ∃ count constants pieces, letterClass.StoredAs longLetterBytes count constants pieces ∧
      (letterClass.toBytes = longLetterBytes ↔
        count = letterClass.pool.count ∧ pieces = constants.map Constant.toBytes) :=
  ⟨ofBytes_longLetterBytes, by decide +kernel, toBytes_of_ofBytes ofBytes_longLetterBytes⟩

end ClassFile

end ClassTemplates
