/-!
# Bytes and big-endian words

Class files store every multi-byte number with its most significant byte first. This module holds
the byte form of the words a class file is made of and the way back.

## Main definitions

- `Bytes` — a sequence of bytes
- `BigEndian.word16`, `word32`, `word64` — the bytes of a word
- `BigEndian.join16`, `join32`, `join64` — the word that two, four or eight bytes spell
- `BigEndian.count16`, `count32` — the length of a list in front of its elements
-/

namespace ClassTemplates

/-- A sequence of bytes. -/
abbrev Bytes := List UInt8

namespace BigEndian

/-- The two bytes of a 16-bit word. -/
def word16 (w : UInt16) : Bytes :=
  [(w >>> 8).toUInt8, w.toUInt8]

/-- The four bytes of a 32-bit word. -/
def word32 (w : UInt32) : Bytes :=
  [(w >>> 24).toUInt8, (w >>> 16).toUInt8, (w >>> 8).toUInt8, w.toUInt8]

/-- The eight bytes of a 64-bit word. -/
def word64 (w : UInt64) : Bytes :=
  word32 (w >>> 32).toUInt32 ++ word32 w.toUInt32

/-- The word whose bytes are `hi` and `lo`. -/
def join16 (hi lo : UInt8) : UInt16 :=
  (hi.toUInt16 <<< 8) ||| lo.toUInt16

/-- The word whose bytes are `a`, `b`, `c` and `d`. -/
def join32 (a b c d : UInt8) : UInt32 :=
  (a.toUInt32 <<< 24) ||| (b.toUInt32 <<< 16) ||| (c.toUInt32 <<< 8) ||| d.toUInt32

/-- The 64-bit word made of two halves. -/
def join64 (hi lo : UInt32) : UInt64 :=
  (hi.toUInt64 <<< 32) ||| lo.toUInt64

/-- The length of a list as a 16-bit word; longer lists lose the high bits of their length. -/
def count16 {α : Type} (xs : List α) : Bytes :=
  word16 (UInt16.ofNat xs.length)

/-- The length of a list as a 32-bit word. -/
def count32 {α : Type} (xs : List α) : Bytes :=
  word32 (UInt32.ofNat xs.length)

@[simp] theorem length_word16 (w : UInt16) : (word16 w).length = 2 := rfl

@[simp] theorem length_word32 (w : UInt32) : (word32 w).length = 4 := rfl

@[simp] theorem length_word64 (w : UInt64) : (word64 w).length = 8 := rfl

@[simp] theorem length_count16 {α : Type} (xs : List α) : (count16 xs).length = 2 := rfl

@[simp] theorem length_count32 {α : Type} (xs : List α) : (count32 xs).length = 4 := rfl

end BigEndian

end ClassTemplates
