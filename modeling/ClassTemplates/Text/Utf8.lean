import ClassTemplates.Bytes

/-!
# UTF-8 with damage

A character takes one to four bytes, and the first byte fixes how many and the range of the second.
Where a byte does not fit, what came before it of the same character is replaced, and reading goes
on with that byte.

## Main definitions

- `Utf8.decodeLossy` — the text of bytes, with U+FFFD for what spells no character
-/

namespace ClassTemplates.Utf8

/-- What stands for bytes that spell no character. -/
def replacement : Char := '\ufffd'

/-- A character of which some bytes have been read: the bits so far, how many bytes are due, and
the range of the next one. -/
structure Begun where
  value : Nat
  due : Nat
  low : UInt8
  high : UInt8
  deriving DecidableEq, Repr

/-- The character that a byte begins, if one of several bytes can begin with it. -/
def begin? (b : UInt8) : Option Begun :=
  if 0xc2 ≤ b ∧ b ≤ 0xdf then some ⟨b.toNat % 32, 1, 0x80, 0xbf⟩
  else if b = 0xe0 then some ⟨0, 2, 0xa0, 0xbf⟩
  else if b = 0xed then some ⟨13, 2, 0x80, 0x9f⟩
  else if 0xe1 ≤ b ∧ b ≤ 0xef then some ⟨b.toNat % 16, 2, 0x80, 0xbf⟩
  else if b = 0xf0 then some ⟨0, 3, 0x90, 0xbf⟩
  else if 0xf1 ≤ b ∧ b ≤ 0xf3 then some ⟨b.toNat % 8, 3, 0x80, 0xbf⟩
  else if b = 0xf4 then some ⟨4, 3, 0x80, 0x8f⟩
  else none

/-- A byte between characters, with the text so far. -/
def first (done : Array Char) (b : UInt8) : Array Char × Option Begun :=
  if b < 0x80 then (done.push (Char.ofNat b.toNat), none)
  else
    match begin? b with
    | some c => (done, some c)
    | none => (done.push replacement, none)

/-- A byte after the text so far and what has begun. -/
def next (done : Array Char) (begun : Option Begun) (b : UInt8) : Array Char × Option Begun :=
  match begun with
  | none => first done b
  | some c =>
    if c.low ≤ b ∧ b ≤ c.high then
      let value := 64 * c.value + b.toNat % 64
      if c.due ≤ 1 then (done.push (Char.ofNat value), none)
      else (done, some ⟨value, c.due - 1, 0x80, 0xbf⟩)
    else first (done.push replacement) b

/-- The characters of bytes behind those in `done` and what has begun. -/
def charsOnto (done : Array Char) (begun : Option Begun) : Bytes → Array Char
  | [] => if begun.isSome then done.push replacement else done
  | b :: rest =>
    let (done, begun) := next done begun b
    charsOnto done begun rest

/-- The text of bytes, with U+FFFD for what spells no character. -/
def decodeLossy (bytes : Bytes) : String :=
  String.ofList (charsOnto #[] none bytes).toList

/-- The text of bytes that are well formed. -/
def decode? (bytes : Bytes) : Option String :=
  String.fromUTF8? ⟨bytes.toArray⟩

end ClassTemplates.Utf8
