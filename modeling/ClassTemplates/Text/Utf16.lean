/-!
# UTF-16 code units

A character is one unit, or a pair of surrogates when it lies above U+FFFF. Reading units back fails
on a surrogate without its partner.

## Main definitions

- `Utf16.units` — the units of a text
- `Utf16.text?` — the text that units spell
-/

namespace ClassTemplates.Utf16

/-- The units of one character. -/
def unitsOfChar (c : Char) : List UInt16 :=
  let n := c.toNat
  if n < 0x10000 then [UInt16.ofNat n]
  else
    [UInt16.ofNat (0xd800 + (n - 0x10000) / 0x400), UInt16.ofNat (0xdc00 + (n - 0x10000) % 0x400)]

/-- The units of a text, in order. -/
def units (text : String) : List UInt16 :=
  text.toList.flatMap unitsOfChar

/-- The first half of a pair. -/
def isLeading (u : UInt16) : Bool :=
  0xd800 ≤ u && u < 0xdc00

/-- The second half of a pair. -/
def isTrailing (u : UInt16) : Bool :=
  0xdc00 ≤ u && u < 0xe000

/-- The character that a pair spells. -/
def pairChar (leading trailing : UInt16) : Char :=
  Char.ofNat (0x10000 + (leading.toNat - 0xd800) * 0x400 + (trailing.toNat - 0xdc00))

/-- The characters that units spell, behind those in `done`; `none` if a surrogate stands alone. -/
def charsOnto (done : Array Char) : List UInt16 → Option (Array Char)
  | [] => some done
  | u :: rest =>
    if isLeading u then
      match rest with
      | v :: rest => if isTrailing v then charsOnto (done.push (pairChar u v)) rest else none
      | [] => none
    else if isTrailing u then none
    else charsOnto (done.push (Char.ofNat u.toNat)) rest

/-- The text that units spell; `none` if a surrogate stands alone. -/
def text? (us : List UInt16) : Option String :=
  (charsOnto #[] us).map fun chars => String.ofList chars.toList

end ClassTemplates.Utf16
