import ClassTemplates.Bytes
import ClassTemplates.Text.Utf16

/-!
# Modified UTF-8

Text constants are stored one UTF-16 unit at a time, each in one, two or three bytes. U+0000 takes
two bytes, so no byte is zero, and a character above U+FFFF takes six.

## Main definitions

- `ModifiedUtf8.encode` — the bytes of a text
- `ModifiedUtf8.decode` — the text of bytes, if they are well formed and spell one
-/

namespace ClassTemplates.ModifiedUtf8

/-- The bytes of one unit: the shortest form, except that zero takes two bytes. -/
def encodeUnit (u : UInt16) : Bytes :=
  if 0x0001 ≤ u ∧ u ≤ 0x007f then [u.toUInt8]
  else if u ≤ 0x07ff then
    [(0xc0 : UInt8) ||| ((u >>> 6) &&& 0x1f).toUInt8, (0x80 : UInt8) ||| (u &&& 0x3f).toUInt8]
  else
    [(0xe0 : UInt8) ||| ((u >>> 12) &&& 0x0f).toUInt8,
      (0x80 : UInt8) ||| ((u >>> 6) &&& 0x3f).toUInt8, (0x80 : UInt8) ||| (u &&& 0x3f).toUInt8]

/-- The bytes of a text. -/
def encode (text : String) : Bytes :=
  (Utf16.units text).flatMap encodeUnit

/-- The byte is a continuation of the form `10xxxxxx`. -/
def isContinuation (b : UInt8) : Bool :=
  b &&& 0xc0 == 0x80

/-- The unit of a two-byte form. -/
def unitOfTwo (a b : UInt8) : UInt16 :=
  ((a &&& 0x1f).toUInt16 <<< 6) ||| (b &&& 0x3f).toUInt16

/-- The unit of a three-byte form. -/
def unitOfThree (a b c : UInt8) : UInt16 :=
  ((a &&& 0x0f).toUInt16 <<< 12) ||| ((b &&& 0x3f).toUInt16 <<< 6) ||| (c &&& 0x3f).toUInt16

/-- The units that bytes spell, behind those in `done`; longer forms than needed are accepted. -/
def unitsOnto (done : Array UInt16) : Bytes → Option (Array UInt16)
  | [] => some done
  | a :: rest =>
    if a &&& 0x80 == 0 then
      if a == 0 then none else unitsOnto (done.push a.toUInt16) rest
    else if a &&& 0xe0 == 0xc0 then
      match rest with
      | b :: rest => if isContinuation b then unitsOnto (done.push (unitOfTwo a b)) rest else none
      | [] => none
    else if a &&& 0xf0 == 0xe0 then
      match rest with
      | b :: c :: rest =>
        if isContinuation b && isContinuation c then unitsOnto (done.push (unitOfThree a b c)) rest
        else none
      | _ => none
    else none

/-- The text that bytes spell; `none` if a form is broken or a surrogate stands alone. -/
def decode (bytes : Bytes) : Option String :=
  (unitsOnto #[] bytes).bind fun units => Utf16.text? units.toList

end ClassTemplates.ModifiedUtf8
