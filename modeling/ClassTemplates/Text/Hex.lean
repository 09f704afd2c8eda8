import ClassTemplates.Bytes

/-!
# Hexadecimal text

Numbers in messages and bytes in listings are written with lower-case hexadecimal digits.

## Main definitions

- `Hex.padded` — a number with at least a given count of digits
- `Hex.ofBytes`, `Hex.toBytes?` — two digits for each byte, and back
-/

namespace ClassTemplates.Hex

/-- The lower-case digit of a number below sixteen. -/
def digit (n : Nat) : Char :=
  if n < 10 then Char.ofNat (48 + n) else Char.ofNat (87 + n)

/-- The digits of `n`, padded on the left with zeros to at least `width` digits. -/
def padded (width n : Nat) : String :=
  let digits := Nat.toDigits 16 n
  String.ofList (List.replicate (width - digits.length) '0' ++ digits)

/-- Two digits for each byte, in order. -/
def ofBytes (bytes : Bytes) : String :=
  bytes.foldl (fun text b => (text.push (digit (b.toNat / 16))).push (digit (b.toNat % 16))) ""

/-- The value of a lower-case digit. -/
def value? (c : Char) : Option Nat :=
  if '0' ≤ c ∧ c ≤ '9' then some (c.toNat - 48)
  else if 'a' ≤ c ∧ c ≤ 'f' then some (c.toNat - 87)
  else none

/-- The bytes that pairs of digits spell, behind those in `done`. -/
def bytesOnto (done : Array UInt8) : List Char → Option (Array UInt8)
  | [] => some done
  | [_] => none
  | a :: b :: rest =>
    match value? a, value? b with
    | some a, some b => bytesOnto (done.push (UInt8.ofNat (a * 16 + b))) rest
    | _, _ => none

/-- The bytes that pairs of digits spell. -/
def toBytes? (text : String) : Option Bytes :=
  (bytesOnto #[] text.toList).map Array.toList

end ClassTemplates.Hex
