/-!
# Blank characters and divided texts

The characters with the Unicode property `White_Space`, trimming by them, and what stands between
the dividers of a text.

## Main definitions

- `Text.isBlank` — the property
- `Text.trim` — a text without the blanks at its ends
- `Text.split` — the parts of a text
-/

namespace ClassTemplates.Text

/-- The character has the Unicode property `White_Space`. -/
def isBlank (c : Char) : Bool :=
  let n := c.toNat
  (9 ≤ n && n ≤ 13) || n == 0x20 || n == 0x85 || n == 0xa0 || n == 0x1680
    || (0x2000 ≤ n && n ≤ 0x200a) || n == 0x2028 || n == 0x2029 || n == 0x202f || n == 0x205f
    || n == 0x3000

/-- The text without the blanks at its two ends. -/
def trim (text : String) : String :=
  String.ofList ((text.toList.dropWhile isBlank).reverse.dropWhile isBlank).reverse

/-- What stands between the dividers of a text, empty parts included. -/
def split (divider : Char) (text : String) : List String :=
  (text.toList.splitOn divider).map String.ofList

/-- The text holds nothing but blanks. -/
def isBlankText (text : String) : Bool :=
  text.toList.all isBlank

end ClassTemplates.Text
