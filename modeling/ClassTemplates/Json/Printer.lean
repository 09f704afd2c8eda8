import ClassTemplates.Json.Value
import ClassTemplates.Text.Hex

/-!
# Writing JSON

Values are written over several lines: each element and each member has a line of its own, two
blanks further in than the brackets around it. Strings escape quotes, backslashes and control
characters.

## Main definitions

- `Json.quote` — a text as a JSON string
- `Json.pretty` — a value over several lines
-/

namespace ClassTemplates.Json

/-- How a character is written inside a string. -/
def escape (c : Char) : String :=
  if c == '"' then "\\\""
  else if c == '\\' then "\\\\"
  else if c == '\x08' then "\\b"
  else if c == '\x0c' then "\\f"
  else if c == '\n' then "\\n"
  else if c == '\r' then "\\r"
  else if c == '\t' then "\\t"
  else if c.toNat < 0x20 then "\\u" ++ Hex.padded 4 c.toNat
  else c.toString

/-- A text as a JSON string. -/
def quote (text : String) : String :=
  (text.toList.foldl (fun done c => done ++ escape c) "\"") ++ "\""

/-- The start of a line that is `depth` brackets deep. -/
def lineStart (depth : Nat) : String :=
  "\n" ++ String.ofList (List.replicate (2 * depth) ' ')

/-- Items between brackets, one to a line; without items the brackets touch. -/
def block (opening closing : String) (depth : Nat) (items : List String) : String :=
  if items.isEmpty then opening ++ closing
  else
    opening ++ lineStart (depth + 1) ++ (String.intercalate ("," ++ lineStart (depth + 1)) items)
      ++ lineStart depth ++ closing

/-- A value that starts on a line `depth` brackets deep. -/
def prettyAt (depth : Nat) (v : Json) : String :=
  match v with
  | null => "null"
  | bool true => "true"
  | bool false => "false"
  | number lexeme => lexeme
  | string text => quote text
  | array elements =>
    block "[" "]" depth (elements.attach.map fun ⟨e, _⟩ => prettyAt (depth + 1) e)
  | object members =>
    block "\x7b" "\x7d" depth
      (members.attach.map fun ⟨m, _⟩ => quote m.1 ++ ": " ++ prettyAt (depth + 1) m.2)
termination_by sizeOf v
decreasing_by
  · rename_i h
    have := List.sizeOf_lt_of_mem h
    simp
    omega
  · rename_i h
    have hm := List.sizeOf_lt_of_mem h
    obtain ⟨name, value⟩ := m
    simp at hm ⊢
    omega

/-- A value over several lines. -/
def pretty (v : Json) : String :=
  prettyAt 0 v

end ClassTemplates.Json
