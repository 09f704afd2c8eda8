/-!
# JSON values

## Main definitions

- `Json` — a value
- `Json.member?` — the member of an object, the last of those with one name
-/

namespace ClassTemplates

/-- A JSON value. Numbers keep their text; objects keep every member in order. -/
inductive Json
  | null
  | bool (value : Bool)
  | number (lexeme : String)
  | string (text : String)
  | array (elements : List Json)
  | object (members : List (String × Json))
  deriving Repr

namespace Json

/-- The member with a name; of several with one name the last counts. -/
def member? (name : String) (members : List (String × Json)) : Option Json :=
  (members.reverse.find? fun m => m.1 == name).map (·.2)

end Json

end ClassTemplates
