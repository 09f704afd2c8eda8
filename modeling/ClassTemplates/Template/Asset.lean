import ClassTemplates.Json.Parser
import ClassTemplates.Template.Catalog

/-!
# Module assets

The build writes one asset for each module: a JSON object with a list of entries for each variant.
An entry has a name, a type and a value, as the members of an object or as the elements of an array.
Entries of type `String` become bindings; entries of any other shape are passed over.

## Main definitions

- `Asset.binding?` — the binding that an entry stands for
- `Asset.bindings` — the bindings of a variant in an asset
- `Asset.parse?` — the same from the text of an asset
-/

namespace ClassTemplates.Asset

/-- The type of the entries that become bindings. -/
def stringType : String := "String"

/-- The name, the type and the value of an entry, where it gives all three. -/
def fields? : Json → Option (Json × Json × Json)
  | .object members => do
    let name ← Json.member? "name" members
    let type ← Json.member? "type" members
    let value ← Json.member? "value" members
    pure (name, type, value)
  | .array [name, type, value] => some (name, type, value)
  | _ => none

/-- The token of a value: the value itself if it is one already. -/
def token (moduleId value : String) : String :=
  if Token.isWhole value then value else Token.wrap moduleId value

/-- The binding that an entry of a module stands for. -/
def binding? (moduleId : String) (entry : Json) : Option Binding :=
  match fields? entry with
  | some (.string name, .string type, .string value) =>
    if type = stringType then some ⟨moduleId, name, token moduleId value⟩ else none
  | _ => none

/-- The entries of a variant, none if the asset does not list any. -/
def entries (variant : String) : Json → List Json
  | .object members =>
    match Json.member? variant members with
    | some (.array entries) => entries
    | _ => []
  | _ => []

/-- The bindings of a variant, in the order of their entries. -/
def bindings (moduleId variant : String) (asset : Json) : List Binding :=
  (entries variant asset).filterMap (binding? moduleId)

/-- The bindings of a variant in the text of an asset; `none` if the text is not JSON. -/
def parse? (moduleId variant text : String) : Option (List Binding) :=
  (Json.parse? text).map (bindings moduleId variant)

end ClassTemplates.Asset
