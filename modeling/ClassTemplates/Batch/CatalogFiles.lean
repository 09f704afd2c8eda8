import ClassTemplates.Batch.Error
import ClassTemplates.Template.Asset
import ClassTemplates.Template.Index

/-!
# Catalogs from files

A catalog is a directory with an asset for each module, a file that is named for the module. The
assets are taken in the order of their names, so that it is clear which binding of a token stays.

## Main definitions

- `Tree.assetNames` — the names of the assets in a directory
- `Catalog.load` — the catalog of a directory
-/

namespace ClassTemplates

/-- The extension of assets. -/
def assetExtension : String := "json"

/-- The names of the assets in a directory, in order. -/
def Tree.assetNames (t : Tree) (path : String) : List String :=
  match t.below path with
  | .error _ => []
  | .ok all =>
    (all.filterMap onlyName?).filter fun name => Path.extension? name == some assetExtension
where
  /-- The name of a file that is not in a deeper directory. -/
  onlyName? : List String → Option String
    | [name] => some name
    | _ => none

namespace Catalog

/-- The text of a file. -/
def readText (t : Tree) (path : String) : Except RunError String :=
  match t.contents? path with
  | none => .error (.file (.missing path))
  | some contents =>
    match String.fromUTF8? ⟨contents.toBytes.toArray⟩ with
    | none => .error (.file (.notText path))
    | some text => .ok text

/-- The catalog with the bindings of a variant in an asset. -/
def addAsset (t : Tree) (directory variant : String) (catalog : Indexed) (name : String) :
    Except RunError Indexed := do
  let path := Path.join directory name
  let text ← readText t path
  match Asset.parse? (Path.stem name) variant text with
  | none => .error (.badAsset path)
  | some bindings => pure (catalog.insertAll bindings)

/-- The catalog of a variant from the assets in a directory. -/
def load (t : Tree) (directory variant : String) : Except RunError Catalog :=
  if t.isDirectory directory then
    ((t.assetNames directory).foldlM (addAsset t directory variant) .empty).map Indexed.catalog
  else .error (.noCatalog directory)

end Catalog

end ClassTemplates
