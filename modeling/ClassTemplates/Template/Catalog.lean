import ClassTemplates.Template.Token
import ClassTemplates.Text.Blank

/-!
# Catalogs

A catalog tells which module and key a token stands for. Tokens are told apart by their whole text;
the first binding of a token stays.

## Main definitions

- `Binding` — a token with the module and the key it stands for
- `Catalog` — bindings in the order in which they were added
- `Catalog.insert`, `Catalog.ofBindings` — building a catalog
- `Catalog.resolve?` — the binding of a token
-/

namespace ClassTemplates

/-- The module and the key that a token stands for. -/
structure Binding where
  moduleId : String
  key : String
  /-- The text of the token, which is also what a lookup falls back to. -/
  fallback : String
  deriving DecidableEq, Repr

/-- Bindings in the order in which they were added. -/
structure Catalog where
  bindings : Array Binding
  deriving DecidableEq, Repr

namespace Catalog

/-- The catalog without bindings. -/
def empty : Catalog :=
  ⟨#[]⟩

/-- The bindings in the order in which they were added. -/
def toList (c : Catalog) : List Binding :=
  c.bindings.toList

/-- The binding of a token. -/
def resolve? (c : Catalog) (token : String) : Option Binding :=
  c.bindings.find? fun b => b.fallback == token

/-- The binding would be kept: its token is not blank and has no binding yet. -/
def accepts (c : Catalog) (b : Binding) : Bool :=
  !Text.isBlankText b.fallback && (c.resolve? b.fallback).isNone

/-- The catalog with a binding, if it is to be kept. -/
def insert (c : Catalog) (b : Binding) : Catalog :=
  if c.accepts b then ⟨c.bindings.push b⟩ else c

/-- The catalog with bindings added in order. -/
def insertAll (c : Catalog) (bindings : List Binding) : Catalog :=
  bindings.foldl insert c

/-- The catalog of bindings added in order. -/
def ofBindings (bindings : List Binding) : Catalog :=
  empty.insertAll bindings

end Catalog

end ClassTemplates
