import ClassTemplates.Template.Catalog

/-!
# Catalogs with an index

While a catalog is put together, tokens are not searched for among the bindings. The place of the
binding of each token is kept beside them, in step with them.

## Main definitions

- `Catalog.Indexed` — bindings with the places of their tokens
- `Catalog.Indexed.insert` — one more binding, and whether it was kept
- `Catalog.Indexed.resolve?` — the binding of a token
-/

namespace ClassTemplates.Catalog

/-- Bindings in the order in which they were added, with the place of each token among them. -/
structure Indexed where
  bindings : Array Binding
  places : List (String × Nat)
  inStep : ∀ token, places.lookup token = bindings.findIdx? fun b => b.fallback == token

namespace Indexed

def empty : Indexed :=
  ⟨#[], [], fun _ => Array.findIdx?_empty.symm⟩

/-- The place of the binding of a token. -/
def place? (c : Indexed) (token : String) : Option Nat :=
  c.places.lookup token

/-- The binding of a token. -/
def resolve? (c : Indexed) (token : String) : Option Binding :=
  (c.place? token).bind fun n => c.bindings[n]?

/-- A token that has no place gets the one behind all others. -/
def push (c : Indexed) (b : Binding) (h : c.place? b.fallback = none) : Indexed where
  bindings := c.bindings.push b
  places := (b.fallback, c.bindings.size) :: c.places
  inStep token := by
    rw [Array.findIdx?_push, ← c.inStep, List.lookup_cons, BEq.comm (a := token)]
    cases htoken : b.fallback == token with
    | true =>
      have hnone : c.places.lookup token = none := eq_of_beq htoken ▸ h
      simp [hnone]
    | false => simp

/-- The catalog with a binding, and whether it was kept. A binding is not kept if its token is blank
or has a binding. -/
def insert (c : Indexed) (b : Binding) : Bool × Indexed :=
  if Text.isBlankText b.fallback then (false, c)
  else
    match h : c.place? b.fallback with
    | some _ => (false, c)
    | none => (true, c.push b h)

/-- The catalog with bindings added in order. -/
def insertAll (c : Indexed) (bindings : List Binding) : Indexed :=
  bindings.foldl (fun c b => (c.insert b).2) c

/-- The catalog of bindings added in order. -/
def ofBindings (bindings : List Binding) : Indexed :=
  empty.insertAll bindings

/-- The bindings alone. -/
def catalog (c : Indexed) : Catalog :=
  ⟨c.bindings⟩

end Indexed

end ClassTemplates.Catalog
