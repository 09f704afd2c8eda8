import Mathlib.Data.List.Induction
import ClassTemplates.Template.Index

/-!
# Bindings that are kept

Bindings are added to a catalog one after the other. The first one for a token is kept, and no
other, so that a token stands for the first binding that was added for it. The index by which
tokens are found stays in step with the bindings.

## Main definitions

- `Binding.Binds` — a token stands for a binding
- `Catalog.Fresh` — a binding that is kept behind others
- `Catalog.firsts` — the bindings that are kept

## Main results

- `Catalog.Indexed.insert_eq`, `resolve?_eq` — an index changes nothing
- `Catalog.toList_ofBindings` — the bindings of a catalog
- `Catalog.resolve?_ofBindings` — the binding of a token
-/

namespace ClassTemplates

/-- The token of the binding is this one, and is not blank. -/
def Binding.Binds (b : Binding) (token : String) : Prop :=
  Text.isBlankText b.fallback = false ∧ b.fallback = token

instance (b : Binding) (token : String) : Decidable (b.Binds token) :=
  inferInstanceAs (Decidable (_ ∧ _))

namespace Catalog

/-- The token of the binding is not blank, and none of the bindings in front has it. -/
def Fresh (front : List Binding) (b : Binding) : Prop :=
  Text.isBlankText b.fallback = false ∧ ∀ d ∈ front, ¬d.Binds b.fallback

instance (front : List Binding) (b : Binding) : Decidable (Fresh front b) :=
  inferInstanceAs (Decidable (_ ∧ _))

/-- The bindings that are fresh behind those in front of them. -/
def firsts (bindings : List Binding) : List Binding :=
  (bindings.zipIdx.filter fun x => Fresh (bindings.take x.2) x.1).map Prod.fst

variable {c : Catalog} {b : Binding} {bindings front : List Binding} {token : String}

theorem firsts_concat : firsts (bindings ++ [b]) =
    firsts bindings ++ if Fresh bindings b then [b] else [] := by
  have hfront : (bindings.zipIdx.filter fun x => Fresh ((bindings ++ [b]).take x.2) x.1) =
      bindings.zipIdx.filter fun x => Fresh (bindings.take x.2) x.1 := by
    refine List.filter_congr fun x hx => ?_
    have hlt : x.2 < bindings.length := by simpa using List.snd_lt_of_mem_zipIdx hx
    rw [List.take_append_of_le_length (Nat.le_of_lt hlt)]
  rw [firsts, List.zipIdx_append, List.filter_append, List.map_append, hfront, ← firsts]
  congr 1
  by_cases hb : Fresh bindings b <;> simp [hb]

/-! ### One binding more -/

theorem toList_insert : (c.insert b).toList = c.toList ++ if c.accepts b then [b] else [] := by
  unfold insert
  split <;> simp [toList]

/-- A binding that is not kept changes nothing, since its token is blank or has a binding. -/
theorem resolve?_insert : (c.insert b).resolve? token =
    (c.resolve? token).or (if b.Binds token then some b else none) := by
  unfold insert
  split
  · rename_i haccepts
    have hblank : Text.isBlankText b.fallback = false := by
      simpa using (Bool.and_eq_true_iff.1 haccepts).1
    simp [resolve?, Array.find?_push, Binding.Binds, hblank]
  · rename_i haccepts
    by_cases hbinds : b.Binds token
    · obtain ⟨hblank, rfl⟩ := hbinds
      obtain ⟨d, hd⟩ : ∃ d, c.resolve? b.fallback = some d := by
        simpa [accepts, hblank, Option.ne_none_iff_exists'] using haccepts
      simp [hd]
    · simp [hbinds]

/-! ### Bindings in order -/

theorem ofBindings_concat : ofBindings (bindings ++ [b]) = (ofBindings bindings).insert b := by
  simp [ofBindings, insertAll]

/-- A token stands for the first binding that was added for it. -/
theorem resolve?_ofBindings :
    (ofBindings bindings).resolve? token = bindings.find? fun b => b.Binds token := by
  induction bindings using List.reverseRecOn with
  | nil => rfl
  | append_singleton front b ih =>
    rw [ofBindings_concat, resolve?_insert, ih, List.find?_append]
    congr 1
    by_cases hb : b.Binds token <;> simp [hb]

theorem accepts_ofBindings : (ofBindings front).accepts b = true ↔ Fresh front b := by
  simp [accepts, Fresh, resolve?_ofBindings]

theorem toList_ofBindings : (ofBindings bindings).toList = firsts bindings := by
  induction bindings using List.reverseRecOn with
  | nil => rfl
  | append_singleton front b ih =>
    rw [ofBindings_concat, toList_insert, ih, firsts_concat]
    simp only [accepts_ofBindings]

/-! ### The index -/

namespace Indexed

variable {c : Indexed}

theorem resolve?_eq : c.resolve? token = c.catalog.resolve? token := by
  rw [resolve?, place?, c.inStep, Catalog.resolve?, Array.find?_eq_bind_findIdx?_getElem?]
  rfl

/-- A token has a place if and only if it has a binding. -/
theorem place?_eq_none_iff : c.place? token = none ↔ c.catalog.resolve? token = none := by
  rw [place?, c.inStep, Catalog.resolve?, Array.findIdx?_eq_none_iff, Array.find?_eq_none]
  simp [catalog]

theorem insert_eq :
    (c.insert b).1 = c.catalog.accepts b ∧ (c.insert b).2.catalog = c.catalog.insert b := by
  unfold insert Catalog.insert accepts
  split
  · rename_i hblank
    simp [hblank]
  · rename_i hblank
    split
    · rename_i n hplace
      obtain ⟨d, hd⟩ : ∃ d, c.catalog.resolve? b.fallback = some d := by
        rw [← Option.ne_none_iff_exists', ne_eq, ← place?_eq_none_iff, hplace]
        exact nofun
      simp [hd]
    · rename_i hplace
      have hnone := place?_eq_none_iff.1 hplace
      simp only [hnone, hblank]
      exact ⟨rfl, rfl⟩

theorem catalog_insertAll :
    (c.insertAll bindings).catalog = c.catalog.insertAll bindings := by
  induction bindings generalizing c with
  | nil => rfl
  | cons b rest ih =>
    have hrest : ((c.insert b).2.insertAll rest).catalog = _ := ih
    rw [insert_eq.2] at hrest
    exact hrest

theorem catalog_ofBindings : (ofBindings bindings).catalog = Catalog.ofBindings bindings :=
  catalog_insertAll

end Indexed

end Catalog

end ClassTemplates
