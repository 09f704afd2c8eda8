import ClassTemplates.Batch.CatalogFiles
import ClassTemplates.Proofs.Files.Walking
import ClassTemplates.Proofs.Outcome
import ClassTemplates.Proofs.Template.Catalogs

/-!
# Catalogs of directories

The assets in a directory are read in the order of their names, and of each the entries of the
variant in the order in which they are listed. So a token stands for the first binding in that
order. What is no entry with the type of texts makes no difference, wherever it is listed.

## Main definitions

- `Asset.Entry` — an entry that becomes a binding
- `Asset.Lists` — the bindings of the entries among some values
- `Asset.Supplies` — the bindings of the file with a name

## Main results

- `Asset.binding?_eq_some` — which values become bindings
- `Tree.mem_assetNames`, `sorted_assetNames` — the names of assets
- `Catalog.first_kept` — the binding of a token, over bindings that are added and over a directory
-/

namespace ClassTemplates

/-! ### Entries -/

namespace Asset

/-- The value is an entry of a text: an object with a name, the type of texts and a value, or these
three in an array. -/
inductive Entry (name value : String) : Json → Prop
  | object {members : List (String × Json)} :
      Json.member? "name" members = some (.string name) →
      Json.member? "type" members = some (.string stringType) →
      Json.member? "value" members = some (.string value) → Entry name value (.object members)
  | array : Entry name value (.array [.string name, .string stringType, .string value])

/-- The entries of texts among some values become bindings, in order; other values are passed
over. -/
inductive Lists (moduleId : String) : List Json → List Binding → Prop
  | nil : Lists moduleId [] []
  | entry {name value : String} {x : Json} {rest : List Json} {bindings : List Binding} :
      Entry name value x → Lists moduleId rest bindings →
      Lists moduleId (x :: rest) (⟨moduleId, name, token moduleId value⟩ :: bindings)
  | other {x : Json} {rest : List Json} {bindings : List Binding} :
      (∀ name value, ¬Entry name value x) → Lists moduleId rest bindings →
      Lists moduleId (x :: rest) bindings

/-- The file with this name in a directory holds an asset, and these are the bindings of the
variant in it. -/
def Supplies (t : Tree) (directory variant name : String) (bindings : List Binding) : Prop :=
  ∃ text asset, Catalog.readText t (Path.join directory name) = .ok text ∧
    Json.parse? text = some asset ∧ Lists (Path.stem name) (entries variant asset) bindings

variable {moduleId name value : String} {x : Json} {b : Binding}

theorem fields?_of_entry (h : Entry name value x) :
    fields? x = some (.string name, .string stringType, .string value) := by
  cases h with
  | object hname htype hvalue => simp [fields?, hname, htype, hvalue]
  | array => rfl

theorem entry_of_fields? (h : fields? x = some (.string name, .string stringType, .string value)) :
    Entry name value x := by
  unfold fields? at h
  split at h
  · simp only [Option.bind_eq_bind, Option.bind_eq_some_iff, Option.pure_def, Option.some.injEq,
      Prod.mk.injEq] at h
    obtain ⟨_, hname, _, htype, _, hvalue, rfl, rfl, rfl⟩ := h
    exact .object hname htype hvalue
  · cases h
    exact .array
  · cases h

/-- Entries of texts become bindings, and nothing else does. -/
theorem binding?_eq_some : binding? moduleId x = some b ↔
    ∃ name value, Entry name value x ∧ b = ⟨moduleId, name, token moduleId value⟩ := by
  unfold binding?
  constructor
  · intro h
    split at h
    · rename_i name type value hfields
      obtain ⟨rfl, hb⟩ := Option.ite_none_right_eq_some.1 h
      exact ⟨name, value, entry_of_fields? hfields, (Option.some.inj hb).symm⟩
    · cases h
  · rintro ⟨name, value, hentry, rfl⟩
    simp [fields?_of_entry hentry]

theorem lists_filterMap (moduleId : String) (values : List Json) :
    Lists moduleId values (values.filterMap (binding? moduleId)) := by
  induction values with
  | nil => exact .nil
  | cons x rest ih =>
    cases hx : binding? moduleId x with
    | some b =>
      obtain ⟨name, value, hentry, rfl⟩ := binding?_eq_some.1 hx
      rw [List.filterMap_cons_some hx]
      exact .entry hentry ih
    | none =>
      rw [List.filterMap_cons_none hx]
      refine .other (fun name value hentry => ?_) ih
      rw [binding?_eq_some.2 ⟨name, value, hentry, rfl⟩] at hx
      cases hx

end Asset

/-! ### Names -/

namespace Tree

variable {t : Tree} {path name : String}

theorem onlyName?_eq_some {names : List String} :
    assetNames.onlyName? names = some name ↔ names = [name] := by
  unfold assetNames.onlyName?
  split <;> simp_all

/-- The assets in a directory are the files in it that have the extension of assets. -/
theorem mem_assetNames (h : t.isDirectory path = true) : name ∈ t.assetNames path ↔
    t.HasFile path [name] ∧ Path.extension? name = some assetExtension := by
  obtain ⟨all, hall⟩ : ∃ all, t.below path = .ok all := by
    unfold isDirectory at h
    unfold below
    split at h
    · rename_i l hlocate
      rw [hlocate]
      exact ⟨_, by simp only [h, Bool.true_or, if_true]; rfl⟩
    · cases h
  rw [assetNames, hall]
  simp only [List.mem_filter, List.mem_filterMap, onlyName?_eq_some, exists_eq_right, beq_iff_eq,
    (mem_below hall).2]

/-- Assets are in the order of their names, each of them once. -/
theorem sorted_assetNames (t : Tree) (path : String) : (t.assetNames path).Pairwise (· < ·) := by
  unfold assetNames
  split
  · exact .nil
  · rename_i all hall
    refine List.Pairwise.filter _ (List.pairwise_filterMap.2 ?_)
    refine (sorted_below hall).imp ?_
    intro a b hab x hx y hy
    rw [onlyName?_eq_some.1 hx, onlyName?_eq_some.1 hy] at hab
    simpa [List.cons_lt_cons_iff] using hab

end Tree

/-! ### Directories -/

namespace Catalog

open ClassTemplates.Tree (destination)

variable {t : Tree} {directory variant : String}

theorem addAsset_eq_ok {c c' : Indexed} {name : String}
    (h : addAsset t directory variant c name = .ok c') :
    ∃ bindings, Asset.Supplies t directory variant name bindings ∧ c' = c.insertAll bindings := by
  obtain ⟨text, htext, h⟩ := bind_eq_ok.1 h
  split at h
  · cases h
  · rename_i bindings hparse
    cases h
    obtain ⟨asset, hasset, rfl⟩ := Option.map_eq_some_iff.1 hparse
    exact ⟨_, ⟨text, asset, htext, hasset, Asset.lists_filterMap _ _⟩, rfl⟩

/-- Reading assets in order adds the bindings of one after the other. -/
theorem addAssets_eq_ok {c c' : Indexed} {names : List String}
    (h : names.foldlM (addAsset t directory variant) c = .ok c') :
    ∃ lists, List.Forall₂ (Asset.Supplies t directory variant) names lists ∧
      c' = c.insertAll lists.flatten := by
  induction names generalizing c with
  | nil =>
    cases h
    exact ⟨[], .nil, rfl⟩
  | cons name rest ih =>
    rw [List.foldlM_cons] at h
    obtain ⟨c₁, hfirst, hrest⟩ := bind_eq_ok.1 h
    obtain ⟨bindings, hbindings, rfl⟩ := addAsset_eq_ok hfirst
    obtain ⟨lists, hlists, rfl⟩ := ih hrest
    refine ⟨bindings :: lists, .cons hbindings hlists, ?_⟩
    simp [Indexed.insertAll, List.foldl_append]

theorem load_eq_ok {catalog : Catalog} (h : load t directory variant = .ok catalog) :
    t.isDirectory directory = true ∧ ∃ lists,
      List.Forall₂ (Asset.Supplies t directory variant) (t.assetNames directory) lists ∧
        catalog = ofBindings lists.flatten := by
  unfold load at h
  split at h
  · rename_i hdirectory
    obtain ⟨c, hload, rfl⟩ := map_eq_ok.1 h
    obtain ⟨lists, hlists, rfl⟩ := addAssets_eq_ok hload
    exact ⟨hdirectory, lists, hlists, Indexed.catalog_ofBindings⟩
  · cases h

/-- The bindings that are kept of those that are added are, in order, the ones whose token is not
blank and not the token of a binding in front of them. A token stands for the first binding of it
that was added. In the catalog of a directory it stands for the first one in the assets, these taken
in the order of their names, and in each the entries of the variant in the order of its list. -/
theorem first_kept :
    (∀ front b, ((Indexed.ofBindings front).insert b).1 = true ↔ Fresh front b) ∧
    (∀ bindings, (Indexed.ofBindings bindings).bindings.toList = firsts bindings) ∧
    (∀ bindings token, (Indexed.ofBindings bindings).resolve? token =
      bindings.find? fun b => b.Binds token) ∧
    ∀ t directory variant catalog, load t directory variant = .ok catalog →
      (∀ name, name ∈ t.assetNames directory ↔
        t.HasFile directory [name] ∧ Path.extension? name = some assetExtension) ∧
      (t.assetNames directory).Pairwise (· < ·) ∧
      ∃ lists, List.Forall₂ (Asset.Supplies t directory variant) (t.assetNames directory) lists ∧
        ∀ token, catalog.resolve? token = lists.flatten.find? fun b => b.Binds token := by
  refine ⟨fun front b => ?_, fun bindings => ?_, fun bindings token => ?_, ?_⟩
  · rw [Indexed.insert_eq.1, Indexed.catalog_ofBindings, accepts_ofBindings]
  · rw [← toList_ofBindings, ← Indexed.catalog_ofBindings]
    rfl
  · rw [Indexed.resolve?_eq, Indexed.catalog_ofBindings, resolve?_ofBindings]
  · intro t directory variant catalog h
    obtain ⟨hdirectory, lists, hlists, rfl⟩ := load_eq_ok h
    exact ⟨fun name => Tree.mem_assetNames hdirectory, Tree.sorted_assetNames t directory,
      lists, hlists, fun token => resolve?_ofBindings⟩

/-- Two assets with one token, in the first one behind a text and in the second one in an array. -/
def sharedTree : Tree :=
  let a := "\x7b\"release\": [1, \x7b\"name\": \"A\", \"type\": \"String\", " ++
    "\"value\": \"\x60BuildConfig#m#v\x60\"\x7d]\x7d"
  let b := "\x7b\"release\": [[\"B\", \"String\", \"\x60BuildConfig#m#v\x60\"]]\x7d"
  ⟨[["in"]], [(["in", "a.json"], .bytes a.toUTF8.data.toList),
    (["in", "b.json"], .bytes b.toUTF8.data.toList)], by decide⟩

theorem first_kept_shared :
    ∃ catalog lists, load sharedTree "in" "release" = .ok catalog ∧
      catalog.toList = [⟨"a", "A", "\x60BuildConfig#m#v\x60"⟩] ∧
      List.Forall₂ (Asset.Supplies sharedTree "in" "release") ["a.json", "b.json"] lists ∧
      ∀ token, catalog.resolve? token = lists.flatten.find? fun b => b.Binds token := by
  have hnames : sharedTree.assetNames "in" = ["a.json", "b.json"] := by
    have hbelow : sharedTree.below "in" = .ok [["a.json"], ["b.json"]] := by
      have hlocate : sharedTree.locate? "in" = some ["in"] := by decide +kernel
      rw [Tree.below, hlocate]
      exact congrArg _ (List.mergeSort_of_pairwise (by decide))
    rw [Tree.assetNames, hbelow]
    decide +kernel
  have hload : (load sharedTree "in" "release").map toList =
      .ok [⟨"a", "A", "\x60BuildConfig#m#v\x60"⟩] := by
    rw [load, hnames]
    decide +kernel
  obtain ⟨catalog, hcatalog, hheld⟩ := map_eq_ok.1 hload
  obtain ⟨-, -, lists, hlists, hresolve⟩ := first_kept.2.2.2 _ _ _ _ hcatalog
  exact ⟨catalog, lists, hcatalog, hheld, hnames ▸ hlists, hresolve⟩

end Catalog

end ClassTemplates
