import ClassTemplates.Expansion.Initializer
import ClassTemplates.Proofs.Expansion.Segments

/-!
# Catalogs that agree

Of a catalog an expansion reads the bindings of the tokens that it meets, and of these no more than
the module and the key, since the rest is the token itself. With two catalogs that say the same of
the tokens of a text, the text falls into the same segments, and the same is done to it.

## Main definitions

- `Catalog.target?` — the module and the key that a token stands for
- `Catalog.AgreeOn`, `AgreeOver` — catalogs that say the same of the tokens of a text, or of a pool

## Main results

- `Segment.ofText_eq_of_agreeOn` — the segments of a text
- `Expander.expand_eq_of_agreeOn`, `Initializer.finalize_eq_of_agreeOn` — what is made of texts
-/

namespace ClassTemplates

namespace Catalog

/-- The module and the key that a token stands for. -/
def target? (c : Catalog) (token : String) : Option (String × String) :=
  (c.resolve? token).map fun b => (b.moduleId, b.key)

/-- Each token in the text stands for the same in both catalogs, or for nothing in both. -/
def AgreeOn (catalog catalog' : Catalog) (text : String) : Prop :=
  ∀ t ∈ Token.findAll text, catalog.target? t.raw = catalog'.target? t.raw

instance (catalog catalog' : Catalog) (text : String) : Decidable (catalog.AgreeOn catalog' text) :=
  inferInstanceAs (Decidable (∀ t ∈ Token.findAll text, _))

/-- The catalogs agree on the strings of a pool. -/
def AgreeOver (catalog catalog' : Catalog) (p : Pool) : Prop :=
  ∀ i text, p.stringValue? i = some text → catalog.AgreeOn catalog' text

variable {catalog catalog' : Catalog} {token : String}

/-- A binding is made up of the token, the module and the key. -/
theorem resolve?_eq_of_target? (h : catalog.target? token = catalog'.target? token) :
    catalog.resolve? token = catalog'.resolve? token := by
  unfold target? at h
  cases hb : catalog.resolve? token with
  | none =>
    rw [hb, Option.map_none, eq_comm, Option.map_eq_none_iff] at h
    exact h.symm
  | some b =>
    rw [hb, Option.map_some, eq_comm, Option.map_eq_some_iff] at h
    obtain ⟨b', hb', hsame⟩ := h
    obtain ⟨hmodule, hkey⟩ := Prod.mk.inj hsame
    have hfallback := (fallback_of_resolve? hb').trans (fallback_of_resolve? hb).symm
    obtain ⟨moduleId, key, fallback⟩ := b
    obtain ⟨moduleId', key', fallback'⟩ := b'
    cases hmodule
    cases hkey
    cases hfallback
    exact hb'.symm

end Catalog

/-! ### Segments -/

namespace Segment

variable {catalog catalog' : Catalog} {gap cs : List Char} {segments segments' : List Segment}
  {text token : String}

/-- Characters fall into segments in one way. -/
theorem Splits.unique (h : Splits catalog gap cs segments) (h' : Splits catalog gap cs segments') :
    segments = segments' := by
  induction h generalizing segments' with
  | nil =>
    cases h' with
    | nil => rfl
    | token hp => cases hp
  | token hp _ ih =>
    cases h' with
    | nil => cases hp
    | token hp' hrest =>
      rw [hp] at hp'
      cases hp'
      rw [ih hrest]
    | char hno =>
      rw [hp] at hno
      cases hno
  | char hno _ ih =>
    cases h' with
    | token hp =>
      rw [hno] at hp
      cases hp
    | char _ hrest => exact ih hrest

/-- They fall into the same segments if the tokens among these are what they were. -/
theorem Splits.of_ofToken_eq (h : Splits catalog gap cs segments)
    (htokens : ∀ s ∈ segments, s.isToken = true → ofToken catalog' s.text = s) :
    Splits catalog' gap cs segments := by
  induction h with
  | nil => exact .nil
  | @token gap cs p segments hp _ ih =>
    have hsame := htokens _ (List.mem_append_right _ List.mem_cons_self) isToken_ofToken
    rw [text_ofToken] at hsame
    rw [← hsame]
    exact .token hp (ih fun s hs =>
      htokens s (List.mem_append_right _ (List.mem_cons_of_mem _ hs)))
  | char hno _ ih => exact .char hno (ih htokens)

theorem ofToken_eq_of_target? (h : catalog.target? token = catalog'.target? token) :
    ofToken catalog token = ofToken catalog' token := by
  rw [ofToken, ofToken, Catalog.resolve?_eq_of_target? h]

theorem ofText_eq_of_agreeOn (h : catalog.AgreeOn catalog' text) :
    ofText catalog text = ofText catalog' text := by
  refine (Splits.of_ofToken_eq (ofText_splits text) fun s hs htoken => ?_).unique
    (ofText_splits text)
  have hmem : s ∈ (ofText catalog text).filter isToken := List.mem_filter.2 ⟨hs, htoken⟩
  rw [filter_isToken_ofText] at hmem
  obtain ⟨t, ht, rfl⟩ := List.mem_map.1 hmem
  rw [text_ofToken, ofToken_eq_of_target? (h t ht)]

end Segment

section

variable {catalog catalog' : Catalog} {lookup : LookupMethod} {owner text : String}

theorem Catalog.bindsAny_eq_of_agreeOn (h : catalog.AgreeOn catalog' text) :
    catalog.bindsAny text = catalog'.bindsAny text := by
  rw [bindsAny, bindsAny, Segment.ofText_eq_of_agreeOn h]

/-! ### Expansions -/

theorem Expander.expand_eq_of_agreeOn (h : catalog.AgreeOn catalog' text) :
    expand catalog lookup text = expand catalog' lookup text := by
  rw [expand, expand, Segment.ofText_eq_of_agreeOn h]

namespace Initializer

theorem value_eq_of_agreeOn (h : catalog.AgreeOn catalog' text) :
    value catalog lookup text = value catalog' lookup text := by
  rw [value, value, Expander.expand_eq_of_agreeOn h]

theorem assignOnto_eq_of_agreeOn {cs : List DeferredConstant}
    (h : ∀ c ∈ cs, catalog.AgreeOn catalog' c.text) (done : Array Insn) (e : Expander) :
    assignOnto catalog lookup owner done cs e = assignOnto catalog' lookup owner done cs e := by
  induction cs generalizing done e with
  | nil => rfl
  | cons c rest ih =>
    obtain ⟨hc, hrest⟩ := List.forall_mem_cons.1 h
    rw [assignOnto, assignOnto, assign, assign, value_eq_of_agreeOn hc]
    split
    · rfl
    · exact ih hrest _ _

theorem finalize_eq_of_agreeOn {i : Initializer}
    (h : ∀ c ∈ i.deferred.toList, catalog.AgreeOn catalog' c.text) (e : Expander) :
    i.finalize catalog lookup owner e = i.finalize catalog' lookup owner e := by
  have hassign : assignAll catalog lookup owner i.deferred.toList =
      assignAll catalog' lookup owner i.deferred.toList := by
    rw [assignAll, assignAll, funext (assignOnto_eq_of_agreeOn h #[])]
  rw [finalize, finalize, hassign]

end Initializer

end

end ClassTemplates
