import ClassTemplates.Proofs.Format.Rereading
import ClassTemplates.Proofs.Outcome

/-!
# What can be stored

A class is written whatever it is, but lengths and counts are cut off to fit the word they go to,
and the name of an attribute decides how its content is read. So only some classes are read back.

## Main definitions

- `Attribute.Within` — an attribute nested in another, at any depth
- `Attribute.Storable` — an attribute whose content is read back as what it is
- `ClassFile.Storable` — a class whose texts, methods and attributes can be stored

## Main results

- `Attribute.AsRead.grown` — an attribute that was read with a smaller pool
- `ClassFile.storable_of_ofBytes` — a class that is read back
-/

namespace ClassTemplates

variable {p q : Pool}

/-- A name that stands for a structure does so in every larger pool. -/
theorem Pool.contentKind?_mono (h : p ≤ q) {name : UInt16} {kind : ContentKind}
    (hkind : p.contentKind? name = some kind) : q.contentKind? name = some kind := by
  unfold contentKind? at hkind ⊢
  cases ht : p.utf8? name with
  | none =>
    rw [ht] at hkind
    have hempty : ContentKind.ofName? "" = none := by decide
    rw [Option.getD_none, hempty] at hkind
    cases hkind
  | some text =>
    rw [ht] at hkind
    rw [utf8?_mono h ht]
    exact hkind

/-! ### Attributes -/

/-- What is counted in the code fits the counts, and the attributes nested in it are in the form in
which they are read. -/
structure Code.AsRead (p : Pool) (c : Code) : Prop where
  handlers : c.handlers.length < 0x10000
  attributes : c.attributes.length < 0x10000
  nested : ∀ a ∈ c.attributes, a.AsRead p

namespace Attribute

/-- The first attribute is the second or is nested in it. -/
inductive Within (a : Attribute) : Attribute → Prop
  | refl : Within a a
  | nested {name : UInt16} {c : Code} {b : Attribute} :
    b ∈ c.attributes → Within a b → Within a ⟨name, .code c⟩

/-- The content of the attribute, and of each nested in it, fits its length, and is carried only
under a name that stands for no structure. -/
structure Storable (p : Pool) (a : Attribute) : Prop where
  names : ∀ name bytes, Within ⟨name, .carried bytes⟩ a → p.contentKind? name = none
  lengths : ∀ b : Attribute, b.Within a → (Content.toBytes b.content).length < 0x100000000

variable {a b : Attribute} {name : UInt16} {c : Code} {bytes : Bytes}

theorem Storable.nested (h : Storable p ⟨name, .code c⟩) (ha : a ∈ c.attributes) :
    a.Storable p :=
  ⟨fun name bytes hw => h.names name bytes (.nested ha hw), fun b hw => h.lengths b (.nested ha hw)⟩

theorem Storable.length_lt (h : a.Storable p) :
    (Content.toBytes a.reread.content).length < 0x100000000 := by
  rw [content_toBytes_reread]
  exact h.lengths a .refl

theorem AsRead.of_code (h : AsRead p ⟨name, .code c⟩) :
    p.contentKind? name = some .code ∧ c.AsRead p := by
  cases h with
  | @flat _ kind _ _ hholds => cases kind <;> exact hholds.elim
  | code hkind hhandlers hattributes hnested => exact ⟨hkind, hhandlers, hattributes, hnested⟩

theorem AsRead.of_carried (h : AsRead p ⟨name, .carried bytes⟩) : p.contentKind? name = none := by
  cases h with
  | carried hkind => exact hkind
  | @flat _ kind _ _ hholds => cases kind <;> exact hholds.elim

/-- An attribute that was read with a smaller pool is in the form in which it is read, as long as no
name under which content is carried has come to stand for a structure. -/
theorem AsRead.grown (h : a.AsRead p) (hle : p ≤ q) (hq : a.Storable q) : a.AsRead q := by
  induction h with
  | carried _ hlen => exact .carried (hq.names _ _ .refl) hlen
  | flat hkind hholds hlen => exact .flat (Pool.contentKind?_mono hle hkind) hholds hlen
  | code hkind hhandlers hattributes _ hlen ih =>
    exact .code (Pool.contentKind?_mono hle hkind) hhandlers hattributes
      (fun b hb => ih b hb (hq.nested hb)) hlen

/-- Such an attribute comes back as it is. -/
theorem AsRead.reread_grown (h : a.AsRead p) (hle : p ≤ q) (hq : a.Storable q) :
    a.reread.AsRead q := by
  have hgrown := h.grown hle hq
  rwa [hgrown.reread_eq]

theorem Within.asRead_reread (h : a.Within b) (hb : b.reread.AsRead p) : a.reread.AsRead p := by
  induction h with
  | refl => exact hb
  | nested hmem _ ih =>
    rw [reread_code] at hb
    exact ih (hb.of_code.2.nested _ (List.mem_map_of_mem hmem))

/-- An attribute that comes back in a form in which attributes are read can be stored. -/
theorem storable_of_asRead_reread (h : a.reread.AsRead p) : a.Storable p := by
  refine ⟨fun name bytes hw => ?_, fun b hw => ?_⟩
  · have hread := hw.asRead_reread h
    rw [reread] at hread
    exact hread.of_carried
  · have hlen := (hw.asRead_reread h).length_lt
    rwa [content_toBytes_reread] at hlen

end Attribute

/-! ### Classes -/

theorem Member.asRead_reread {m : Member} (hlen : m.attributes.length < 0x10000)
    (h : ∀ a ∈ m.attributes, a.reread.AsRead p) : m.reread.AsRead p := by
  rw [Member.AsRead, reread, List.length_map]
  exact ⟨hlen, List.forall_mem_map.2 h⟩

namespace ClassFile

/-- An attribute of the class, or of one of its fields and methods. -/
def Holds (cls : ClassFile) (a : Attribute) : Prop :=
  a ∈ cls.attributes ∨ ∃ m, (m ∈ cls.fields ∨ m ∈ cls.methods) ∧ a ∈ m.attributes

/-- Every text fits its length, the methods can be counted, and the attributes can be stored. -/
structure Storable (cls : ClassFile) : Prop where
  texts : ∀ text, .utf8 text ∈ cls.pool.slots.toList → (ModifiedUtf8.encode text).length < 0x10000
  methods : cls.methods.length < 0x10000
  attributes : ∀ a, cls.Holds a → a.Storable cls.pool

variable {cls : ClassFile}

theorem AsRead.of_holds {a : Attribute} (h : cls.reread.AsRead) (ha : cls.Holds a) :
    a.reread.AsRead cls.pool := by
  rcases ha with ha | ⟨m, hm | hm, ha⟩
  · exact h.attributes.2 _ (List.mem_map_of_mem ha)
  · exact (h.fields.2 _ (List.mem_map_of_mem hm)).2 _ (List.mem_map_of_mem ha)
  · exact (h.methods.2 _ (List.mem_map_of_mem hm)).2 _ (List.mem_map_of_mem ha)

/-- A class that is read back as what it is can be stored. -/
theorem storable_of_ofBytes (h : ofBytes cls.toBytes = .ok cls.reread) : cls.Storable := by
  obtain ⟨hread, _, constants, pieces, hpool, -⟩ := ofBytes_eq_ok.1 h
  refine ⟨fun text htext => ?_, ?_, fun a ha =>
    Attribute.storable_of_asRead_reread (hread.of_holds ha)⟩
  · have hslots : cls.pool.slots.toList = constants.flatMap Constant.slots := hpool.slots
    rw [hslots, List.mem_flatMap] at htext
    obtain ⟨c, hc, htext⟩ := htext
    obtain rfl : .utf8 text = c := (Constant.mem_slots htext).resolve_right (by simp)
    obtain ⟨piece, -, hspelled⟩ := exists_left_of_forall₂ hpool.spelled.flip hc
    exact Constant.length_encode_of_spelled hspelled
  · have hlen := hread.methods.1
    rwa [reread, List.length_map] at hlen

end ClassFile

end ClassTemplates
