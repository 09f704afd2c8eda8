import ClassTemplates.Proofs.Format.Classes

/-!
# Reading back what is written

A stack-map frame may come back in another form, which says the same and is written in the same
bytes. Apart from this a class comes back as it is, if every count and length fits the word in front
of what it counts and every attribute has a name that stands for the structure of its content.

## Main definitions

- `Attribute.reread`, `Code.reread`, `Member.reread`, `ClassFile.reread` — what comes back

## Main results

- `Attribute.toBytes_reread`, `ClassFile.toBytes_reread` — what comes back is written in the same
  bytes
- `ClassFile.ofBytes_toBytes` — a class is read back from what is written of it
-/

namespace ClassTemplates

/-! ### Attributes -/

namespace Attribute

/-- What holds of attributes without code, and of code if it holds of the attributes nested in it,
holds of all attributes. -/
theorem induction {P : Attribute → Prop} (flat : ∀ a, a.code? = none → P a)
    (code : ∀ name (c : Code), (∀ b ∈ c.attributes, P b) → P ⟨name, .code c⟩) (a : Attribute) :
    P a := by
  obtain ⟨name, content⟩ := a
  cases hc : content with
  | code c => exact code name c fun b hb => induction flat code b
  | _ => exact flat _ rfl
termination_by sizeOf a
decreasing_by
  subst hc
  exact sizeOf_nested (a := ⟨name, .code c⟩) rfl hb

/-- The attribute as it is read back. -/
def reread (a : Attribute) : Attribute :=
  match _h : a.content with
  | .code c =>
    ⟨a.name, .code { c with attributes := c.attributes.attach.map fun ⟨b, _⟩ => b.reread }⟩
  | .stackMap frames => ⟨a.name, .stackMap (frames.map Frame.reread)⟩
  | content => ⟨a.name, content⟩
termination_by sizeOf a
decreasing_by exact sizeOf_nested _h ‹_›

end Attribute

/-- The code as it is read back. -/
def Code.reread (c : Code) : Code :=
  { c with attributes := c.attributes.map Attribute.reread }

namespace Attribute

theorem reread_code (name : UInt16) (c : Code) :
    reread ⟨name, .code c⟩ = ⟨name, .code c.reread⟩ := by
  rw [reread]
  simp [Code.reread]

theorem reread_stackMap (name : UInt16) (frames : List Frame) :
    reread ⟨name, .stackMap frames⟩ = ⟨name, .stackMap (frames.map Frame.reread)⟩ := by
  rw [reread]

@[simp] theorem name_reread (a : Attribute) : a.reread.name = a.name := by
  obtain ⟨name, content⟩ := a
  cases content <;> rw [reread]

theorem code?_reread (a : Attribute) : a.reread.code? = a.code?.map Code.reread := by
  obtain ⟨name, content⟩ := a
  cases content with
  | code c =>
    rw [reread_code]
    rfl
  | _ =>
    rw [reread]
    rfl

end Attribute

open BigEndian (count16)

theorem Code.toBytes_reread {c : Code} (h : ∀ a ∈ c.attributes, a.reread.toBytes = a.toBytes) :
    Code.toBytes c.reread = Code.toBytes c := by
  have hattributes : (c.attributes.map Attribute.reread).flatMap Attribute.toBytes =
      c.attributes.flatMap Attribute.toBytes := by
    rw [List.flatMap_map]
    exact List.flatMap_congr h
  simp only [Code.toBytes, Code.reread, Attribute.listBytes, count16, List.length_map, hattributes]

namespace Attribute

/-- The content that is read back is written in the same bytes. -/
theorem content_toBytes_reread (a : Attribute) :
    Content.toBytes a.reread.content = Content.toBytes a.content := by
  induction a using Attribute.induction with
  | flat a h =>
    obtain ⟨name, content⟩ := a
    cases content with
    | code c => cases h
    | stackMap frames =>
      rw [reread_stackMap]
      exact Frame.tableBytes_reread frames
    | _ => rw [reread]
  | code name c ih =>
    rw [reread_code]
    refine Code.toBytes_reread fun a ha => ?_
    rw [toBytes_eq, toBytes_eq, ih a ha, name_reread]

/-- What is read back is written in the same bytes. -/
theorem toBytes_reread (a : Attribute) : a.reread.toBytes = a.toBytes := by
  rw [toBytes_eq, toBytes_eq, content_toBytes_reread, name_reread]

theorem listBytes_reread (as : List Attribute) : listBytes (as.map reread) = listBytes as := by
  simp only [listBytes, count16, List.length_map, List.flatMap_map, toBytes_reread]

theorem AsRead.reread_eq {p : Pool} {a : Attribute} (h : a.AsRead p) : a.reread = a := by
  induction h with
  | carried _ _ => rw [reread]
  | @flat name kind content _ hholds _ =>
    cases kind <;> cases content <;> first | exact hholds.elim | skip
    case stackMap.stackMap frames =>
      rw [reread_stackMap, List.map_congr_left fun f hf => (hholds.2 f hf).reread_eq, List.map_id']
    all_goals rw [reread]
  | code _ _ _ _ _ ih =>
    rw [reread_code, Code.reread, List.map_congr_left ih, List.map_id']

end Attribute

/-! ### Classes -/

/-- The field or method as it is read back. -/
def Member.reread (m : Member) : Member :=
  { m with attributes := m.attributes.map Attribute.reread }

theorem Member.toBytes_reread (m : Member) : m.reread.toBytes = m.toBytes := by
  simp only [toBytes, reread, Attribute.listBytes_reread]

theorem Member.AsRead.reread_eq {p : Pool} {m : Member} (h : m.AsRead p) : m.reread = m := by
  rw [reread, List.map_congr_left fun a ha => (h.2 a ha).reread_eq, List.map_id']

namespace ClassFile

/-- The class as it is read back. -/
def reread (cls : ClassFile) : ClassFile :=
  { cls with
    fields := cls.fields.map Member.reread
    methods := cls.methods.map Member.reread
    attributes := cls.attributes.map Attribute.reread }

variable {cls : ClassFile} {constants : List Constant}

theorem AsRead.reread_eq (h : cls.AsRead) : cls.reread = cls := by
  rw [reread, List.map_congr_left fun m hm => (h.fields.2 m hm).reread_eq,
    List.map_congr_left fun m hm => (h.methods.2 m hm).reread_eq,
    List.map_congr_left fun a ha => (h.attributes.2 a ha).reread_eq, List.map_id', List.map_id',
    List.map_id']

/-- The class that is read back is written in the same bytes. -/
theorem toBytes_reread (cls : ClassFile) : cls.reread.toBytes = cls.toBytes := by
  simp only [toBytes, reread, count16, List.length_map, List.flatMap_map, Member.toBytes_reread,
    Attribute.listBytes_reread]

/-- A class is read back from what is written of it, if that is in the form in which it is read and
every constant of its pool can be read back. -/
theorem ofBytes_toBytes (hread : cls.reread.AsRead) (hbounded : cls.pool.Bounded)
    (hslots : cls.pool.slots.toList = constants.flatMap Constant.slots)
    (hconstants : ∀ c ∈ constants, c.Spelled c.toBytes) : ofBytes cls.toBytes = .ok cls.reread := by
  have hpool := Pool.spelled_written hslots hbounded hconstants
  rw [← toBytes_reread]
  refine ofBytes_eq_ok.2 ⟨hread, _, _, _, hpool, ?_⟩
  rw [toBytes_eq, ← hpool.toBytes_eq]
  rfl

end ClassFile

end ClassTemplates
