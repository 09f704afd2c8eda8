import ClassTemplates.Proofs.Body.Relocation

/-!
# Labels of a body

Bodies that differ in their labels alone stand for the same code. The labels of a body can be
renamed, in its instructions and in everything beside them. Where labels are numbered by offsets,
what code mentions is what its body refers to.

## Main definitions

- `Body.labels` — the labels that a body refers to
- `Handler.relabel`, `LocalRange.relabel`, `Frame.relabel` — parts of a body with other labels
- `Body.relocate` — a body with other labels, numbered by offsets

## Main results

- `Body.labels_relocate` — the labels of a body with other labels
- `Code.references_eq` — the offsets that code mentions number the labels of its body
-/

namespace ClassTemplates

/-! ### Labels that are referred to -/

/-- The label of the allocation that an uninitialized type names. -/
def VerificationType.label? (t : VerificationType) : Option Label :=
  t.allocation?.map Label.mk

/-- The labels that a handler refers to. -/
def Handler.labels (h : Handler Label) : List Label :=
  [h.start, h.stop, h.target]

/-- The labels at both ends of the range of a local variable. -/
def LocalRange.labels (r : LocalRange) : List Label :=
  [r.start, r.stop]

namespace BodyAttribute

/-- The labels that an attribute refers to: for each frame those of its allocations, then its own.
-/
def labels : BodyAttribute → List Label
  | lineNumbers _ entries => entries.map (·.start)
  | localVariables _ ranges | localVariableTypes _ ranges => ranges.flatMap LocalRange.labels
  | stackMap _ frames =>
    frames.flatMap fun x => x.2.types.filterMap VerificationType.label? ++ [x.1]
  | carried _ => []

/-- The ranges of local variables that an attribute lists. -/
def ranges : BodyAttribute → List LocalRange
  | localVariables _ ranges | localVariableTypes _ ranges => ranges
  | _ => []

theorem mem_labels {a : BodyAttribute} {r : LocalRange} {l : Label} (hr : r ∈ a.ranges)
    (hl : l ∈ r.labels) : l ∈ a.labels := by
  cases a with
  | localVariables name ranges | localVariableTypes name ranges =>
    exact List.mem_flatMap.2 ⟨r, hr, hl⟩
  | _ => cases hr

end BodyAttribute

/-- The labels that instructions, handlers and attributes of a body refer to. -/
def Body.labels (b : Body) : List Label :=
  b.insns.flatMap Insn.targets ++ b.handlers.flatMap Handler.labels
    ++ b.attributes.flatMap BodyAttribute.labels

/-! ### Other labels -/

section

variable (f : Label → Label)

/-- The handler with other labels. -/
def Handler.relabel (h : Handler Label) : Handler Label :=
  ⟨f h.start, f h.stop, f h.target, h.caught⟩

/-- The line entry with another label. -/
def LineEntry.relabel (e : LineEntry Label) : LineEntry Label :=
  ⟨f e.start, e.line⟩

/-- The range of a local variable with other labels. -/
def LocalRange.relabel (r : LocalRange) : LocalRange :=
  { r with start := f r.start, stop := f r.stop }

/-- The type with the offset that numbers the new label of its allocation. -/
def VerificationType.relabel : VerificationType → VerificationType
  | uninitialized offset => uninitialized (UInt16.ofNat (f (.ofWord offset)).id)
  | t => t

/-- The shape with other labels in its types. -/
def FrameShape.relabel : FrameShape → FrameShape
  | oneItem item => oneItem (item.relabel f)
  | oneItemExtended item => oneItemExtended (item.relabel f)
  | append locals => append (locals.map (VerificationType.relabel f))
  | full locals stack =>
    full (locals.map (VerificationType.relabel f)) (stack.map (VerificationType.relabel f))
  | shape => shape

/-- The frame with other labels in its types. -/
def Frame.relabel (frame : Frame) : Frame :=
  { frame with shape := frame.shape.relabel f }

/-- The frames with other labels, and with the distances between the offsets that number these. -/
def Frame.relocate (frames : List (Label × Frame)) : List (Label × Frame) :=
  let labels := frames.map fun x => f x.1
  labels.zip (Frame.withDeltas (frames.map fun x => x.2.relabel f)
    ((Frame.deltas? (labels.map (·.id))).getD []))

/-- The attribute with other labels, numbered by offsets. -/
def BodyAttribute.relocate : BodyAttribute → BodyAttribute
  | lineNumbers name entries => lineNumbers name (entries.map (LineEntry.relabel f))
  | localVariables name ranges => localVariables name (ranges.map (LocalRange.relabel f))
  | localVariableTypes name ranges => localVariableTypes name (ranges.map (LocalRange.relabel f))
  | stackMap name frames => stackMap name (Frame.relocate f frames)
  | carried content => carried content

/-- The body with other labels, numbered by offsets. -/
def Body.relocate (b : Body) : Body :=
  { b with
    insns := b.insns.map (Insn.relabel f)
    handlers := b.handlers.map (Handler.relabel f)
    attributes := b.attributes.map (BodyAttribute.relocate f) }

end

section

variable {f : Label → Label}

theorem VerificationType.label?_relabel {t : VerificationType}
    (hfit : ∀ l, t.label? = some l → (f l).id ≤ 65535) :
    (t.relabel f).label? = t.label?.map f := by
  cases t with
  | uninitialized offset =>
    have hword : (UInt16.ofNat (f (.ofWord offset)).id).toNat = (f (.ofWord offset)).id :=
      UInt16.toNat_ofNat_of_lt' (Nat.lt_succ_of_le (hfit _ rfl))
    exact congrArg (fun n => some (Label.mk n)) hword
  | _ => rfl

theorem FrameShape.types_relabel {s : FrameShape} :
    (s.relabel f).types = s.types.map (VerificationType.relabel f) := by
  cases s <;> simp [relabel, types]

namespace Frame

variable {frames : List Frame} {deltas : List UInt16}

theorem labels_relabel {frame : Frame}
    (hfit : ∀ l ∈ frame.types.filterMap VerificationType.label?, (f l).id ≤ 65535) :
    (frame.relabel f).types.filterMap VerificationType.label? =
      (frame.types.filterMap VerificationType.label?).map f := by
  rw [types, relabel, FrameShape.types_relabel, List.filterMap_map, List.map_filterMap]
  apply List.filterMap_congr
  intro t ht
  exact VerificationType.label?_relabel fun l hl =>
    hfit l (List.mem_filterMap.2 ⟨t, ht, hl⟩)

theorem withDeltas_eq (h : deltas.length = frames.length) :
    withDeltas frames deltas = (frames.zip deltas).map fun x => { x.1 with delta := x.2 } := by
  induction frames generalizing deltas with
  | nil => cases deltas <;> rfl
  | cons frame frames ih =>
    obtain ⟨delta, deltas, rfl⟩ := List.exists_cons_of_length_eq_add_one h
    rw [withDeltas, ih (Nat.succ.inj h)]
    rfl

/-- Distances say nothing about types. -/
theorem flatMap_zip_withDeltas {ls : List Label}
    {g : Label → List VerificationType → List Label} :
    (ls.zip (withDeltas frames deltas)).flatMap (fun x => g x.1 x.2.types) =
      (ls.zip frames).flatMap fun x => g x.1 x.2.types := by
  induction frames generalizing ls deltas with
  | nil => cases deltas <;> rfl
  | cons frame frames ih =>
    cases deltas with
    | nil => rfl
    | cons delta deltas =>
      cases ls with
      | nil => rfl
      | cons l ls =>
        rw [withDeltas, List.zip_cons_cons, List.zip_cons_cons, List.flatMap_cons,
          List.flatMap_cons, ih]
        rfl

end Frame

/-- An attribute with other labels refers to these. -/
theorem BodyAttribute.labels_relocate {a : BodyAttribute}
    (hfit : ∀ l ∈ a.labels, (f l).id ≤ 65535) : (a.relocate f).labels = a.labels.map f := by
  have hranges {ranges : List LocalRange} :
      (ranges.map (LocalRange.relabel f)).flatMap LocalRange.labels =
        (ranges.flatMap LocalRange.labels).map f := by
    rw [List.flatMap_map, List.map_flatMap]
    rfl
  cases a with
  | lineNumbers name entries =>
    show List.map _ (List.map _ entries) = List.map _ (List.map _ entries)
    rw [List.map_map, List.map_map]
    rfl
  | localVariables name ranges => exact hranges
  | localVariableTypes name ranges => exact hranges
  | stackMap name frames =>
    show (Frame.relocate f frames).flatMap _ = (List.flatMap _ frames).map _
    rw [Frame.relocate, Frame.flatMap_zip_withDeltas (g := fun l ts =>
      ts.filterMap VerificationType.label? ++ [l]), List.zip_map', List.flatMap_map,
      List.map_flatMap]
    apply List.flatMap_congr
    intro x hx
    rw [Frame.labels_relabel fun l hl => hfit l (List.mem_flatMap.2
      ⟨x, hx, List.mem_append_left _ hl⟩), List.map_append]
    rfl
  | carried content => rfl

/-- A body with other labels refers to these. -/
theorem Body.labels_relocate {b : Body} (hfit : ∀ l ∈ b.labels, (f l).id ≤ 65535) :
    (b.relocate f).labels = b.labels.map f := by
  have hattributes : (b.attributes.flatMap fun a => (a.relocate f).labels) =
      b.attributes.flatMap fun a => a.labels.map f := by
    apply List.flatMap_congr
    intro a ha
    exact BodyAttribute.labels_relocate fun l hl =>
      hfit l (List.mem_append_right _ (List.mem_flatMap.2 ⟨a, ha, hl⟩))
  simp only [labels, relocate, List.flatMap_map, Insn.targets_relabel, List.map_append,
    List.map_flatMap, hattributes]
  rfl

end

/-! ### Offsets that code mentions -/

theorem Code.attributeReferences_eq {a : Attribute} :
    Code.attributeReferences a = (Body.attributeOfCode a).labels.map (·.id) := by
  obtain ⟨name, content⟩ := a
  have hranges {entries : List LocalEntry} : Code.localReferences entries =
      ((entries.map Body.rangeOfEntry).flatMap LocalRange.labels).map (·.id) := by
    rw [List.flatMap_map, List.map_flatMap]
    rfl
  cases content with
  | lineNumbers entries =>
    show entries.map _ = (List.map _ (List.map _ entries)).map _
    rw [List.map_map, List.map_map]
    rfl
  | localVariables entries => exact hranges
  | localVariableTypes entries => exact hranges
  | stackMap frames =>
    show (frames.zip (Frame.offsets frames)).flatMap _ =
      ((List.map _ (frames.zip (Frame.offsets frames))).flatMap _).map _
    rw [List.flatMap_map, List.map_flatMap]
    apply List.flatMap_congr
    rintro ⟨f, offset⟩ -
    have hid : (fun t => t.label?.map Label.id) = VerificationType.allocation? := by
      funext t
      rw [VerificationType.label?, Option.map_map]
      exact Option.map_id'
    simp only [List.map_append, List.map_filterMap, hid]
    rfl
  | _ => rfl

/-- Reading instructions keeps the labels that they branch to. -/
theorem Layout.flatMap_targets_located {start : Nat} {insns : List Insn} :
    (located start insns).flatMap (fun x => x.2.targets) = insns.flatMap Insn.targets := by
  induction insns generalizing start with
  | nil => rfl
  | cons i insns ih =>
    obtain ⟨l, rfl⟩ | hi := i.label_or_not
    · exact ih
    · rw [located_cons hi, List.flatMap_cons, List.flatMap_cons, ih]

/-- The offsets that code mentions number the labels that instructions and tables refer to. -/
theorem Code.references_eq {c : Code} {decoded : List (Nat × Insn)} :
    c.references decoded =
      ((decoded.flatMap fun x => x.2.targets)
        ++ (c.handlers.map Body.handlerOfCode).flatMap Handler.labels
        ++ (c.attributes.map Body.attributeOfCode).flatMap BodyAttribute.labels).map (·.id) := by
  have hattributes : c.attributes.flatMap Code.attributeReferences =
      c.attributes.flatMap fun a => (Body.attributeOfCode a).labels.map (·.id) := by
    apply List.flatMap_congr
    intro a _
    exact attributeReferences_eq
  simp only [Code.references, List.map_append, List.map_flatMap, List.flatMap_map, hattributes]
  rfl

end ClassTemplates
