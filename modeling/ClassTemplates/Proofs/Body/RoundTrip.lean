import Mathlib.Data.List.Zip
import ClassTemplates.Proofs.Body.Naming

/-!
# Reading back what a body is laid out as

The code of a body reads as that body again, with each label named by the offset that it was given.
Labels that nothing refers to are lost, of labels at one offset only one is left, and frames have
the distances between their new offsets.

## Main definitions

- `Attribute.isTable` — the attribute holds offsets into code
- `Body.Readable` — bodies that are of the form that reading code gives
- `Body.Describes` — a body with labels named by offsets, beside the code that has its instructions
  and tables

## Main results

- `Layout.handlerOfCode_of_handler`, `attributeOfCode_of_bodyAttribute` — reading back tables
- `Body.Describes.ofCode` — what code is taken apart into
- `Body.Readable.describes` — what describes the code that a body is laid out as
- `Body.ofCode_of_toCode` — reading back bodies
-/

namespace ClassTemplates

/-! ### Tables -/

/-- The content of the attribute is taken apart where code is made into a body. -/
def Attribute.isTable (a : Attribute) : Bool :=
  match a.content with
  | .lineNumbers _ | .localVariables _ | .localVariableTypes _ | .stackMap _ => true
  | _ => false

theorem Attribute.not_isTable_of_attributeOfCode {a content : Attribute}
    (h : Body.attributeOfCode a = .carried content) : content.isTable = false := by
  obtain ⟨name, content'⟩ := a
  cases content' <;> cases h <;> rfl

theorem Attribute.attributeOfCode_of_not_isTable {a : Attribute} (h : a.isTable = false) :
    Body.attributeOfCode a = .carried a := by
  obtain ⟨name, content⟩ := a
  cases content <;> first | rfl | cases h

namespace Layout

variable {place : Label → Except LayoutError Nat} {f : Label → Label}

theorem handlerOfCode_of_handler {h : Handler Label} {h' : Handler UInt16}
    (hl : ∀ l ∈ h.labels, Insn.Resolves place f l) (hh : handler place h = .ok h') :
    Body.handlerOfCode h' = h.relabel f := by
  simp only [Handler.labels, List.forall_mem_cons] at hl
  obtain ⟨start, hs, hh⟩ := bind_eq_ok.1 hh
  obtain ⟨stop, ht, hh⟩ := bind_eq_ok.1 hh
  obtain ⟨target, hg, hh⟩ := bind_eq_ok.1 hh
  cases hh
  simp only [Body.handlerOfCode, Handler.relabel, ofWord_of_word hl.1 hs,
    ofWord_of_word hl.2.1 ht, ofWord_of_word hl.2.2.1 hg]

theorem relabel_of_line {e : LineEntry Label} {e' : LineEntry UInt16}
    (hl : Insn.Resolves place f e.start) (h : line place e = .ok e') :
    ⟨.ofWord e'.start, e'.line⟩ = e.relabel f := by
  obtain ⟨start, hs, h⟩ := bind_eq_ok.1 h
  cases h
  simp only [LineEntry.relabel, ofWord_of_word hl hs]

/-- The length of a range that is not reversed gives the end of the range back. -/
theorem rangeOfEntry_of_range {r : LocalRange} {e : LocalEntry}
    (hl : ∀ l ∈ r.labels, Insn.Resolves place f l) (hle : (f r.start).id ≤ (f r.stop).id)
    (h : range place r = .ok e) : Body.rangeOfEntry e = r.relabel f := by
  simp only [LocalRange.labels, List.forall_mem_cons] at hl
  obtain ⟨start, hs, h⟩ := bind_eq_ok.1 h
  obtain ⟨stop, ht, h⟩ := bind_eq_ok.1 h
  cases h
  have hstart := ofWord_of_word hl.1 hs
  have hstop := ofWord_of_word hl.2.1 ht
  have hle' : start.toNat ≤ stop.toNat := by
    rw [← hstart, ← hstop] at hle
    exact hle
  have hend : (⟨start.toNat + (stop - start).toNat⟩ : Label) = .ofWord stop := by
    rw [UInt16.toNat_sub_of_le _ _ (UInt16.le_iff_toNat_le.2 hle'), Nat.add_sub_of_le hle']
    rfl
  simp only [Body.rangeOfEntry, Code.localStop, LocalRange.relabel, hend, hstart, hstop]

theorem type_of_resolves {t : VerificationType}
    (hl : ∀ l, t.label? = some l → Insn.Resolves place f l) :
    type place t = .ok (t.relabel f) := by
  cases t with
  | uninitialized offset =>
    have hplace := (hl _ rfl).1
    refine bind_eq_ok.2 ⟨_, bind_eq_ok.2 ⟨_, hplace, rfl⟩, rfl⟩
  | _ => rfl

theorem shape_of_resolves {s : FrameShape}
    (hl : ∀ t ∈ s.types, ∀ l, t.label? = some l → Insn.Resolves place f l) :
    s.mapTypesM (type place) = .ok (s.relabel f) := by
  have htypes {ts : List VerificationType}
      (h : ∀ t ∈ ts, ∀ l, t.label? = some l → Insn.Resolves place f l) :
      ts.mapM (type place) = .ok (ts.map (VerificationType.relabel f)) :=
    mapM_eq_ok_map fun t ht => type_of_resolves (h t ht)
  cases s with
  | same | chop | sameExtended => rfl
  | oneItem item | oneItemExtended item =>
    exact bind_eq_ok.2 ⟨_, type_of_resolves (hl item List.mem_cons_self), rfl⟩
  | append locals => exact bind_eq_ok.2 ⟨_, htypes hl, rfl⟩
  | full locals stack =>
    have hlocals := htypes fun t ht => hl t (List.mem_append_left _ ht)
    have hstack := htypes fun t ht => hl t (List.mem_append_right _ ht)
    exact bind_eq_ok.2 ⟨_, hlocals, bind_eq_ok.2 ⟨_, hstack, rfl⟩⟩

/-- Frames are read back at the offsets of their labels. -/
theorem attributeOfCode_of_frames {name : UInt16} {fs : List (Label × Frame)} {fs' : List Frame}
    (hl : ∀ l ∈ (BodyAttribute.stackMap name fs).labels, Insn.Resolves place f l)
    (h : frames place fs = .ok fs') :
    Body.attributeOfCode ⟨name, .stackMap fs'⟩ = .stackMap name (Frame.relocate f fs) := by
  have hframe (x : Label × Frame) (hx : x ∈ fs) {l : Label}
      (hin : l ∈ x.2.types.filterMap VerificationType.label? ++ [x.1]) :
      Insn.Resolves place f l :=
    hl l (List.mem_flatMap.2 ⟨x, hx, hin⟩)
  obtain ⟨offsets, hoffsets, h⟩ := bind_eq_ok.1 h
  have hplace : fs.mapM (fun x => place x.1) = .ok (fs.map fun x => (f x.1).id) :=
    mapM_eq_ok_map fun x hx => (hframe x hx (List.mem_append_right _ List.mem_cons_self)).1
  obtain rfl := Except.ok.inj (hplace.symm.trans hoffsets)
  split at h
  · cases h
  · rename_i deltas hdeltas
    have hlen : deltas.length = fs.length := by
      rw [Frame.length_deltasFrom? hdeltas, List.length_map]
    have hnew : Frame.withDeltas (fs.map fun x => x.2.relabel f) deltas =
        (fs.zip deltas).map fun x => ⟨x.2, x.1.2.shape.relabel f⟩ := by
      rw [Frame.withDeltas_eq (by rw [hlen, List.length_map]), List.zip_map_left, List.map_map]
      rfl
    have hframes : (fs.zip deltas).mapM (fun x => frame place x.1.2 x.2) =
        .ok (Frame.withDeltas (fs.map fun x => x.2.relabel f) deltas) := by
      rw [hnew]
      refine mapM_eq_ok_map fun x hx => bind_eq_ok.2 ⟨_, shape_of_resolves ?_, rfl⟩
      intro t ht l htl
      exact hframe x.1 (List.of_mem_zip hx).1
        (List.mem_append_left _ (List.mem_filterMap.2 ⟨t, ht, htl⟩))
    obtain rfl := Except.ok.inj (hframes.symm.trans h)
    -- the distances that were written are those between the new offsets
    have hoffsets : Frame.offsets (Frame.withDeltas (fs.map fun x => x.2.relabel f) deltas) =
        fs.map fun x => (f x.1).id := by
      apply Frame.offsetsFrom_of_deltasFrom?
      rw [hnew, List.map_map]
      show _ = some ((fs.zip deltas).map Prod.snd)
      rw [List.map_snd_zip (Nat.le_of_eq hlen)]
      exact hdeltas
    have hdeltas' : (Frame.deltas? ((fs.map fun x => f x.1).map (·.id))).getD [] = deltas := by
      rw [List.map_map]
      exact congrArg (Option.getD · []) hdeltas
    have hlabels : (fs.map fun x => f x.1) = (fs.map fun x => (f x.1).id).map Label.mk := by
      rw [List.map_map]
      rfl
    refine congrArg (BodyAttribute.stackMap name) ?_
    simp only [Frame.relocate, hoffsets, hdeltas']
    rw [hlabels, List.zip_map_left, ← List.zip_swap, List.map_map]
    rfl

theorem attributeOfCode_of_bodyAttribute {a : BodyAttribute} {a' : Attribute}
    (hl : ∀ l ∈ a.labels, Insn.Resolves place f l)
    (hranges : ∀ r ∈ a.ranges, (f r.start).id ≤ (f r.stop).id)
    (hcarried : ∀ content, a = .carried content → content.isTable = false)
    (h : bodyAttribute place a = .ok a') : Body.attributeOfCode a' = a.relocate f := by
  have hread {ranges : List LocalRange} {entries : List LocalEntry}
      (hl : ∀ l ∈ ranges.flatMap LocalRange.labels, Insn.Resolves place f l)
      (hle : ∀ r ∈ ranges, (f r.start).id ≤ (f r.stop).id)
      (h : ranges.mapM (range place) = .ok entries) :
      entries.map Body.rangeOfEntry = ranges.map (LocalRange.relabel f) := by
    refine map_eq_map_of_forall₂ (forall₂_of_mapM_eq_ok h fun r hr e he => ?_) fun _ _ h => h
    exact rangeOfEntry_of_range (fun l hin => hl l (List.mem_flatMap.2 ⟨r, hr, hin⟩)) (hle r hr) he
  cases a with
  | lineNumbers name entries =>
    obtain ⟨es, hes, h⟩ := bind_eq_ok.1 h
    cases h
    refine congrArg (BodyAttribute.lineNumbers name) ?_
    refine map_eq_map_of_forall₂ (forall₂_of_mapM_eq_ok hes fun e he e' he' => ?_) fun _ _ h => h
    exact relabel_of_line (hl _ (List.mem_map_of_mem he)) he'
  | localVariables name ranges =>
    obtain ⟨es, hes, h⟩ := bind_eq_ok.1 h
    cases h
    exact congrArg (BodyAttribute.localVariables name) (hread hl hranges hes)
  | localVariableTypes name ranges =>
    obtain ⟨es, hes, h⟩ := bind_eq_ok.1 h
    cases h
    exact congrArg (BodyAttribute.localVariableTypes name) (hread hl hranges hes)
  | stackMap name fs =>
    obtain ⟨fs', hfs, h⟩ := bind_eq_ok.1 h
    cases h
    exact attributeOfCode_of_frames hl hfs
  | carried content =>
    cases h
    exact Attribute.attributeOfCode_of_not_isTable (hcarried _ rfl)

end Layout

/-! ### Bodies -/

namespace Body

/-- A body of the form that reading code gives. A switch over a table has as many targets as keys,
and at least one; no label is placed twice; labels that are referred to are placed; no range of a
local variable ends in front of its start; and what is carried holds no offsets. -/
structure Readable (b : Body) : Prop where
  shaped : ∀ i ∈ b.insns, i.isLabel = true ∨ i.WellShaped
  once : (b.insns.filterMap Insn.placed?).Nodup
  placed : ∀ l ∈ b.labels, .label l ∈ b.insns
  forward : ∀ a ∈ b.attributes, ∀ r ∈ a.ranges,
    (Layout.named b.insns r.start).id ≤ (Layout.named b.insns r.stop).id
  carried : ∀ content, .carried content ∈ b.attributes → content.isTable = false

variable {b : Body} {c : Code} {maxStack : UInt16}

/-- The layout has an offset for every label that is referred to. -/
theorem Readable.resolves (hb : b.Readable) (hlen : Layout.stop 0 b.insns ≤ 65535) :
    ∀ l ∈ b.labels, Insn.Resolves (Layout.placeIn b.insns) (Layout.named b.insns) l :=
  fun l hl => Layout.resolves_named hb.once hlen (hb.placed l hl)

/-- The bytes of the body read as its instructions. -/
theorem Readable.reads {bytes : Bytes} (hb : b.Readable) (hlen : Layout.stop 0 b.insns ≤ 65535)
    (h : Layout.Encodes (Layout.placeIn b.insns) 0 b.insns bytes) :
    Insn.Reads (.start bytes)
      (Layout.located 0 (b.insns.map (Insn.relabel (Layout.named b.insns)))) := by
  refine h.reads hb.shaped (fun i hi l hl => hb.resolves hlen l ?_) hlen
  exact List.mem_append_left _ (List.mem_append_left _ (List.mem_flatMap.2 ⟨i, hi, hl⟩))

theorem Readable.handlerOfCode_handlers {handlers : List (Handler UInt16)} (hb : b.Readable)
    (hlen : Layout.stop 0 b.insns ≤ 65535)
    (h : b.handlers.mapM (Layout.handler (Layout.placeIn b.insns)) = .ok handlers) :
    handlers.map handlerOfCode = b.handlers.map (Handler.relabel (Layout.named b.insns)) := by
  refine map_eq_map_of_forall₂ (forall₂_of_mapM_eq_ok h fun g hg g' hg' => ?_) fun _ _ h => h
  refine Layout.handlerOfCode_of_handler (fun l hl => hb.resolves hlen l ?_) hg'
  exact List.mem_append_left _ (List.mem_append_right _ (List.mem_flatMap.2 ⟨g, hg, hl⟩))

theorem Readable.attributeOfCode_attributes {attributes : List Attribute} (hb : b.Readable)
    (hlen : Layout.stop 0 b.insns ≤ 65535)
    (h : b.attributes.mapM (Layout.bodyAttribute (Layout.placeIn b.insns)) = .ok attributes) :
    attributes.map attributeOfCode =
      b.attributes.map (BodyAttribute.relocate (Layout.named b.insns)) := by
  refine map_eq_map_of_forall₂ (forall₂_of_mapM_eq_ok h fun a ha a' ha' => ?_) fun _ _ h => h
  refine Layout.attributeOfCode_of_bodyAttribute (fun l hl => hb.resolves hlen l ?_)
    (hb.forward a ha) ?_ ha'
  · exact List.mem_append_right _ (List.mem_flatMap.2 ⟨a, ha, hl⟩)
  · rintro content rfl
    exact hb.carried content ha

/-- The body describes code: it has the instructions that the code reads as, and the tables beside
it, labels are named by the offsets where they are placed, and those that are referred to are. -/
structure Describes (b : Body) (c : Code) : Prop where
  reads : Insn.Reads (.start c.bytes) (Layout.located 0 b.insns)
  length : c.bytes.length = Layout.stop 0 b.insns
  named : Layout.Named 0 b.insns
  placed : ∀ l ∈ b.labels, .label l ∈ b.insns
  handlers : c.handlers.map handlerOfCode = b.handlers
  attributes : c.attributes.map attributeOfCode = b.attributes

/-- The offsets that code mentions number the labels that a body refers to. -/
theorem Describes.references (h : b.Describes c) :
    c.references (Layout.located 0 b.insns) = b.labels.map (·.id) := by
  rw [Code.references_eq, h.handlers, h.attributes, Layout.flatMap_targets_located]
  rfl

/-- Code is taken apart into a body that describes it, without the labels that are not needed. -/
theorem Describes.ofCode (h : b.Describes c) :
    Body.ofCode c = .ok { b.tidy with
      maxStack := c.maxStack
      maxLocals := c.maxLocals
      nextLabel := c.bytes.length + 1 } := by
  -- an offset is used if it numbers a label that is referred to
  have hused : (b.labels.map (·.id)).contains = fun o => b.labels.contains ⟨o⟩ := by
    funext o
    rw [Bool.eq_iff_iff, List.contains_iff_mem, List.contains_iff_mem, List.mem_map]
    constructor
    · rintro ⟨l, hl, rfl⟩
      exact hl
    · intro ho
      exact ⟨_, ho, rfl⟩
  refine ofCode_eq_ok.2 ⟨_, h.reads, ?_, ?_⟩
  · intro o ho
    rw [h.references] at ho
    obtain ⟨l, hl, rfl⟩ := List.mem_map.1 ho
    rw [Code.IsPlace, h.length]
    exact h.named.mem_located (h.placed l hl)
  · have hplaced (o : Nat) (ho : b.labels.contains ⟨o⟩ = true) : .label ⟨o⟩ ∈ b.insns :=
      h.placed _ (List.contains_iff_mem.1 ho)
    have hinsns := h.named.placeLabels_located fun o _ ho => hplaced o ho
    rw [tidy_cons_label fun ho => h.named.head?_of_mem (hplaced 0 ho), ← hused, ← h.references,
      ← h.length] at hinsns
    rw [decodedAs, hinsns, h.handlers, h.attributes]
    rfl

/-- The labels of a body that is laid out, named by their offsets. -/
theorem Readable.labels_relocate (hb : b.Readable) (h : b.toCode maxStack = .ok c) :
    (b.relocate (Layout.named b.insns)).labels = b.labels.map (Layout.named b.insns) :=
  Body.labels_relocate fun l hl => (hb.resolves (Layout.toCode_eq_ok.1 h).1 l hl).2

/-- The code that a body is laid out as is described by that body, with labels named by their
offsets. -/
theorem Readable.describes (hb : b.Readable) (h : b.toCode maxStack = .ok c) :
    (b.relocate (Layout.named b.insns)).Describes c := by
  obtain ⟨hlen, hbytes, hhandlers, hattributes, -⟩ := Layout.toCode_eq_ok.1 h
  have hencodes := Layout.bytes_eq_ok.1 hbytes
  refine ⟨hb.reads hlen hencodes, ?_, Layout.named_relabel hb.once, ?_,
    hb.handlerOfCode_handlers hlen hhandlers, hb.attributeOfCode_attributes hlen hattributes⟩
  · show c.bytes.length = Layout.stop 0 (b.insns.map (Insn.relabel (Layout.named b.insns)))
    rw [Layout.stop_relabel, hencodes.length_eq_stop]
  · intro l hl
    rw [hb.labels_relocate h] at hl
    obtain ⟨l', hl', rfl⟩ := List.mem_map.1 hl
    exact List.mem_map.2 ⟨.label l', hb.placed l' hl', rfl⟩

/-- The code that a body is laid out as reads as that body, with labels named by their offsets and
without those that are not needed. -/
theorem ofCode_of_toCode (hb : b.Readable) (h : b.toCode maxStack = .ok c) :
    ofCode c = .ok { (b.relocate (Layout.named b.insns)).tidy with
      maxStack := maxStack
      nextLabel := c.bytes.length + 1 } := by
  obtain ⟨-, -, -, -, hstack, hlocals⟩ := Layout.toCode_eq_ok.1 h
  rw [(hb.describes h).ofCode, hstack, hlocals]
  rfl

/-- Labels 10 and 11 are at one offset, label 12 is not referred to, and one frame names the
allocation behind label 10. -/
def jumpBody : Body where
  maxStack := 0
  maxLocals := 1
  insns := [.label ⟨10⟩, .label ⟨11⟩, .type Opcode.newObject 2, .op Opcode.dup, .label ⟨12⟩,
    .jump 167 ⟨20⟩, .op 0, .label ⟨20⟩, .op 0xb1, .label ⟨30⟩]
  handlers := [⟨⟨11⟩, ⟨20⟩, ⟨20⟩, 0⟩]
  attributes := [.lineNumbers 3 [⟨⟨10⟩, 7⟩], .localVariables 4 [⟨⟨11⟩, ⟨30⟩, 5, 6, 0⟩],
    .stackMap 8 [(⟨20⟩, ⟨0, .full [] [.uninitialized 10]⟩)], .carried ⟨9, .carried [1]⟩]
  nextLabel := 31

theorem readable_jumpBody : jumpBody.Readable where
  shaped := by
    simp only [jumpBody, List.forall_mem_cons]
    exact ⟨.inl rfl, .inl rfl, .inr rfl, .inr rfl, .inl rfl, .inr rfl, .inr rfl, .inl rfl,
      .inr rfl, .inl rfl, fun _ h => nomatch h⟩
  once := by decide
  placed := by decide
  forward := by
    simp only [jumpBody, List.forall_mem_cons, BodyAttribute.ranges]
    decide
  carried := by
    simp [jumpBody, Attribute.isTable]

theorem ofCode_of_toCode_jump :
    jumpBody.Readable ∧ ∃ c b', jumpBody.toCode 2 = .ok c ∧ ofCode c = .ok b' ∧
      b'.insns = [.label ⟨0⟩, .type Opcode.newObject 2, .op Opcode.dup, .jump 167 ⟨8⟩, .op 0,
        .label ⟨8⟩, .op 0xb1, .label ⟨9⟩] ∧
      b'.handlers = [⟨⟨0⟩, ⟨8⟩, ⟨8⟩, 0⟩] ∧
      b'.attributes = [.lineNumbers 3 [⟨⟨0⟩, 7⟩], .localVariables 4 [⟨⟨0⟩, ⟨9⟩, 5, 6, 0⟩],
        .stackMap 8 [(⟨8⟩, ⟨8, .full [] [.uninitialized 0]⟩)], .carried ⟨9, .carried [1]⟩] := by
  have hlayout : (jumpBody.toCode 2).isOk = true := by
    rw [Layout.toCode_eq]
    decide +kernel
  obtain ⟨c, hc⟩ := exists_of_isOk hlayout
  exact ⟨readable_jumpBody, c, _, hc, ofCode_of_toCode readable_jumpBody hc, rfl, rfl, rfl⟩

end Body

end ClassTemplates
