import ClassTemplates.Proofs.Body.Failures
import ClassTemplates.Proofs.Body.Redecoding
import ClassTemplates.Proofs.Insn.Canonical

/-!
# Canonical code

Code whose instructions all have the form that they are encoded in is reproduced exactly when it is
taken apart and laid out again: its instructions lie where they were, so every label gets the offset
that numbers it and every table stays. Other code is not reproduced.

## Main definitions

- `Code.Canonical` — all instructions of code are in their canonical forms

## Main results

- `Layout.encodes_placeLabels`, `named_placeLabels` — canonical bytes as instructions with labels
- `Layout.Encodes.allCanonical` — what instructions are encoded as is canonical
- `Attribute.Moved.eq` — tables whose offsets stay are unchanged
- `Body.toCode_ofCode_iff` — the code that is reproduced
-/

namespace ClassTemplates

/-- Every instruction of the code is in its canonical form. -/
def Code.Canonical (c : Code) : Prop :=
  ∀ decoded, Insn.decode c.bytes = .ok decoded →
    ∀ x ∈ decoded, x.2.IsCanonical x.1 (c.bytes.drop x.1)

/-! ### Code -/

namespace Layout

open Insn (AllCanonical Reads)

variable {place : Label → Except LayoutError Nat} {used : Nat → Bool} {start stop o : Nat}
  {insns : List Insn} {bytes : Bytes} {c : Cursor} {decoded : List (Nat × Insn)} {l : Label}

theorem Encodes.mark (h : Encodes place start insns bytes) :
    Encodes place start (Splice.mark used o ++ insns) bytes := by
  unfold Splice.mark
  split
  · have hlabel : (Insn.label ⟨o⟩).encode place start = .ok [] := rfl
    exact .cons hlabel h
  · exact h

theorem Named.mark (h : Named start insns) : Named start (Splice.mark used start ++ insns) := by
  unfold Splice.mark
  split
  · exact .label h
  · exact h

/-- Canonical bytes are what the instructions they read as are encoded as, with labels in front of
them, if labels have the offsets that number them. -/
theorem encodes_placeLabels (hr : Reads c decoded) (hc : AllCanonical c decoded)
    (hp : ∀ x ∈ decoded, ∀ l ∈ x.2.targets, place l = .ok l.id) :
    Encodes place c.position (Body.placeLabels used decoded stop) c.rest := by
  induction hr with
  | @nil position =>
    have hstop : Encodes place position (Splice.mark used stop ++ []) [] := .mark .nil
    rwa [List.append_nil] at hstop
  | @cons opcode rest position i next found hi hr ih =>
    rw [List.forall_mem_cons] at hp
    obtain ⟨front, hpass, hencode⟩ := Insn.encodesBehind_of_readerBehind hi hc.head hp.1
    have hrest := ih (hc.tail hi hr) hp.2
    rw [Insn.position_eq_of_canonical hi hc.head] at hrest
    rw [Splice.placeLabels_cons]
    show Encodes place position _ (opcode :: rest)
    rw [show rest = front ++ next.rest from hpass.1]
    exact (Encodes.cons hencode hrest).mark

/-- Canonical bytes have their labels where these are numbered. -/
theorem named_placeLabels (hr : Reads c decoded) (hc : AllCanonical c decoded)
    (hstop : stop = c.position + c.rest.length) :
    Named c.position (Body.placeLabels used decoded stop) := by
  induction hr with
  | @nil position =>
    obtain rfl : stop = position := hstop
    have hlast : Named stop (Splice.mark used stop ++ []) := .mark .nil
    rwa [List.append_nil] at hlast
  | @cons opcode rest position i next found hi hr ih =>
    have hend := ((Insn.readerBehind position opcode).advances hi).position_add_length
    simp only [List.length_cons] at hend hstop
    have hrest := ih (hc.tail hi hr) (by omega)
    rw [Insn.position_eq_of_canonical hi hc.head] at hrest
    rw [Splice.placeLabels_cons]
    have hlabel : i.isLabel = false := (Insn.wellShaped_of_readerBehind hi).not_isLabel
    exact Named.mark (.insn hlabel hrest)

/-- A label that is named by its offset has that offset. -/
theorem Named.labelOffset? (h : Named start insns) (hl : .label l ∈ insns) :
    Layout.labelOffset? start insns l = some l.id := by
  induction h with
  | nil => cases hl
  | @label start rest hrest ih =>
    show (Layout.labelOffset? start rest l).or _ = _
    by_cases hin : .label l ∈ rest
    · rw [ih hin]
      rfl
    · -- it is placed only here
      rcases List.mem_cons.1 hl with heq | hl
      · cases heq
        have hnone : Layout.labelOffset? start rest ⟨start⟩ = none :=
          labelOffset?_eq_none_iff.2 fun i hi hp => hin (Insn.placed?_eq_some.1 hp ▸ hi)
        rw [hnone]
        simp [Insn.placed?]
      · exact absurd hl hin
  | insn hi _ ih =>
    rcases List.mem_cons.1 hl with rfl | hl
    · cases hi
    · rw [Layout.labelOffset?, ih hl]
      rfl

theorem le_of_mem_located {x : Nat × Insn} (h : x ∈ located start insns) : start ≤ x.1 := by
  induction insns generalizing start with
  | nil => cases h
  | cons i rest ih =>
    obtain ⟨l, rfl⟩ | hi := i.label_or_not
    · exact ih h
    · rw [located_cons hi] at h
      rcases List.mem_cons.1 h with rfl | h
      · exact le_refl _
      · exact Nat.le_trans (Nat.le_add_right _ _) (ih h)

/-- What well-shaped instructions are encoded as has them in their canonical forms, whatever their
labels are. -/
theorem Encodes.allCanonical {f : Label → Label} (h : Encodes place start insns bytes)
    (hw : ∀ i ∈ insns, i.isLabel = true ∨ i.WellShaped) :
    AllCanonical ⟨bytes, start⟩ (located start (insns.map (Insn.relabel f))) := by
  induction h with
  | nil => exact fun x hx => (List.not_mem_nil hx).elim
  | @cons start i rest front back hi hrest ih =>
    rw [List.forall_mem_cons] at hw
    obtain ⟨l, rfl⟩ | hl := i.label_or_not
    · cases hi
      exact ih hw.2
    · have hshaped : i.WellShaped := hw.1.resolve_left (by simp [hl])
      rw [List.map_cons, located_cons (Insn.isLabel_relabel.trans hl), Insn.length_relabel]
      refine List.forall_mem_cons.2 ⟨?_, fun x hx => ?_⟩
      · rw [Nat.sub_self]
        exact Insn.isCanonical_relabel.2 (Insn.isCanonical_of_encode hshaped hi back)
      · obtain ⟨n, hn⟩ := Nat.le.dest (le_of_mem_located hx)
        have hx := ih hw.2 x hx
        have hlen := Insn.length_encode hi
        have hfront : x.1 - start = front.length + n := by omega
        have hback : x.1 - (start + i.length start) = n := by omega
        simp only [hback] at hx
        simp only [hfront, List.drop_length_add_append]
        exact hx

end Layout

/-! ### Tables -/

section

variable {h h' : Handler UInt16} {e e' : LineEntry UInt16} {t t' : VerificationType}
  {s s' : FrameShape} {a a' : Attribute} {previous : Option Nat} {delta delta' : UInt16}

theorem Handler.Moved.eq (hm : h.Moved id h') : h' = h := by
  obtain ⟨start, stop, target, caught⟩ := h
  obtain ⟨start', stop', target', caught'⟩ := h'
  obtain rfl : start' = start := UInt16.toNat_inj.1 hm.start
  obtain rfl : stop' = stop := UInt16.toNat_inj.1 hm.stop
  obtain rfl : target' = target := UInt16.toNat_inj.1 hm.target
  obtain rfl : caught' = caught := hm.caught
  rfl

theorem LineEntry.Moved.eq (hm : e.Moved id e') : e' = e := by
  obtain ⟨start, line⟩ := e
  obtain ⟨start', line'⟩ := e'
  obtain rfl : start' = start := UInt16.toNat_inj.1 hm.start
  obtain rfl : line' = line := hm.line
  rfl

theorem LocalEntry.Moved.eq {e e' : LocalEntry} (hm : e.Moved id e') : e' = e := by
  obtain ⟨start, length, name, descriptor, index⟩ := e
  obtain ⟨start', length', name', descriptor', index'⟩ := e'
  have hlength : length'.toNat = start.toNat + length.toNat - start.toNat := hm.length
  rw [Nat.add_sub_cancel_left] at hlength
  obtain rfl : start' = start := UInt16.toNat_inj.1 hm.start
  obtain rfl : length' = length := UInt16.toNat_inj.1 hlength
  obtain rfl : name' = name := hm.name
  obtain rfl : descriptor' = descriptor := hm.descriptor
  obtain rfl : index' = index := hm.index
  rfl

theorem VerificationType.Moved.eq (hm : t.Moved id t') : t' = t := by
  cases t with
  | uninitialized o =>
    obtain ⟨o', rfl, ho⟩ := hm
    rw [UInt16.toNat_inj.1 ho]
  | _ => exact hm

theorem FrameShape.Moved.eq (hm : s.Moved id s') : s' = s := by
  cases hm with
  | same | chop | sameExtended => rfl
  | oneItem ht | oneItemExtended ht => rw [ht.eq]
  | append hls => rw [eq_of_forall₂ hls fun _ _ h => h.eq]
  | full hls hss => rw [eq_of_forall₂ hls fun _ _ h => h.eq, eq_of_forall₂ hss fun _ _ h => h.eq]

/-- The offset of a frame tells its distance. -/
theorem Frame.offsetAfter_inj (h : offsetAfter previous delta = offsetAfter previous delta') :
    delta = delta' := by
  apply UInt16.toNat_inj.1
  cases previous with
  | none => exact h
  | some p =>
    simp only [offsetAfter] at h
    omega

/-- Frames at the same offsets with the same shapes are the same. -/
theorem Frame.eq_of_offsetsFrom {fs fs' : List Frame}
    (hs : List.Forall₂ (fun f f' => f.shape.Moved id f'.shape) fs fs')
    (ho : offsetsFrom previous fs' = offsetsFrom previous fs) : fs' = fs := by
  induction hs generalizing previous with
  | nil => rfl
  | @cons f f' fs fs' hshape _ ih =>
    obtain ⟨hoffset, hrest⟩ := List.cons.inj ho
    rw [hoffset] at hrest
    obtain ⟨delta, shape⟩ := f
    obtain ⟨delta', shape'⟩ := f'
    obtain rfl := Frame.offsetAfter_inj hoffset
    obtain rfl : shape' = shape := hshape.eq
    rw [ih hrest]

theorem Attribute.Moved.eq (hm : a.Moved id a') : a' = a := by
  obtain ⟨name, content⟩ := a
  obtain ⟨name', content'⟩ := a'
  obtain ⟨hname, hm⟩ := hm
  obtain rfl : name' = name := hname
  refine congrArg (Attribute.mk name') ?_
  cases content with
  | lineNumbers es =>
    cases content' with
    | lineNumbers es' => exact congrArg _ (eq_of_forall₂ hm fun _ _ h => h.eq)
    | _ => exact hm
  | localVariables es =>
    cases content' with
    | localVariables es' => exact congrArg _ (eq_of_forall₂ hm fun _ _ h => h.eq)
    | _ => exact hm
  | localVariableTypes es =>
    cases content' with
    | localVariableTypes es' => exact congrArg _ (eq_of_forall₂ hm fun _ _ h => h.eq)
    | _ => exact hm
  | stackMap fs =>
    cases content' with
    | stackMap fs' =>
      have hoffsets := hm.offsets
      rw [List.map_id] at hoffsets
      exact congrArg _ (Frame.eq_of_offsetsFrom hm.shapes hoffsets)
    | _ => exact hm
  | _ => exact hm

end

namespace Layout

variable {place : Label → Except LayoutError Nat}

/-- A handler whose offsets stay is laid out as it was. -/
theorem handler_of_knows {h : Handler UInt16}
    (hr : ∀ o ∈ Code.handlerReferences h, Knows place id o) :
    handler place (Body.handlerOfCode h) = .ok h := by
  obtain ⟨h', hh⟩ := (handler_failsWith hr).exists_ok
  rw [hh, (moved_of_handler hr hh).eq]

/-- An attribute whose offsets stay is laid out as it was. -/
theorem bodyAttribute_of_knows {a : Attribute}
    (hr : ∀ o ∈ Code.attributeReferences a, Knows place id o) :
    bodyAttribute place (Body.attributeOfCode a) = .ok a := by
  obtain ⟨a', ha⟩ := (bodyAttribute_failsWith hr fun _ _ _ _ hlt => hlt).exists_ok
  rw [ha, (moved_of_bodyAttribute hr (fun _ _ _ _ hle => hle) ha).eq]

end Layout

/-! ### Code that is reproduced -/

namespace Body

variable {c : Code} {b : Body} {decoded : List (Nat × Insn)} {used : Nat → Bool} {stop o : Nat}

/-- An offset that is used is placed as a label. -/
theorem label_mem_placeLabels (hu : used o = true) (ho : o ∈ decoded.map (·.1) ∨ o = stop) :
    .label ⟨o⟩ ∈ placeLabels used decoded stop := by
  rcases ho with ho | rfl
  · obtain ⟨x, hx, rfl⟩ := List.mem_map.1 ho
    refine List.mem_append_left _ (List.mem_flatMap.2 ⟨x, hx, ?_⟩)
    simp [hu]
  · exact List.mem_append_right _ (by simp [hu])

/-- In canonical code every offset that is mentioned stays. -/
theorem knows_of_canonical (hd : Insn.Reads (.start c.bytes) decoded)
    (href : ∀ o ∈ c.references decoded, c.IsPlace decoded o) (hlen : c.bytes.length ≤ 65535)
    (hc : Insn.AllCanonical (.start c.bytes) decoded) :
    ∀ o ∈ c.references decoded,
      Layout.Knows (Layout.placeIn (decodedAs c decoded).insns) id o := by
  intro o ho
  have hnamed : Layout.Named 0 (decodedAs c decoded).insns :=
    Layout.named_placeLabels hd hc (Nat.zero_add _).symm
  have hlabel : .label ⟨o⟩ ∈ (decodedAs c decoded).insns :=
    label_mem_placeLabels (List.contains_iff_mem.2 ho) (href o ho)
  refine ⟨Layout.placeIn_of_labelOffset? (hnamed.labelOffset? hlabel), ?_⟩
  rcases href o ho with hin | rfl
  · obtain ⟨x, hx, rfl⟩ := List.mem_map.1 hin
    have hlt := (hd.bounds x hx).2
    simp only [Cursor.start, Nat.zero_add] at hlt
    exact Nat.le_trans (Nat.le_of_lt hlt) hlen
  · exact hlen

/-- Code is reproduced when it is taken apart and laid out again exactly if it is short enough and
canonical. -/
theorem toCode_ofCode_iff (h : ofCode c = .ok b) :
    b.toCode c.maxStack = .ok c ↔ c.bytes.length ≤ 65535 ∧ c.Canonical := by
  constructor
  · intro hcode
    obtain ⟨hlen, hbytes, -⟩ := Layout.toCode_eq_ok.1 hcode
    have hencodes := Layout.bytes_eq_ok.1 hbytes
    have hb := readable_of_ofCode h
    refine ⟨?_, fun decoded hd => ?_⟩
    · rw [← Nat.zero_add c.bytes.length, hencodes.length]
      exact hlen
    · have hreads := Insn.decode_eq_ok.2 (hb.reads hlen hencodes)
      obtain rfl := Except.ok.inj (hd.symm.trans hreads)
      exact hencodes.allCanonical hb.shaped
  · rintro ⟨hlen, hcanonical⟩
    obtain ⟨decoded, hd, href, rfl⟩ := ofCode_eq_ok.1 h
    have hc : Insn.AllCanonical (.start c.bytes) decoded :=
      hcanonical decoded (Insn.decode_eq_ok.2 hd)
    have hknows := knows_of_canonical hd href hlen hc
    have hencodes : Layout.Encodes (Layout.placeIn (decodedAs c decoded).insns) 0
        (decodedAs c decoded).insns c.bytes := by
      refine Layout.encodes_placeLabels hd hc fun x hx l hl => ?_
      have htarget : l.id ∈ c.references decoded :=
        List.mem_append_left _ (List.mem_append_left _
          (List.mem_flatMap.2 ⟨x, hx, List.mem_map_of_mem hl⟩))
      exact (hknows l.id htarget).1
    refine Layout.toCode_eq_ok.2 ⟨?_, Layout.bytes_eq_ok.2 hencodes, ?_, ?_, rfl, rfl⟩
    · rw [← hencodes.length, Nat.zero_add]
      exact hlen
    · show (c.handlers.map handlerOfCode).mapM _ = _
      rw [List.mapM_map]
      refine (mapM_eq_ok_map fun g hg => ?_).trans (congrArg _ (List.map_id _))
      refine Layout.handler_of_knows fun o ho => hknows o ?_
      exact List.mem_append_left _ (List.mem_append_right _ (List.mem_flatMap.2 ⟨g, hg, ho⟩))
    · show (c.attributes.map attributeOfCode).mapM _ = _
      rw [List.mapM_map]
      refine (mapM_eq_ok_map fun a ha => ?_).trans (congrArg _ (List.map_id _))
      refine Layout.bodyAttribute_of_knows fun o ho => hknows o ?_
      exact List.mem_append_right _ (List.mem_flatMap.2 ⟨a, ha, ho⟩)

/-- A constant beyond the reach of one byte, a switch with one byte of padding that goes back to the
start, and tables of every kind. -/
def switchCode : Code where
  maxStack := 2
  maxLocals := 1
  bytes := [0xbb, 0, 2, 0x13, 1, 0, 0xaa, 0, 0, 0, 0, 18, 0, 0, 0, 0, 0, 0, 0, 0, 0xff, 0xff, 0xff,
    0xfa, 0xb1]
  handlers := [⟨0, 24, 24, 0⟩]
  attributes := [⟨3, .lineNumbers [⟨0, 7⟩, ⟨24, 8⟩]⟩, ⟨4, .localVariables [⟨0, 25, 5, 6, 0⟩]⟩,
    ⟨8, .stackMap [⟨24, .full [] [.uninitialized 0]⟩]⟩, ⟨9, .carried [1]⟩]

theorem toCode_ofCode_switch :
    ∃ b, ofCode switchCode = .ok b ∧ switchCode.bytes.length ≤ 65535 ∧ switchCode.Canonical ∧
      b.toCode switchCode.maxStack = .ok switchCode := by
  have hd : Insn.decode switchCode.bytes = .ok [(0, .type Opcode.newObject 2), (3, .ldc 256),
      (6, .tableSwitch ⟨24⟩ 0 0 [⟨0⟩]), (24, .op 0xb1)] := by decide +kernel
  have href : ∀ o ∈ switchCode.references [(0, .type Opcode.newObject 2), (3, .ldc 256),
      (6, .tableSwitch ⟨24⟩ 0 0 [⟨0⟩]), (24, .op 0xb1)],
      switchCode.IsPlace [(0, .type Opcode.newObject 2), (3, .ldc 256),
        (6, .tableSwitch ⟨24⟩ 0 0 [⟨0⟩]), (24, .op 0xb1)] o := by
    unfold Code.IsPlace
    decide
  have hb := ofCode_eq_ok.2 ⟨_, Insn.decode_eq_ok.1 hd, href, rfl⟩
  have hcanonical : switchCode.Canonical := by
    intro decoded hdecoded
    obtain rfl := Except.ok.inj (hd.symm.trans hdecoded)
    simp only [List.forall_mem_cons]
    exact ⟨trivial, fun _ => by decide, rfl, trivial, fun _ h => (List.not_mem_nil h).elim⟩
  have hlen : switchCode.bytes.length ≤ 65535 := by decide
  exact ⟨_, hb, hlen, hcanonical, (toCode_ofCode_iff hb).2 ⟨hlen, hcanonical⟩⟩

end Body

end ClassTemplates
