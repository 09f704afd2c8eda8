import ClassTemplates.Proofs.Body.Decoded

/-!
# Tables beside moved code

When code moves, so does every offset in a table beside it: those of handlers and lines, both ends
of the range of a local variable, those of stack-map frames and the allocations that frames name.
Where a table holds a distance or a length, it is the offsets that it stands for that move.

## Main definitions

- `Handler.Moved`, `LineEntry.Moved`, `LocalEntry.Moved`, `FramesMoved` — moved tables
- `Attribute.Moved`, `Code.Moved` — moved attributes, and code

## Main results

- `Layout.moved_of_handler`, `moved_of_bodyAttribute` — what the layout makes of a table
-/

namespace ClassTemplates

/-! ### Moved tables -/

section

variable (φ : Nat → Nat)

/-- The handler between the moved offsets. -/
structure Handler.Moved (h h' : Handler UInt16) : Prop where
  start : h'.start.toNat = φ h.start.toNat
  stop : h'.stop.toNat = φ h.stop.toNat
  target : h'.target.toNat = φ h.target.toNat
  caught : h'.caught = h.caught

/-- The line at the moved offset. -/
structure LineEntry.Moved (e e' : LineEntry UInt16) : Prop where
  start : e'.start.toNat = φ e.start.toNat
  line : e'.line = e.line

/-- The range of a local variable between the moved offsets of both of its ends. -/
structure LocalEntry.Moved (e e' : LocalEntry) : Prop where
  start : e'.start.toNat = φ e.start.toNat
  le : φ e.start.toNat ≤ φ (Code.localStop e)
  length : e'.length.toNat = φ (Code.localStop e) - φ e.start.toNat
  name : e'.name = e.name
  descriptor : e'.descriptor = e.descriptor
  index : e'.index = e.index

/-- The type with the moved offset of its allocation. -/
def VerificationType.Moved : VerificationType → VerificationType → Prop
  | .uninitialized o, t => ∃ o', t = .uninitialized o' ∧ o'.toNat = φ o.toNat
  | t, t' => t' = t

/-- The shape with moved types. -/
inductive FrameShape.Moved : FrameShape → FrameShape → Prop
  | same : Moved .same .same
  | oneItem {t t' : VerificationType} : t.Moved φ t' → Moved (.oneItem t) (.oneItem t')
  | oneItemExtended {t t' : VerificationType} :
    t.Moved φ t' → Moved (.oneItemExtended t) (.oneItemExtended t')
  | chop {count : UInt8} : Moved (.chop count) (.chop count)
  | sameExtended : Moved .sameExtended .sameExtended
  | append {ls ls' : List VerificationType} :
    List.Forall₂ (VerificationType.Moved φ) ls ls' → Moved (.append ls) (.append ls')
  | full {ls ls' ss ss' : List VerificationType} :
    List.Forall₂ (VerificationType.Moved φ) ls ls' →
    List.Forall₂ (VerificationType.Moved φ) ss ss' → Moved (.full ls ss) (.full ls' ss')

/-- The frames stand at the moved offsets and have moved types. -/
structure FramesMoved (fs fs' : List Frame) : Prop where
  shapes : List.Forall₂ (fun f f' => f.shape.Moved φ f'.shape) fs fs'
  offsets : Frame.offsets fs' = (Frame.offsets fs).map φ

/-- The attribute with moved tables. -/
def Attribute.Moved (a a' : Attribute) : Prop :=
  a'.name = a.name ∧ match a.content, a'.content with
    | .lineNumbers es, .lineNumbers es' => List.Forall₂ (LineEntry.Moved φ) es es'
    | .localVariables es, .localVariables es' => List.Forall₂ (LocalEntry.Moved φ) es es'
    | .localVariableTypes es, .localVariableTypes es' => List.Forall₂ (LocalEntry.Moved φ) es es'
    | .stackMap fs, .stackMap fs' => FramesMoved φ fs fs'
    | content, content' => content' = content

/-- The code with moved tables, apart from its bytes and its stack. -/
structure Code.Moved (c c' : Code) : Prop where
  maxLocals : c'.maxLocals = c.maxLocals
  handlers : List.Forall₂ (Handler.Moved φ) c.handlers c'.handlers
  attributes : List.Forall₂ (Attribute.Moved φ) c.attributes c'.attributes

/-- The label of the moved offset. -/
def Label.moved (l : Label) : Label :=
  ⟨φ l.id⟩

end

/-! ### Frames -/

namespace Frame

variable {previous : Option Nat} {offset : Nat} {delta : UInt16}

/-- A distance that fits gives a frame its offset. -/
theorem offsetAfter_of_deltaAfter? (h : deltaAfter? previous offset = some delta) :
    offsetAfter previous delta = offset := by
  have hword (n : Nat) (hn : n ≤ 0xffff) : (UInt16.ofNat n).toNat = n :=
    UInt16.toNat_ofNat_of_lt' (Nat.lt_succ_of_le hn)
  cases previous with
  | none =>
    obtain ⟨hfit, h⟩ := Option.ite_none_right_eq_some.1 h
    cases h
    rw [offsetAfter, hword _ hfit.2]
    exact Nat.sub_zero _
  | some p =>
    obtain ⟨hfit, h⟩ := Option.ite_none_right_eq_some.1 h
    cases h
    have hle : p + 1 ≤ offset := hfit.1
    rw [offsetAfter, hword _ hfit.2]
    show p + (offset - (p + 1)) + 1 = offset
    omega

theorem offsetsFrom_of_deltasFrom? {offsets : List Nat} {fs : List Frame}
    (h : deltasFrom? previous offsets = some (fs.map (·.delta))) :
    offsetsFrom previous fs = offsets := by
  induction offsets generalizing previous fs with
  | nil =>
    cases fs with
    | nil => rfl
    | cons f fs => cases h
  | cons offset offsets ih =>
    rw [deltasFrom?] at h
    obtain ⟨delta, hd, h⟩ := Option.bind_eq_some_iff.1 h
    obtain ⟨deltas, hds, h⟩ := Option.bind_eq_some_iff.1 h
    obtain ⟨f, fs', rfl, rfl, hrest⟩ := List.map_eq_cons_iff.1 (Option.some.inj h).symm
    rw [offsetsFrom, offsetAfter_of_deltaAfter? hd]
    rw [← hrest] at hds
    simp only [ih hds]

theorem length_offsetsFrom {fs : List Frame} :
    (offsetsFrom previous fs).length = fs.length := by
  induction fs generalizing previous with
  | nil => rfl
  | cons f fs ih => simp [offsetsFrom, ih]

theorem length_deltasFrom? {offsets : List Nat} {deltas : List UInt16}
    (h : deltasFrom? previous offsets = some deltas) : deltas.length = offsets.length := by
  induction offsets generalizing previous deltas with
  | nil =>
    cases h
    rfl
  | cons offset offsets ih =>
    rw [deltasFrom?] at h
    obtain ⟨delta, -, h⟩ := Option.bind_eq_some_iff.1 h
    obtain ⟨rest, hrest, h⟩ := Option.bind_eq_some_iff.1 h
    cases h
    simp [ih hrest]

end Frame

/-! ### What the layout makes of tables -/

namespace Layout

variable {place : Label → Except LayoutError Nat} {φ : Nat → Nat}

/-- The layout has the moved offset of an offset, and it fits a word. -/
abbrev Knows (place : Label → Except LayoutError Nat) (φ : Nat → Nat) (o : Nat) : Prop :=
  Insn.Resolves place (Label.moved φ) ⟨o⟩

theorem ofWord_of_word {f : Label → Label} {l : Label} {w : UInt16}
    (hl : Insn.Resolves place f l) (h : word place l = .ok w) : Label.ofWord w = f l := by
  obtain ⟨n, hn, h⟩ := bind_eq_ok.1 h
  rw [hl.1] at hn
  cases hn
  cases h
  exact congrArg Label.mk (UInt16.toNat_ofNat_of_lt' (Nat.lt_succ_of_le hl.2))

theorem word_eq_ok {o : Nat} {w : UInt16} (ho : Knows place φ o) (h : word place ⟨o⟩ = .ok w) :
    w.toNat = φ o :=
  congrArg Label.id (ofWord_of_word ho h)

theorem moved_of_handler {h : Handler UInt16} {h' : Handler UInt16}
    (hr : ∀ o ∈ Code.handlerReferences h, Knows place φ o)
    (hh : handler place (Body.handlerOfCode h) = .ok h') : h.Moved φ h' := by
  simp only [Code.handlerReferences, List.forall_mem_cons] at hr
  obtain ⟨start, hs, hh⟩ := bind_eq_ok.1 hh
  obtain ⟨stop, ht, hh⟩ := bind_eq_ok.1 hh
  obtain ⟨target, hg, hh⟩ := bind_eq_ok.1 hh
  cases hh
  exact ⟨word_eq_ok hr.1 hs, word_eq_ok hr.2.1 ht, word_eq_ok hr.2.2.1 hg, rfl⟩

theorem moved_of_line {e e' : LineEntry UInt16} (hr : Knows place φ e.start.toNat)
    (h : line place ⟨.ofWord e.start, e.line⟩ = .ok e') : e.Moved φ e' := by
  obtain ⟨start, hs, h⟩ := bind_eq_ok.1 h
  cases h
  exact ⟨word_eq_ok hr hs, rfl⟩

theorem moved_of_range {e e' : LocalEntry} (hs : Knows place φ e.start.toNat)
    (ht : Knows place φ (Code.localStop e)) (hle : φ e.start.toNat ≤ φ (Code.localStop e))
    (h : range place (Body.rangeOfEntry e) = .ok e') : e.Moved φ e' := by
  obtain ⟨start, hstart, h⟩ := bind_eq_ok.1 h
  obtain ⟨stop, hstop, h⟩ := bind_eq_ok.1 h
  cases h
  have hstart := word_eq_ok hs hstart
  have hstop := word_eq_ok ht hstop
  have hle' : start ≤ stop := by
    rw [UInt16.le_iff_toNat_le, hstart, hstop]
    exact hle
  refine ⟨hstart, hle, ?_, rfl, rfl, rfl⟩
  simp only
  rw [UInt16.toNat_sub_of_le _ _ hle', hstart, hstop]

theorem moved_of_type {t t' : VerificationType}
    (hr : ∀ o, t.allocation? = some o → Knows place φ o) (h : type place t = .ok t') :
    t.Moved φ t' := by
  cases t with
  | uninitialized o =>
    obtain ⟨o', ho, h⟩ := bind_eq_ok.1 h
    cases h
    exact ⟨o', rfl, word_eq_ok (hr _ rfl) ho⟩
  | _ =>
    cases h
    rfl

theorem moved_of_types {ts ts' : List VerificationType}
    (hr : ∀ t ∈ ts, ∀ o, t.allocation? = some o → Knows place φ o)
    (h : ts.mapM (type place) = .ok ts') : List.Forall₂ (VerificationType.Moved φ) ts ts' :=
  forall₂_of_mapM_eq_ok h fun t ht _ => moved_of_type (hr t ht)

theorem moved_of_shape {s s' : FrameShape}
    (hr : ∀ t ∈ s.types, ∀ o, t.allocation? = some o → Knows place φ o)
    (h : s.mapTypesM (type place) = .ok s') : s.Moved φ s' := by
  cases s with
  | same =>
    cases h
    exact .same
  | chop count =>
    cases h
    exact .chop
  | sameExtended =>
    cases h
    exact .sameExtended
  | oneItem t =>
    obtain ⟨t', ht, h⟩ := bind_eq_ok.1 h
    cases h
    exact .oneItem (moved_of_type (hr t List.mem_cons_self) ht)
  | oneItemExtended t =>
    obtain ⟨t', ht, h⟩ := bind_eq_ok.1 h
    cases h
    exact .oneItemExtended (moved_of_type (hr t List.mem_cons_self) ht)
  | append ls =>
    obtain ⟨ls', hls, h⟩ := bind_eq_ok.1 h
    cases h
    exact .append (moved_of_types hr hls)
  | full ls ss =>
    obtain ⟨ls', hls, h⟩ := bind_eq_ok.1 h
    obtain ⟨ss', hss, h⟩ := bind_eq_ok.1 h
    cases h
    exact .full (moved_of_types (fun t ht => hr t (List.mem_append_left _ ht)) hls)
      (moved_of_types (fun t ht => hr t (List.mem_append_right _ ht)) hss)

theorem frame_eq_ok {f f' : Frame} {delta : UInt16}
    (hr : ∀ t ∈ f.types, ∀ o, t.allocation? = some o → Knows place φ o)
    (h : frame place f delta = .ok f') : f.shape.Moved φ f'.shape ∧ f'.delta = delta := by
  obtain ⟨shape, hs, h⟩ := bind_eq_ok.1 h
  cases h
  exact ⟨moved_of_shape hr hs, rfl⟩

/-- Frames with the distances of a list have moved shapes and these distances. -/
theorem mapM_frame_eq_ok {fs : List (Label × Frame)} {deltas : List UInt16} {fs' : List Frame}
    (hlen : deltas.length = fs.length)
    (hr : ∀ x ∈ fs, ∀ t ∈ x.2.types, ∀ o, t.allocation? = some o → Knows place φ o)
    (h : (fs.zip deltas).mapM (fun x => frame place x.1.2 x.2) = .ok fs') :
    List.Forall₂ (fun x f' => x.2.shape.Moved φ f'.shape) fs fs' ∧
      fs'.map (·.delta) = deltas := by
  have hmap := mapM_eq_ok.1 h
  clear h
  induction fs generalizing deltas fs' with
  | nil =>
    obtain rfl := List.length_eq_zero_iff.1 hlen
    cases hmap
    exact ⟨.nil, rfl⟩
  | cons x fs ih =>
    obtain ⟨delta, deltas, rfl⟩ := List.exists_cons_of_length_eq_add_one hlen
    rw [List.zip_cons_cons] at hmap
    cases hmap with
    | cons hf hmap =>
      rw [List.forall_mem_cons] at hr
      obtain ⟨hshape, hdelta⟩ := frame_eq_ok hr.1 hf
      obtain ⟨hshapes, hdeltas⟩ := ih (Nat.succ.inj hlen) hr.2 hmap
      exact ⟨.cons hshape hshapes, by rw [List.map_cons, hdelta, hdeltas]⟩

/-- The layout knows the allocations of a frame, and the frame. -/
theorem knows_of_frameReferences {fs : List Frame}
    (hr : ∀ o ∈ Code.frameReferences fs, Knows place φ o) :
    ∀ x ∈ fs.zip (Frame.offsets fs),
      (∀ t ∈ x.1.types, ∀ o, t.allocation? = some o → Knows place φ o) ∧ Knows place φ x.2 := by
  intro x hx
  have hin (o : Nat) (ho : o ∈ x.1.types.filterMap VerificationType.allocation? ++ [x.2]) :
      Knows place φ o :=
    hr o (List.mem_flatMap.2 ⟨x, hx, ho⟩)
  refine ⟨fun t ht o ho => hin o ?_, hin x.2 ?_⟩
  · exact List.mem_append_left _ (List.mem_filterMap.2 ⟨t, ht, ho⟩)
  · exact List.mem_append_right _ List.mem_cons_self

/-- The labels of frames have the moved offsets. -/
theorem mapM_place_frames {fs : List Frame}
    (hr : ∀ o ∈ Code.frameReferences fs, Knows place φ o) :
    ((fs.zip (Frame.offsets fs)).map fun x => ((⟨x.2⟩ : Label), x.1)).mapM (fun x => place x.1) =
      .ok ((Frame.offsets fs).map φ) := by
  have hlen : (Frame.offsets fs).length = fs.length := Frame.length_offsetsFrom
  have hsecond : (fs.zip (Frame.offsets fs)).map Prod.snd = Frame.offsets fs :=
    List.map_snd_zip (Nat.le_of_eq hlen)
  have hall : (fs.zip (Frame.offsets fs)).mapM (fun x => place ⟨x.2⟩) =
      .ok ((fs.zip (Frame.offsets fs)).map fun x => φ x.2) :=
    mapM_eq_ok_map fun x hx => (knows_of_frameReferences hr x hx).2.1
  rw [List.mapM_map, ← hsecond, List.map_map, hsecond]
  exact hall

theorem moved_of_frames {fs fs' : List Frame}
    (hr : ∀ o ∈ Code.frameReferences fs, Knows place φ o)
    (h : frames place ((fs.zip (Frame.offsets fs)).map fun x => (⟨x.2⟩, x.1)) = .ok fs') :
    FramesMoved φ fs fs' := by
  have hlen : (Frame.offsets fs).length = fs.length := Frame.length_offsetsFrom
  have hfirst : (fs.zip (Frame.offsets fs)).map Prod.fst = fs :=
    List.map_fst_zip (Nat.le_of_eq hlen.symm)
  obtain ⟨offsets, hoffsets, h⟩ := bind_eq_ok.1 h
  obtain rfl := Except.ok.inj ((mapM_place_frames hr).symm.trans hoffsets)
  have hknown := knows_of_frameReferences hr
  split at h
  · cases h
  · rename_i deltas hdeltas
    have hcount : deltas.length =
        ((fs.zip (Frame.offsets fs)).map fun x => ((⟨x.2⟩ : Label), x.1)).length := by
      rw [Frame.length_deltasFrom? hdeltas, List.length_map, List.length_map, List.length_zip,
        hlen, Nat.min_self]
    obtain ⟨hshapes, hdeltas'⟩ := mapM_frame_eq_ok hcount
      (List.forall_mem_map.2 fun x hx => (hknown x hx).1) h
    refine ⟨?_, Frame.offsetsFrom_of_deltasFrom? (hdeltas'.symm ▸ hdeltas)⟩
    have hmoved : List.Forall₂ (fun x f' => x.1.shape.Moved φ f'.shape)
        (fs.zip (Frame.offsets fs)) fs' := List.forall₂_map_left_iff.1 hshapes
    have hfs := (List.forall₂_map_left_iff (f := Prod.fst)
      (R := fun (f f' : Frame) => f.shape.Moved φ f'.shape)).2 hmoved
    rwa [hfirst] at hfs

/-- The offsets that a table mentions stay in order. -/
def Ordered (φ : Nat → Nat) (os : List Nat) : Prop :=
  ∀ o ∈ os, ∀ o' ∈ os, o ≤ o' → φ o ≤ φ o'

theorem moved_of_ranges {es es' : List LocalEntry}
    (hr : ∀ o ∈ Code.localReferences es, Knows place φ o)
    (hord : Ordered φ (Code.localReferences es))
    (h : (es.map Body.rangeOfEntry).mapM (range place) = .ok es') :
    List.Forall₂ (LocalEntry.Moved φ) es es' := by
  rw [List.mapM_map] at h
  refine forall₂_of_mapM_eq_ok h fun e he e' => ?_
  have hstart : e.start.toNat ∈ Code.localReferences es :=
    List.mem_flatMap.2 ⟨e, he, List.mem_cons_self⟩
  have hstop : Code.localStop e ∈ Code.localReferences es :=
    List.mem_flatMap.2 ⟨e, he, List.mem_cons_of_mem _ List.mem_cons_self⟩
  exact moved_of_range (hr _ hstart) (hr _ hstop) (hord _ hstart _ hstop (Nat.le_add_right _ _))

theorem moved_of_bodyAttribute {a a' : Attribute}
    (hr : ∀ o ∈ Code.attributeReferences a, Knows place φ o)
    (hord : Ordered φ (Code.attributeReferences a))
    (h : bodyAttribute place (Body.attributeOfCode a) = .ok a') : a.Moved φ a' := by
  obtain ⟨name, content⟩ := a
  cases content with
  | lineNumbers entries =>
    obtain ⟨es, hes, h⟩ := bind_eq_ok.1 h
    cases h
    refine ⟨rfl, ?_⟩
    rw [List.mapM_map] at hes
    exact forall₂_of_mapM_eq_ok hes fun e he e' h => moved_of_line (hr _ (List.mem_map_of_mem he)) h
  | localVariables entries | localVariableTypes entries =>
    obtain ⟨es, hes, h⟩ := bind_eq_ok.1 h
    cases h
    exact ⟨rfl, moved_of_ranges hr hord hes⟩
  | stackMap fs =>
    obtain ⟨fs', hfs, h⟩ := bind_eq_ok.1 h
    cases h
    exact ⟨rfl, moved_of_frames hr hfs⟩
  | _ =>
    cases h
    exact ⟨rfl, rfl⟩

end Layout

end ClassTemplates
