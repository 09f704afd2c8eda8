import ClassTemplates.Proofs.Body.Relocation

/-!
# Why an edit has no byte form

Every label of an edit is placed and its frames stay in order. So its layout fails for want of room
only: the code is too long, or a short branch cannot span the distance to its target. Code that is
short enough fails at such a branch only.

## Main definitions

- `LayoutError.forRoom` — the failures for want of room

## Main results

- `Frame.deltas?_of_pairwise` — increasing offsets have distances
- `Body.EditOf.toCode_failsWith_of_stop_le` — the layout of an edit that is short enough
- `Body.EditOf.toCode_failsWith` — the layout of any edit
-/

namespace ClassTemplates

/-- The code does not fit, or a branch does not reach. -/
def LayoutError.forRoom : LayoutError → Prop
  | .branchTooFar _ _ | .codeTooLarge _ => True
  | .unboundLabel _ | .frameOrder _ => False

/-! ### Frames -/

namespace Frame

variable {previous : Option Nat}

/-- Frames stand at increasing offsets, behind the one before. -/
theorem pairwise_offsetsFrom {fs : List Frame} :
    (offsetsFrom previous fs).Pairwise (· < ·) ∧
      ∀ p, previous = some p → ∀ o ∈ offsetsFrom previous fs, p < o := by
  induction fs generalizing previous with
  | nil => exact ⟨.nil, fun p _ o ho => (List.not_mem_nil ho).elim⟩
  | cons f fs ih =>
    obtain ⟨hpairwise, hlater⟩ := @ih (some (offsetAfter previous f.delta))
    refine ⟨List.pairwise_cons.2 ⟨hlater _ rfl, hpairwise⟩, ?_⟩
    rintro p rfl
    have hlt : p < offsetAfter (some p) f.delta := by
      show p < p + f.delta.toNat + 1
      omega
    exact List.forall_mem_cons.2 ⟨hlt, fun o ho => Nat.lt_trans hlt (hlater _ rfl o ho)⟩

theorem deltasFrom?_of_pairwise {offsets : List Nat} (h : offsets.Pairwise (· < ·))
    (hprevious : ∀ p, previous = some p → ∀ o ∈ offsets, p < o)
    (hle : ∀ o ∈ offsets, o ≤ 65535) : ∃ deltas, deltasFrom? previous offsets = some deltas := by
  induction offsets generalizing previous with
  | nil => exact ⟨[], rfl⟩
  | cons o offsets ih =>
    rw [List.pairwise_cons] at h
    rw [List.forall_mem_cons] at hle
    obtain ⟨deltas, hdeltas⟩ : ∃ deltas, deltasFrom? (some o) offsets = some deltas :=
      ih h.2 (fun p hp => Option.some.inj hp ▸ h.1) hle.2
    obtain ⟨delta, hdelta⟩ : ∃ delta, deltaAfter? previous o = some delta := by
      cases previous with
      | none =>
        exact ⟨_, if_pos ⟨Nat.zero_le o, Nat.le_trans (Nat.sub_le _ _) hle.1⟩⟩
      | some p =>
        exact ⟨_, if_pos ⟨hprevious p rfl o List.mem_cons_self,
          Nat.le_trans (Nat.sub_le _ _) hle.1⟩⟩
    exact ⟨delta :: deltas, by simp [deltasFrom?, hdelta, hdeltas]⟩

/-- Every offset is that of a frame. -/
theorem exists_mem_zip {fs : List Frame} {o : Nat} (h : o ∈ offsets fs) :
    ∃ x ∈ fs.zip (offsets fs), x.2 = o := by
  have hlen : (offsets fs).length = fs.length := length_offsetsFrom
  rw [← List.map_snd_zip (Nat.le_of_eq hlen), List.mem_map] at h
  exact h

/-- Increasing offsets have distances, as long as they fit a word. -/
theorem deltas?_of_pairwise {offsets : List Nat} (h : offsets.Pairwise (· < ·))
    (hle : ∀ o ∈ offsets, o ≤ 65535) : ∃ deltas, deltas? offsets = some deltas :=
  deltasFrom?_of_pairwise h (fun _ hp => nomatch hp) hle

end Frame

namespace Layout

variable {place : Label → Except LayoutError Nat} {φ : Nat → Nat} {P : LayoutError → Prop}

/-! ### Instructions -/

theorem encode_failsWith (hfar : ∀ position target, P (.branchTooFar position target)) {i : Insn}
    {position : Nat} (h : ∀ l ∈ i.targets, ∃ o, place l = .ok o) :
    FailsWith P (i.encode place position) := by
  have hplace (l : Label) (hl : l ∈ i.targets) : FailsWith P (place l) := by
    obtain ⟨o, ho⟩ := h l hl
    rw [ho]
    exact failsWith_ok
  cases i with
  | jump opcode target =>
    refine (hplace target List.mem_cons_self).bind fun t _ => ?_
    split
    · exact failsWith_ok
    · refine FailsWith.bind (fun fault hfault => ?_) fun bytes _ => failsWith_ok
      unfold Insn.shortOffset at hfault
      simp only at hfault
      split at hfault
      · cases hfault
      · cases hfault
        exact hfar _ _
  | tableSwitch otherwise low high targets =>
    refine (hplace otherwise List.mem_cons_self).bind fun o _ => ?_
    exact (FailsWith.mapM fun l hl => hplace l (List.mem_cons_of_mem _ hl)).bind
      fun ts _ => failsWith_ok
  | lookupSwitch otherwise pairs =>
    refine (hplace otherwise List.mem_cons_self).bind fun o _ => ?_
    refine (FailsWith.mapM fun x hx => ?_).bind fun ts _ => failsWith_ok
    exact (hplace x.2 (List.mem_cons_of_mem _ (List.mem_map_of_mem hx))).bind
      fun t _ => failsWith_ok
  | _ => exact failsWith_ok

theorem bytesOnto_failsWith (hfar : ∀ position target, P (.branchTooFar position target))
    {insns : List Insn} {done : Array UInt8}
    (h : ∀ i ∈ insns, ∀ l ∈ i.targets, ∃ o, place l = .ok o) :
    FailsWith P (bytesOnto place done insns) := by
  induction insns generalizing done with
  | nil => exact failsWith_ok
  | cons i rest ih =>
    rw [List.forall_mem_cons] at h
    intro fault hfault
    rw [bytesOnto] at hfault
    split at hfault
    · rename_i fault' hi
      cases hfault
      exact encode_failsWith hfar h.1 _ hi
    · exact ih h.2 fault hfault

theorem bytes_failsWith (hfar : ∀ position target, P (.branchTooFar position target))
    {insns : List Insn} (h : ∀ i ∈ insns, ∀ l ∈ i.targets, ∃ o, place l = .ok o) :
    FailsWith P (Layout.bytes place insns) := by
  intro fault hfault
  unfold Layout.bytes at hfault
  split at hfault
  · rename_i fault' honto
    cases hfault
    exact bytesOnto_failsWith hfar h _ honto
  · cases hfault

/-! ### Tables -/

theorem word_failsWith {o : Nat} (h : Knows place φ o) : FailsWith P (word place ⟨o⟩) := by
  rw [word, h.1]
  exact failsWith_ok

theorem handler_failsWith {h : Handler UInt16}
    (hr : ∀ o ∈ Code.handlerReferences h, Knows place φ o) :
    FailsWith P (handler place (Body.handlerOfCode h)) := by
  simp only [Code.handlerReferences, List.forall_mem_cons] at hr
  exact (word_failsWith hr.1).bind fun _ _ => (word_failsWith hr.2.1).bind fun _ _ =>
    (word_failsWith hr.2.2.1).bind fun _ _ => failsWith_ok

theorem ranges_failsWith {es : List LocalEntry}
    (hr : ∀ o ∈ Code.localReferences es, Knows place φ o) :
    FailsWith P ((es.map Body.rangeOfEntry).mapM (range place)) := by
  rw [List.mapM_map]
  refine FailsWith.mapM fun e he => ?_
  have hin : ∀ o ∈ [e.start.toNat, Code.localStop e], Knows place φ o := fun o ho =>
    hr o (List.mem_flatMap.2 ⟨e, he, ho⟩)
  rw [List.forall_mem_cons] at hin
  exact (word_failsWith hin.1).bind fun _ _ =>
    (word_failsWith (hin.2 _ List.mem_cons_self)).bind fun _ _ => failsWith_ok

theorem type_failsWith {t : VerificationType}
    (hr : ∀ o, t.allocation? = some o → Knows place φ o) : FailsWith P (type place t) := by
  cases t with
  | uninitialized o => exact (word_failsWith (hr _ rfl)).bind fun _ _ => failsWith_ok
  | _ => exact failsWith_ok

theorem shape_failsWith {s : FrameShape}
    (hr : ∀ t ∈ s.types, ∀ o, t.allocation? = some o → Knows place φ o) :
    FailsWith P (s.mapTypesM (type place)) := by
  have htypes {ts : List VerificationType} (h : ∀ t ∈ ts, t ∈ s.types) :
      FailsWith P (ts.mapM (type place)) :=
    FailsWith.mapM fun t ht => type_failsWith (hr t (h t ht))
  cases s with
  | same | chop | sameExtended => exact failsWith_ok
  | oneItem t | oneItemExtended t =>
    exact (type_failsWith (hr t List.mem_cons_self)).bind fun _ _ => failsWith_ok
  | append ls => exact (htypes fun t ht => ht).bind fun _ _ => failsWith_ok
  | full ls ss =>
    exact (htypes fun t ht => List.mem_append_left _ ht).bind fun _ _ =>
      (htypes fun t ht => List.mem_append_right _ ht).bind fun _ _ => failsWith_ok

theorem frames_failsWith {fs : List Frame} (hr : ∀ o ∈ Code.frameReferences fs, Knows place φ o)
    (hφ : ∀ o ∈ Frame.offsets fs, ∀ o' ∈ Frame.offsets fs, o < o' → φ o < φ o') :
    FailsWith P (frames place ((fs.zip (Frame.offsets fs)).map fun x => (⟨x.2⟩, x.1))) := by
  have hknown := knows_of_frameReferences hr
  have hincreasing : ((Frame.offsets fs).map φ).Pairwise (· < ·) := by
    rw [List.pairwise_map]
    have hpairwise : (Frame.offsets fs).Pairwise (· < ·) := Frame.pairwise_offsetsFrom.1
    exact hpairwise.imp_of_mem fun ho ho' hlt => hφ _ ho _ ho' hlt
  have hle : ∀ o ∈ (Frame.offsets fs).map φ, o ≤ 65535 := by
    refine List.forall_mem_map.2 fun o ho => ?_
    obtain ⟨x, hx, rfl⟩ := Frame.exists_mem_zip ho
    exact (hknown x hx).2.2
  obtain ⟨deltas, hdeltas⟩ := Frame.deltas?_of_pairwise hincreasing hle
  refine FailsWith.bind (fun fault hfault => ?_) fun offsets hoffsets => ?_
  · rw [mapM_place_frames hr] at hfault
    cases hfault
  · obtain rfl := Except.ok.inj ((mapM_place_frames hr).symm.trans hoffsets)
    simp only [hdeltas]
    refine FailsWith.mapM fun x hx => ?_
    obtain ⟨⟨l, f⟩, delta⟩ := x
    obtain ⟨y, hy, hxy⟩ := List.mem_map.1 (List.of_mem_zip hx).1
    cases hxy
    exact (shape_failsWith (hknown y hy).1).bind fun _ _ => failsWith_ok

theorem bodyAttribute_failsWith {a : Attribute}
    (hr : ∀ o ∈ Code.attributeReferences a, Knows place φ o)
    (hφ : ∀ o ∈ Code.attributeReferences a, ∀ o' ∈ Code.attributeReferences a,
      o < o' → φ o < φ o') : FailsWith P (bodyAttribute place (Body.attributeOfCode a)) := by
  obtain ⟨name, content⟩ := a
  cases content with
  | lineNumbers entries =>
    refine FailsWith.bind ?_ fun _ _ => failsWith_ok
    rw [List.mapM_map]
    exact FailsWith.mapM fun e he =>
      (word_failsWith (hr _ (List.mem_map_of_mem he))).bind fun _ _ => failsWith_ok
  | localVariables entries | localVariableTypes entries =>
    exact (ranges_failsWith hr).bind fun _ _ => failsWith_ok
  | stackMap fs =>
    have hin : ∀ o ∈ Frame.offsets fs, o ∈ Code.frameReferences fs := by
      intro o ho
      obtain ⟨x, hx, rfl⟩ := Frame.exists_mem_zip ho
      exact List.mem_flatMap.2 ⟨x, hx, List.mem_append_right _ List.mem_cons_self⟩
    exact (frames_failsWith hr fun o ho o' ho' => hφ o (hin o ho) o' (hin o' ho')).bind
      fun _ _ => failsWith_ok
  | _ => exact failsWith_ok

end Layout

namespace Body

variable {c : Code} {decoded : List (Nat × Insn)} {pre : List Insn} {xs : List Splice} {b : Body}
  {maxStack : UInt16}

/-- An edit that is short enough has a branch that does not reach, if its layout fails. -/
theorem EditOf.toCode_failsWith_of_stop_le {P : LayoutError → Prop} (h : b.EditOf c decoded pre xs)
    (hpre : ∀ i ∈ pre, i.targets = []) (hfar : ∀ position target, P (.branchTooFar position target))
    (hlen : Layout.stop 0 b.insns ≤ Layout.maxLength) : FailsWith P (b.toCode maxStack) := by
  obtain ⟨zs, hzs, hload, hfresh, hafter, hplace, -⟩ := h.exists_marked
  rw [Layout.toCode_eq, if_neg (Nat.not_lt.2 hlen), h.insns, hafter, h.handlers, h.attributes]
  rw [h.insns, hafter] at hlen
  have hknows : ∀ o ∈ c.references decoded, Layout.Knows _ _ o := fun o ho =>
    Splice.knows_of_isPlace hfresh (List.contains_iff_mem.2 ho) (hplace o ho) hlen
  refine (Layout.bytes_failsWith hfar fun i hi l hl => ?_).bind fun bytes _ => ?_
  · rcases List.mem_append.1 hi with hi | hi
    · rw [hpre i hi] at hl
      cases hl
    · have htargets := (Splice.wellShaped_of_mem_marked h.reads hzs hload hi).2
      exact ⟨_, (hknows _ (htargets l hl)).1⟩
  · rw [List.mapM_map, List.mapM_map]
    refine (FailsWith.mapM fun g hg => ?_).bind fun handlers _ =>
      (FailsWith.mapM fun a ha => ?_).bind fun attributes _ => failsWith_ok
    · refine Layout.handler_failsWith fun o ho => hknows o ?_
      exact List.mem_append_left _ (List.mem_append_right _ (List.mem_flatMap.2 ⟨g, hg, ho⟩))
    · have hin : ∀ o ∈ Code.attributeReferences a, o ∈ c.references decoded := fun o ho =>
        List.mem_append_right _ (List.mem_flatMap.2 ⟨a, ha, ho⟩)
      refine Layout.bodyAttribute_failsWith (fun o ho => hknows o (hin o ho)) ?_
      intro o ho o' ho' hlt
      exact Splice.strictMonoOn_position hfresh (hplace o (hin o ho)) (hplace o' (hin o' ho')) hlt

/-- An edit whose layout fails does not fit, or has a branch that does not reach. -/
theorem EditOf.toCode_failsWith (h : b.EditOf c decoded pre xs)
    (hpre : ∀ i ∈ pre, i.targets = []) : FailsWith LayoutError.forRoom (b.toCode maxStack) := by
  by_cases hlen : Layout.stop 0 b.insns ≤ Layout.maxLength
  · exact h.toCode_failsWith_of_stop_le hpre (fun _ _ => trivial) hlen
  · rw [Layout.toCode_eq, if_pos (Nat.lt_of_not_le hlen)]
    intro fault hfault
    cases hfault
    trivial

end Body

end ClassTemplates
