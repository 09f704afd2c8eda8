import Mathlib.Data.List.Nodup
import ClassTemplates.Proofs.Body.RoundTrip
import ClassTemplates.Proofs.Expansion.Initializer

/-!
# Taking relocated code apart

The code of an edit can be taken apart again. The edit refers to the labels that the body it was
made from refers to, each is placed once, and no two at one offset. So no label is left out, and the
body that results is the edit with other labels.

## Main definitions

- `Body.Renames` — a body with other labels, different ones for labels that are placed

## Main results

- `Splice.placed_marked` — the labels that are placed in spliced code
- `Body.EditOf.readable`, `readable_of_ofCode` — the code of an edit can be read back, and that of a
  body made from code
- `Body.EditOf.renames` — the body of relocated code
-/

namespace ClassTemplates

/-- The second body is the first with other labels, of which no two coincide. -/
structure Body.Renames (f : Label → Label) (b b' : Body) : Prop where
  injective : ∀ l l', .label l ∈ b.insns → .label l' ∈ b.insns → f l = f l' → l = l'
  insns : b'.insns = b.insns.map (Insn.relabel f)
  handlers : b'.handlers = b.handlers.map (Handler.relabel f)

namespace Insn

variable {insn : Insn} {f : Label → Label}

/-- An instruction of an assignment is well-shaped and has no label in it. -/
theorem wellShaped_of_assigning (h : insn.assigning) :
    insn.WellShaped ∧ insn.targets = [] ∧ insn.isLabel = false := by
  rcases assigning_cases h with h | ⟨i, rfl⟩
  · obtain ⟨hw, htargets⟩ := wellShaped_of_emitted h
    exact ⟨hw, htargets, hw.not_isLabel⟩
  · exact ⟨rfl, rfl, rfl⟩

theorem relabel_of_assigning (h : insn.assigning) : insn.relabel f = insn := by
  cases insn <;> first | rfl | cases h

end Insn

/-! ### Labels of an edit -/

namespace Splice

variable {used : Nat → Bool} {start stop : Nat} {zs : List (Nat × Splice)} {l : Label}

theorem targets_mark : (mark used stop).flatMap Insn.targets = [] := by
  unfold mark
  split <;> rfl

/-- Loads and the code in their place take no branch. -/
theorem targets_marked (hload : OfLoads (zs.map (·.2))) :
    (marked used stop zs).flatMap Insn.targets = zs.flatMap fun z => z.2.insn.targets := by
  induction zs with
  | nil => exact targets_mark
  | cons z zs ih =>
    have hresult : z.2.result.flatMap Insn.targets = z.2.insn.targets := by
      cases hc : z.2.code with
      | none => simp [result_of_none hc]
      | some code =>
        obtain ⟨⟨i, hi⟩, -, hemit⟩ := hload z.2 List.mem_cons_self code hc
        rw [result_of_some hc, hi, List.flatMap_eq_nil_iff.2 fun y hy =>
          (Insn.wellShaped_of_emitted (hemit y hy)).2]
        rfl
    rw [marked, List.flatMap_append, List.flatMap_append, targets_mark, hresult,
      ih fun x hx => hload x (List.mem_cons_of_mem _ hx)]
    rfl

theorem placed_mark {o : Nat} :
    (mark used o).filterMap Insn.placed? = ([o].filter used).map Label.mk := by
  by_cases hu : used o = true <;> simp [mark, hu, Insn.placed?]

/-- The labels of the offsets that are used are placed, in order. -/
theorem placed_marked (h : Fresh stop zs) :
    (marked used stop zs).filterMap Insn.placed? =
      ((zs.map (·.1) ++ [stop]).filter used).map Label.mk := by
  induction zs with
  | nil => exact placed_mark
  | cons z zs ih =>
    have hresult : z.2.result.filterMap Insn.placed? = [] := by
      rw [List.filterMap_eq_nil_iff]
      intro i hi
      exact Insn.placed?_of_not_isLabel (h.unlabelled z List.mem_cons_self i hi)
    have hsplit : (z :: zs).map (·.1) ++ [stop] = [z.1] ++ (zs.map (·.1) ++ [stop]) := rfl
    rw [marked, List.filterMap_append, List.filterMap_append, placed_mark, hresult,
      List.nil_append, ih h.tail, ← List.map_append, ← List.filter_append, hsplit]

theorem label_mem_marked (h : Fresh stop zs) :
    .label l ∈ marked used stop zs ↔
      (l.id ∈ zs.map (·.1) ∨ l.id = stop) ∧ used l.id = true := by
  have hplaced : .label l ∈ marked used stop zs ↔
      l ∈ (marked used stop zs).filterMap Insn.placed? := by
    simp [List.mem_filterMap, Insn.placed?_eq_some]
  rw [hplaced, placed_marked h, List.mem_map]
  constructor
  · rintro ⟨o, ho, rfl⟩
    obtain ⟨hmem, hu⟩ := List.mem_filter.1 ho
    exact ⟨(List.mem_append.1 hmem).imp_right List.mem_singleton.1, hu⟩
  · rintro ⟨hmem, hu⟩
    refine ⟨l.id, List.mem_filter.2 ⟨?_, hu⟩, rfl⟩
    exact List.mem_append.2 (hmem.imp_right List.mem_singleton.2)

/-- No label is placed twice. -/
theorem nodup_placed_marked (h : Fresh stop zs) :
    ((marked used stop zs).filterMap Insn.placed?).Nodup := by
  have hsorted : (zs.map (·.1) ++ [stop]).Pairwise (· < ·) := by
    refine List.pairwise_append.2 ⟨h.sorted, List.pairwise_singleton _ _, ?_⟩
    intro o ho o' ho'
    obtain ⟨z, hz, rfl⟩ := List.mem_map.1 ho
    rw [List.mem_singleton.1 ho']
    exact h.bounded z hz
  rw [placed_marked h]
  refine List.Nodup.map (fun o o' heq => congrArg Label.id heq) (List.Nodup.filter _ ?_)
  exact hsorted.imp fun hlt => Nat.ne_of_lt hlt

end Splice

/-! ### Edits -/

namespace Body

variable {c c' : Code} {decoded : List (Nat × Insn)} {pre : List Insn} {xs : List Splice}
  {b : Body} {maxStack : UInt16}

theorem exists_of_mem_ranges {a : Attribute} {r : LocalRange} (h : r ∈ (attributeOfCode a).ranges) :
    ∃ e, r = rangeOfEntry e := by
  obtain ⟨name, content⟩ := a
  cases content with
  | localVariables entries | localVariableTypes entries =>
    obtain ⟨e, -, rfl⟩ := List.mem_map.1 h
    exact ⟨e, rfl⟩
  | _ => cases h

/-- An edit refers to the offsets that its code mentions. -/
theorem EditOf.labels_eq (h : b.EditOf c decoded pre xs) (hpre : ∀ i ∈ pre, i.assigning) :
    b.labels.map (·.id) = c.references decoded := by
  obtain ⟨zs, hzs, hload, -, hafter, -⟩ := h.exists_marked
  have hfront : pre.flatMap Insn.targets = [] :=
    List.flatMap_eq_nil_iff.2 fun i hi => (Insn.wellShaped_of_assigning (hpre i hi)).2.1
  have hdecoded : decoded.flatMap (fun x => x.2.targets) =
      zs.flatMap fun z => z.2.insn.targets := by
    rw [← hzs, List.flatMap_map]
  rw [Code.references_eq, labels, h.insns, hafter, h.handlers, h.attributes, List.flatMap_append,
    hfront, Splice.targets_marked hload, hdecoded]
  rfl

/-- The instructions of an edit, in which the labels are placed that it refers to. -/
theorem EditOf.exists_insns (h : b.EditOf c decoded pre xs) (hpre : ∀ i ∈ pre, i.assigning) :
    ∃ zs, Splice.Fresh c.bytes.length zs ∧
      b.insns = pre ++ Splice.marked (c.references decoded).contains c.bytes.length zs ∧
      (∀ i ∈ b.insns, i.isLabel = true ∨ i.WellShaped) ∧
      (∀ l, .label l ∈ b.insns ↔ l ∈ b.labels) ∧
      ∀ l ∈ b.labels, (l.id ∈ zs.map (·.1) ∨ l.id = c.bytes.length) ∧
        Layout.named b.insns l = ⟨Splice.position (Layout.stop 0 pre) zs l.id⟩ := by
  obtain ⟨zs, hzs, hload, hfresh, hafter, hplace, -⟩ := h.exists_marked
  have hinsns : b.insns =
      pre ++ Splice.marked (c.references decoded).contains c.bytes.length zs := by
    rw [h.insns, hafter]
  have hused (l : Label) : l ∈ b.labels ↔ l.id ∈ c.references decoded := by
    rw [← h.labels_eq hpre, List.mem_map_of_injective]
    exact fun l l' heq => congrArg Label.mk heq
  refine ⟨zs, hfresh, hinsns, ?_, ?_, ?_⟩
  · intro i hi
    rw [hinsns] at hi
    rcases List.mem_append.1 hi with hi | hi
    · exact .inr (Insn.wellShaped_of_assigning (hpre i hi)).1
    · exact (Splice.wellShaped_of_mem_marked h.reads hzs hload hi).1
  · intro l
    have hnot : .label l ∉ pre := fun hl => by
      cases (Insn.wellShaped_of_assigning (hpre _ hl)).2.2
    rw [hinsns, List.mem_append, or_iff_right hnot, Splice.label_mem_marked hfresh, hused,
      List.contains_iff_mem, and_iff_right_of_imp (hplace l.id)]
  · intro l hl
    have ho := (hused l).1 hl
    refine ⟨hplace l.id ho, Layout.named_of_labelOffset? ?_⟩
    rw [hinsns]
    exact Splice.labelOffset?_behind hfresh (List.contains_iff_mem.2 ho) (hplace l.id ho)

/-- The code of an edit can be read back. -/
theorem EditOf.readable (h : b.EditOf c decoded pre xs) (hpre : ∀ i ∈ pre, i.assigning) :
    b.Readable := by
  obtain ⟨zs, hfresh, hinsns, hshaped, hlabel, hnamed⟩ := h.exists_insns hpre
  refine ⟨hshaped, ?_, fun l hl => (hlabel l).2 hl, ?_, ?_⟩
  · have hfront : pre.filterMap Insn.placed? = [] := by
      rw [List.filterMap_eq_nil_iff]
      intro i hi
      exact Insn.placed?_of_not_isLabel (Insn.wellShaped_of_assigning (hpre i hi)).2.2
    rw [hinsns, List.filterMap_append, hfront]
    exact Splice.nodup_placed_marked hfresh
  · -- positions keep the order of the two ends of a range
    intro a ha r hr
    have hmem (l : Label) (hl : l ∈ r.labels) : l ∈ b.labels :=
      List.mem_append_right _ (List.mem_flatMap.2 ⟨a, ha, BodyAttribute.mem_labels hr hl⟩)
    obtain ⟨hstart, hstart'⟩ := hnamed r.start (hmem _ List.mem_cons_self)
    obtain ⟨hstop, hstop'⟩ := hnamed r.stop (hmem _ (List.mem_cons_of_mem _ List.mem_cons_self))
    rw [hstart', hstop']
    refine (Splice.strictMonoOn_position hfresh).monotoneOn hstart hstop ?_
    rw [h.attributes] at ha
    obtain ⟨a', -, rfl⟩ := List.mem_map.1 ha
    obtain ⟨e, rfl⟩ := exists_of_mem_ranges hr
    exact Nat.le_add_right _ _
  · intro content hcontent
    rw [h.attributes] at hcontent
    obtain ⟨a, -, ha⟩ := List.mem_map.1 hcontent
    exact Attribute.not_isTable_of_attributeOfCode ha

/-- Bodies that code is taken apart into can be read back. -/
theorem readable_of_ofCode (h : ofCode c = .ok b) : b.Readable := by
  obtain ⟨decoded, xs, hedit⟩ := exists_editOf_of_ofCode h
  exact hedit.readable fun i hi => (List.not_mem_nil hi).elim

/-- The code of an edit can be taken apart, and gives the edit with other labels. -/
theorem EditOf.renames (h : b.EditOf c decoded pre xs) (hpre : ∀ i ∈ pre, i.assigning)
    (hc : b.toCode maxStack = .ok c') :
    ∃ b' f, ofCode c' = .ok b' ∧ b.Renames f b' := by
  obtain ⟨zs, hfresh, -, -, hlabel, hnamed⟩ := h.exists_insns hpre
  have hb := h.readable hpre
  -- labels are placed at offsets of the old code, which stay apart
  have hinj (l l' : Label) (hl : .label l ∈ b.insns) (hl' : .label l' ∈ b.insns)
      (heq : Layout.named b.insns l = Layout.named b.insns l') : l = l' := by
    obtain ⟨hplace, hat⟩ := hnamed l ((hlabel l).1 hl)
    obtain ⟨hplace', hat'⟩ := hnamed l' ((hlabel l').1 hl')
    rw [hat, hat'] at heq
    have hid := (Splice.strictMonoOn_position hfresh).injOn hplace hplace' (congrArg Label.id heq)
    exact congrArg Label.mk hid
  refine ⟨_, Layout.named b.insns, (hb.describes hc).ofCode, hinj, ?_, rfl⟩
  -- every label that is placed is referred to, and placed once under its new name too
  apply tidy_eq_self
  · intro l hl
    obtain ⟨i, hi, hrelabel⟩ := List.mem_map.1 hl
    obtain ⟨l', rfl⟩ : ∃ l', i = .label l' := by
      cases i <;> first | exact ⟨_, rfl⟩ | cases hrelabel
    cases hrelabel
    rw [hb.labels_relocate hc, List.contains_iff_mem]
    exact List.mem_map_of_mem ((hlabel l').1 hi)
  · have hplaced : (b.insns.map (Insn.relabel (Layout.named b.insns))).filterMap Insn.placed? =
        (b.insns.filterMap Insn.placed?).map (Layout.named b.insns) := by
      rw [List.filterMap_map, List.map_filterMap]
      apply List.filterMap_congr
      intro i _
      exact Insn.placed?_relabel
    show List.Nodup (List.filterMap _ (List.map _ b.insns))
    rw [hplaced]
    refine hb.once.map_on fun l hl l' hl' => ?_
    obtain ⟨i, hi, hp⟩ := List.mem_filterMap.1 hl
    obtain ⟨i', hi', hp'⟩ := List.mem_filterMap.1 hl'
    rw [Insn.placed?_eq_some] at hp hp'
    exact hinj l l' (hp ▸ hi) (hp' ▸ hi')

end Body

end ClassTemplates
