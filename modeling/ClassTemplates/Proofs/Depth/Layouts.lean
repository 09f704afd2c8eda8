import ClassTemplates.Proofs.Depth.Skeletons

/-!
# Depths of bodies that are read back

Reading the code of a body gives other labels: each is named by its offset, and those that nothing
refers to are lost. The instructions between labels stay, and a label still has as many of them in
front of it, because all of them take bytes. So the analysis finds the same depths.

## Main results

- `Layout.length_eq_of_stop_eq` — an offset tells how many instructions are in front of it
- `Layout.Named.ordinal_eq` — labels of one offset have the same instructions in front of them
- `Body.Readable.alike` — a body and what is read back are alike
- `Body.depths_of_toCode` — the analysis of a body that is read back
-/

namespace ClassTemplates

/-! ### Offsets of instructions -/

theorem Insn.relabel_congr {insn : Insn} {f g : Label → Label} (hx : insn.isLabel = false)
    (h : ∀ l ∈ insn.targets, f l = g l) : insn.relabel f = insn.relabel g := by
  cases insn with
  | label l => cases hx
  | jump opcode target => simpa [relabel, targets] using h
  | tableSwitch otherwise low high targets => simpa [relabel, Insn.targets] using h
  | lookupSwitch otherwise pairs =>
    obtain ⟨hotherwise, hpairs⟩ := List.forall_mem_cons.1 h
    have hpairs' : ∀ x ∈ pairs, (x.1, f x.2) = (x.1, g x.2) := fun x hx =>
      congrArg (x.1, ·) (hpairs x.2 (List.mem_map_of_mem hx))
    rw [relabel, relabel, hotherwise, List.map_congr_left hpairs']
  | _ => rfl

theorem Insn.relabel_relabel {insn : Insn} {f g : Label → Label} :
    (insn.relabel f).relabel g = insn.relabel (g ∘ f) := by
  cases insn <;> simp [relabel]

section

variable {insns : List Insn} {f : Label → Label} {i : Nat}

theorem unlabeled_relabel :
    unlabeled (insns.map (Insn.relabel f)) = (unlabeled insns).map (Insn.relabel f) := by
  rw [unlabeled, List.filter_map, unlabeled]
  refine congrArg _ (List.filter_congr fun x _ => ?_)
  rw [Function.comp_apply, Insn.isLabel_relabel]

theorem ordinal_relabel : ordinal (insns.map (Insn.relabel f)) i = ordinal insns i := by
  rw [ordinal, ← List.map_take, unlabeled_relabel, List.length_map, ordinal]

end

namespace Layout

variable {start i : Nat} {insns xs ys zs : List Insn} {used : Label → Bool} {l : Label}

/-- Labels take no bytes. -/
theorem stop_unlabeled : stop start (unlabeled insns) = stop start insns := by
  induction insns generalizing start with
  | nil => rfl
  | cons x rest ih =>
    cases hx : x.isLabel with
    | true =>
      obtain ⟨l, rfl⟩ := Insn.exists_of_isLabel hx
      rw [unlabeled_label hx, ih]
      rfl
    | false => rw [unlabeled_cons hx, stop, stop, ih]

/-- An offset tells how many instructions are in front of it, labels aside. -/
theorem length_eq_of_stop_eq (hx : xs <+: zs) (hy : ys <+: zs)
    (hzs : ∀ z ∈ zs, z.isLabel = false) (h : stop start xs = stop start ys) :
    xs.length = ys.length := by
  -- one of both is the front of the other, and what is left over would take bytes
  have hfront {xs ys : List Insn} (hle : xs <+: ys) (hy : ys <+: zs)
      (h : stop start xs = stop start ys) : xs.length = ys.length := by
    obtain ⟨rest, rfl⟩ := hle
    cases rest with
    | nil => simp
    | cons z rest =>
      have hz : z.isLabel = false := hzs z (hy.subset (by simp))
      have hpos : 0 < z.length (stop start xs) := Insn.length_pos hz
      have hle : stop start xs + z.length (stop start xs) ≤
          stop (stop start xs + z.length (stop start xs)) rest := le_stop
      rw [stop_append, stop] at h
      omega
  rcases List.prefix_or_prefix_of_prefix hx hy with hle | hle
  · exact hfront hle hy h
  · exact (hfront hle hx h.symm).symm

theorem unlabeled_take_prefix : unlabeled (insns.take i) <+: unlabeled insns :=
  (List.take_prefix i insns).filter _

/-- A label is named by the offset behind the instructions in front of it. -/
theorem Named.id_eq (h : Named start insns) (hi : insns[i]? = some (.label l)) :
    l.id = stop start (insns.take i) := by
  induction h generalizing i with
  | nil => cases hi
  | @label start rest _ ih =>
    cases i with
    | zero =>
      cases hi
      rfl
    | succ i => exact ih hi
  | @insn start x rest hx _ ih =>
    cases i with
    | zero =>
      cases hi
      cases hx
    | succ i => exact ih hi

theorem Named.tidy (h : Named start insns) : Named start (tidy used insns) := by
  induction h with
  | nil => exact .nil
  | label _ ih =>
    rw [ClassTemplates.tidy]
    split
    · exact .label ih
    · exact ih
  | insn hx _ ih =>
    rw [tidy_cons_of_not_isLabel hx]
    exact .insn hx ih

/-- Labels of one name have as many instructions in front of them where these are the same. -/
theorem Named.ordinal_eq {insns' : List Insn} {j : Nat} (h : Named start insns)
    (h' : Named start insns') (hsame : unlabeled insns = unlabeled insns')
    (hi : insns[i]? = some (.label l)) (hj : insns'[j]? = some (.label l)) :
    ordinal insns i = ordinal insns' j := by
  have hstop : stop start (unlabeled (insns.take i)) = stop start (unlabeled (insns'.take j)) := by
    rw [stop_unlabeled, stop_unlabeled, ← h.id_eq hi, ← h'.id_eq hj]
  refine length_eq_of_stop_eq unlabeled_take_prefix (hsame ▸ unlabeled_take_prefix)
    (fun z hz => ?_) hstop
  simpa using (List.mem_filter.1 hz).2

end Layout

/-! ### Bodies -/

namespace Body

variable {b : Body} {c : Code} {maxStack : UInt16} {l : Label}

theorem leads_subset : b.leads ⊆ b.labels := by
  intro l hl
  refine List.mem_append_left _ ?_
  rcases List.mem_append.1 hl with hl | hl
  · exact List.mem_append_left _ hl
  · obtain ⟨h, hh, rfl⟩ := List.mem_map.1 hl
    exact List.mem_append_right _ (List.mem_flatMap.2 ⟨h, hh, by simp [Handler.labels]⟩)

theorem bound_of_mem (h : .label l ∈ b.insns) : b.Bound l :=
  Option.ne_none_iff_exists'.1 (lastPlace?_ne_none h)

variable {f : Label → Label}

theorem unlabeled_relocate_tidy :
    unlabeled (b.relocate f).tidy.insns = (unlabeled b.insns).map (Insn.relabel f) :=
  filter_tidy.trans unlabeled_relabel

theorem leads_relocate_tidy : ∀ l' ∈ (b.relocate f).tidy.leads, ∃ l ∈ b.leads, l' = f l := by
  intro l' hl'
  rcases List.mem_append.1 hl' with hl' | hl'
  · -- labels lead nowhere
    obtain ⟨insn, hinsn, htarget⟩ := List.mem_flatMap.1 hl'
    have hx : insn.isLabel = false := by
      cases insn <;> first | rfl | cases htarget
    have hmem : insn ∈ unlabeled (b.relocate f).tidy.insns :=
      List.mem_filter.2 ⟨hinsn, by simp [hx]⟩
    rw [unlabeled_relocate_tidy] at hmem
    obtain ⟨insn', hinsn', rfl⟩ := List.mem_map.1 hmem
    rw [Insn.targets_relabel] at htarget
    obtain ⟨l, hl, rfl⟩ := List.mem_map.1 htarget
    exact ⟨l, List.mem_append_left _
      (List.mem_flatMap.2 ⟨insn', (List.mem_filter.1 hinsn').1, hl⟩), rfl⟩
  · obtain ⟨h', hh', rfl⟩ := List.mem_map.1 hl'
    obtain ⟨h, hh, rfl⟩ := List.mem_map.1 hh'
    exact ⟨h.target, List.mem_append_right _ (List.mem_map_of_mem hh), rfl⟩

/-- A body and what is read back of its code have the same instructions and branches. -/
theorem Readable.alike (hb : b.Readable) (h : b.toCode maxStack = .ok c) :
    b.Alike (b.relocate (Layout.named b.insns)).tidy := by
  have hnamed := (hb.describes h).named
  have hplaced : ∀ l ∈ b.leads, .label l ∈ b.insns := fun l hl => hb.placed l (leads_subset hl)
  -- a label that leads somewhere is kept, under the name of its offset
  have hkept : ∀ l ∈ b.leads, .label (Layout.named b.insns l) ∈
      (b.relocate (Layout.named b.insns)).tidy.insns := by
    intro l hl
    refine label_mem_tidy.2 ⟨?_, List.mem_map.2 ⟨_, hplaced l hl, rfl⟩⟩
    rw [hb.labels_relocate h]
    exact List.contains_iff_mem.2 (List.mem_map_of_mem (leads_subset hl))
  have hnumbered : ∀ l ∈ b.leads, b.numbered l =
      (b.relocate (Layout.named b.insns)).tidy.numbered (Layout.named b.insns l) := by
    intro l hl
    obtain ⟨i, hi⟩ := bound_of_mem (hplaced l hl)
    obtain ⟨j, hj⟩ := bound_of_mem (hkept l hl)
    have hi' : (b.relocate (Layout.named b.insns)).insns[i]? =
        some (.label (Layout.named b.insns l)) := by
      rw [relocate, List.getElem?_map, getElem?_of_lastPlace? hi]
      rfl
    have hordinal := hnamed.ordinal_eq hnamed.tidy filter_tidy.symm hi' (getElem?_of_lastPlace? hj)
    rw [relocate, ordinal_relabel] at hordinal
    rw [numbered, numbered, hi, hj, Option.map_some, Option.map_some, hordinal]
    rfl
  refine ⟨?_, ?_, fun l hl => bound_of_mem (hplaced l hl), fun l' hl' => ?_⟩
  · rw [unlabeled_relocate_tidy, List.map_map]
    refine List.map_congr_left fun insn hinsn => ?_
    obtain ⟨hmem, hx⟩ := List.mem_filter.1 hinsn
    rw [Function.comp_apply, Insn.relabel_relabel]
    refine Insn.relabel_congr (by simpa using hx) fun l hl => hnumbered l ?_
    exact List.mem_append_left _ (List.mem_flatMap.2 ⟨insn, hmem, hl⟩)
  · rw [Body.tidy, relocate, List.map_map]
    exact List.map_congr_left fun g hg =>
      hnumbered g.target (List.mem_append_right _ (List.mem_map_of_mem hg))
  · obtain ⟨l, hl, rfl⟩ := leads_relocate_tidy l' hl'
    exact bound_of_mem (hkept l hl)

theorem exists_analyze_iff {pool : Pool} :
    (∃ summary, b.analyze pool = .ok summary) ↔ ∃ out, b.depths pool = .ok out := by
  constructor
  · rintro ⟨summary, h⟩
    obtain ⟨out, hout, -⟩ := map_eq_ok.1 h
    exact ⟨out, hout⟩
  · rintro ⟨out, hout⟩
    exact ⟨out.1, map_eq_ok.2 ⟨out, hout, rfl⟩⟩

/-- A body of the form that reading code gives, with labels that are placed once and ranges that are
not reversed, can be analysed exactly if what is read back of its code can. Both have the same
instructions between labels, the largest depths are the same, and so is the depth in front of each
of these instructions, if control reaches it. -/
theorem depths_of_toCode (hb : b.Readable) (h : b.toCode maxStack = .ok c) (pool : Pool) :
    ∃ b', ofCode c = .ok b' ∧
      unlabeled b'.insns = (unlabeled b.insns).map (Insn.relabel (Layout.named b.insns)) ∧
      ((∃ summary, b.analyze pool = .ok summary) ↔ ∃ summary, b'.analyze pool = .ok summary) ∧
      ∀ summary known summary' known', b.depths pool = .ok (summary, known) →
        b'.depths pool = .ok (summary', known') →
        summary.maxDepth = summary'.maxDepth ∧
          depthsOf b.insns known = depthsOf b'.insns known' := by
  obtain ⟨hsome, hsame⟩ := (hb.alike h).depths pool
  refine ⟨_, ofCode_of_toCode hb h, unlabeled_relocate_tidy, ?_, hsame⟩
  rw [exists_analyze_iff, exists_analyze_iff]
  exact hsome

/-- A loop with two labels at one offset in front of it, and code behind it that is not reached. -/
def loopingBody : Body where
  maxStack := 1
  maxLocals := 0
  insns := [.label ⟨10⟩, .label ⟨11⟩, .op 0x03, .op 0x57, .jump Opcode.goto ⟨11⟩, .label ⟨12⟩,
    .op 0xb1]
  handlers := []
  attributes := [.lineNumbers 3 [⟨⟨10⟩, 7⟩]]
  nextLabel := 13

theorem readable_loopingBody : loopingBody.Readable where
  shaped := by
    simp only [loopingBody, List.forall_mem_cons]
    exact ⟨.inl rfl, .inl rfl, .inr rfl, .inr rfl, .inr rfl, .inl rfl, .inr rfl,
      fun _ h => nomatch h⟩
  once := by decide
  placed := by decide
  forward := by simp [loopingBody, BodyAttribute.ranges]
  carried := by simp [loopingBody]

/-- There is one slot on the stack behind the load, and none elsewhere. -/
theorem flows_loopingBody (pool : Pool) :
    loopingBody.Flows pool 1 fun i d => i < 5 ∧ d = if i = 3 then 1 else 0 := by
  refine ⟨⟨?_, ?_⟩, ⟨by decide, rfl⟩, fun h hh => (List.not_mem_nil hh).elim⟩
  · rintro i d d' ⟨-, rfl⟩ ⟨-, rfl⟩
    rfl
  · have hplace : Depth.place loopingBody.placements ⟨11⟩ = .ok 1 := by
      rw [Depth.place_eq_some, Body.getElem?_placements]
      decide +kernel
    rintro i d ⟨hi, rfl⟩
    match i, hi with
    | 0, _ => exact ⟨.label ⟨10⟩, 0, [⟨1, 0⟩], rfl, rfl, by decide, by simp⟩
    | 1, _ => exact ⟨.label ⟨11⟩, 0, [⟨2, 0⟩], rfl, rfl, by decide, by simp⟩
    | 2, _ => exact ⟨.op 0x03, 1, [⟨3, 1⟩], rfl, rfl, by decide, by simp⟩
    | 3, _ => exact ⟨.op 0x57, 1, [⟨4, 0⟩], rfl, rfl, by decide, by simp⟩
    | 4, _ =>
      refine ⟨.jump Opcode.goto ⟨11⟩, 0, [⟨1, 0⟩], rfl, ?_, by decide, by simp⟩
      simp only [Depth.step, Depth.successors, hplace]
      rfl

theorem depths_of_toCode_loop :
    ∃ c b' summary known summary' known', loopingBody.Readable ∧
      loopingBody.toCode 1 = .ok c ∧ ofCode c = .ok b' ∧
      b'.insns = [.label ⟨0⟩, .op 0x03, .op 0x57, .jump Opcode.goto ⟨0⟩, .op 0xb1] ∧
      loopingBody.depths ⟨#[]⟩ = .ok (summary, known) ∧
      b'.depths ⟨#[]⟩ = .ok (summary', known') ∧ summary.maxDepth = summary'.maxDepth ∧
      depthsOf loopingBody.insns known = depthsOf b'.insns known' := by
  have hlayout : (loopingBody.toCode 1).isOk = true := by
    rw [Layout.toCode_eq]
    decide +kernel
  obtain ⟨c, hc⟩ := exists_of_isOk hlayout
  obtain ⟨b', hb', -, hiff, hsame⟩ := depths_of_toCode readable_loopingBody hc ⟨#[]⟩
  have hread := ofCode_of_toCode readable_loopingBody hc
  obtain ⟨summary₀, hsummary, -⟩ := analyze_eq_ok.2 ⟨_, flows_loopingBody ⟨#[]⟩⟩
  obtain ⟨⟨summary, known⟩, hdepths⟩ := exists_analyze_iff.1 ⟨_, hsummary⟩
  obtain ⟨⟨summary', known'⟩, hdepths'⟩ := exists_analyze_iff.1 (hiff.1 ⟨_, hsummary⟩)
  obtain ⟨hmax, hknown⟩ := hsame _ _ _ _ hdepths hdepths'
  refine ⟨c, b', _, _, _, _, readable_loopingBody, hc, hb', ?_, hdepths, hdepths', hmax, hknown⟩
  rw [hread] at hb'
  cases hb'
  rfl

end Body

end ClassTemplates
