import ClassTemplates.Proofs.Body.Labels

/-!
# Labels named by their offsets

Labels that are not needed can be left out of a body. Naming each label by the offset where it lies
is what reading the code would do, and reading leaves out the labels that are not needed.

## Main definitions

- `tidy`, `Body.tidy` — without labels that nothing refers to, or that are placed twice in a row
- `Layout.Named` — instructions with each label named by its offset
- `Layout.named` — the label numbered by the offset of a label

## Main results

- `filter_tidy`, `label_mem_tidy`, `tidy_eq_self` — what is left out, and where nothing is
- `Layout.Named.placeLabels_located` — instructions that are read have labels where tidy ones do
- `Layout.named_relabel`, `resolves_named` — the names by offsets, and that the layout has them
-/

namespace ClassTemplates

/-! ### Labels that are needed -/

/-- The instructions without labels that are not used, and without a label that is placed again
right behind. -/
def tidy (used : Label → Bool) : List Insn → List Insn
  | [] => []
  | .label l :: rest =>
    if used l ∧ rest.head? ≠ some (.label l) then .label l :: tidy used rest else tidy used rest
  | i :: rest => i :: tidy used rest

/-- The body without labels that nothing refers to, and without labels that are placed again right
behind. -/
def Body.tidy (b : Body) : Body :=
  { b with insns := ClassTemplates.tidy b.labels.contains b.insns }

section

variable {used : Label → Bool} {i : Insn} {l : Label} {insns : List Insn}

theorem tidy_cons_of_not_isLabel (h : i.isLabel = false) :
    tidy used (i :: insns) = i :: tidy used insns := by
  cases i <;> first | rfl | cases h

/-- A label goes if it is not used, or is placed again. -/
theorem tidy_cons_label (h : used l = true → insns.head? = some (.label l)) :
    tidy used (.label l :: insns) = tidy used insns := by
  rw [tidy, if_neg]
  rintro ⟨hu, hne⟩
  exact hne (h hu)

/-- Nothing is left out where every label is used and placed once. -/
theorem tidy_eq_self (hused : ∀ l, .label l ∈ insns → used l = true)
    (honce : (insns.filterMap Insn.placed?).Nodup) : tidy used insns = insns := by
  induction insns with
  | nil => rfl
  | cons i insns ih =>
    have hih (h : (insns.filterMap Insn.placed?).Nodup) : tidy used insns = insns :=
      ih (fun l hl => hused l (List.mem_cons_of_mem _ hl)) h
    obtain ⟨l, rfl⟩ | hi := i.label_or_not
    · rw [List.filterMap_cons] at honce
      obtain ⟨hnot, honce⟩ := List.nodup_cons.1 honce
      have hhead : insns.head? ≠ some (.label l) := fun h =>
        hnot (List.mem_filterMap.2 ⟨_, List.mem_of_mem_head? h, rfl⟩)
      rw [tidy, if_pos ⟨hused l List.mem_cons_self, hhead⟩, hih honce]
    · rw [List.filterMap_cons_none (Insn.placed?_of_not_isLabel hi)] at honce
      rw [tidy_cons_of_not_isLabel hi, hih honce]

/-- Only labels are left out. -/
theorem filter_tidy :
    (tidy used insns).filter (fun i => !i.isLabel) = insns.filter fun i => !i.isLabel := by
  induction insns with
  | nil => rfl
  | cons i insns ih =>
    obtain ⟨l, rfl⟩ | hi := i.label_or_not
    · have hlabel : (Insn.label l).isLabel = true := rfl
      rw [tidy]
      split <;> simpa [hlabel] using ih
    · rw [tidy_cons_of_not_isLabel hi, List.filter_cons, List.filter_cons, ih]

/-- The labels that stay are those that are used. -/
theorem label_mem_tidy :
    .label l ∈ tidy used insns ↔ used l = true ∧ .label l ∈ insns := by
  induction insns with
  | nil => simp [tidy]
  | cons i insns ih =>
    obtain ⟨l', rfl⟩ | hi := i.label_or_not
    · rw [tidy]
      split
      · rename_i h
        rw [List.mem_cons, ih, List.mem_cons]
        constructor
        · rintro (hl | ⟨hu, hl⟩)
          · cases hl
            exact ⟨h.1, .inl rfl⟩
          · exact ⟨hu, .inr hl⟩
        · rintro ⟨hu, hl | hl⟩
          · exact .inl hl
          · exact .inr ⟨hu, hl⟩
      · rename_i h
        rw [ih, List.mem_cons]
        refine and_congr_right fun hu => ⟨.inr, ?_⟩
        rintro (hl | hl)
        · -- the label that goes is placed again right behind
          cases hl
          have hhead : insns.head? = some (.label l) := by
            by_contra hne
            exact h ⟨hu, hne⟩
          exact List.mem_of_mem_head? hhead
        · exact hl
    · have hne : Insn.label l ≠ i := by
        rintro rfl
        cases hi
      rw [tidy_cons_of_not_isLabel hi, List.mem_cons, ih, List.mem_cons]
      simp [hne]

end

/-! ### Names by offsets -/

namespace Layout

/-- Instructions that start at an offset, with each label named by the offset where it is placed. -/
inductive Named : Nat → List Insn → Prop
  | nil {start : Nat} : Named start []
  | label {start : Nat} {rest : List Insn} :
      Named start rest → Named start (.label ⟨start⟩ :: rest)
  | insn {start : Nat} {i : Insn} {rest : List Insn} :
      i.isLabel = false → Named (start + i.length start) rest → Named start (i :: rest)

/-- The label numbered by the offset where instructions place a label. -/
def named (insns : List Insn) (l : Label) : Label :=
  ⟨(labelOffset? 0 insns l).getD 0⟩

variable {used : Label → Bool} {start : Nat} {insns : List Insn} {l : Label}

theorem Named.le_of_mem (h : Named start insns) (hl : .label l ∈ insns) : start ≤ l.id := by
  induction h with
  | nil => cases hl
  | label _ ih =>
    rcases List.mem_cons.1 hl with heq | hl
    · cases heq
      exact le_refl _
    · exact ih hl
  | insn hi _ ih =>
    rcases List.mem_cons.1 hl with rfl | hl
    · cases hi
    · exact Nat.le_trans (Nat.le_add_right _ _) (ih hl)

/-- A label of the first offset is placed in front of all instructions. -/
theorem Named.head?_of_mem (h : Named start insns) (hl : .label ⟨start⟩ ∈ insns) :
    insns.head? = some (.label ⟨start⟩) := by
  cases h with
  | nil => cases hl
  | label _ => rfl
  | @insn _ i rest hi hrest =>
    exfalso
    rcases List.mem_cons.1 hl with rfl | hl
    · cases hi
    · have hle : start + i.length start ≤ start := hrest.le_of_mem hl
      have hpos : 0 < i.length start := Insn.length_pos hi
      omega

/-- Where labels are named by their offsets and every used one is placed, reading the instructions
and placing the used labels gives the tidy instructions. -/
theorem Named.placeLabels_located (h : Named start insns)
    (hu : ∀ o, start < o → used ⟨o⟩ = true → .label ⟨o⟩ ∈ insns) :
    Body.placeLabels (fun o => used ⟨o⟩) (located start insns) (stop start insns) =
      tidy used (.label ⟨start⟩ :: insns) := by
  induction h with
  | @nil start =>
    show Splice.mark (fun o => used ⟨o⟩) start = _
    by_cases hs : used ⟨start⟩ = true <;> simp [Splice.mark, tidy, hs]
  | @label start rest hrest ih =>
    -- the label is at the first offset, in front of which one is assumed already
    have hih := ih fun o ho hused => by
      refine (List.mem_cons.1 (hu o ho hused)).resolve_left ?_
      intro heq
      cases heq
      exact Nat.lt_irrefl _ ho
    rw [tidy_cons_label fun _ => rfl, ← hih]
    rfl
  | @insn start i rest hi hrest ih =>
    have hpos : 0 < i.length start := Insn.length_pos hi
    have hmem (o : Nat) (ho : start < o) (hused : used ⟨o⟩ = true) : .label ⟨o⟩ ∈ rest := by
      refine (List.mem_cons.1 (hu o ho hused)).resolve_left ?_
      rintro rfl
      cases hi
    have hih := ih fun o ho hused => hmem o (by omega) hused
    rw [tidy_cons_label fun hused => hrest.head?_of_mem (hmem _ (by omega) hused)] at hih
    have hne : i ≠ .label ⟨start⟩ := by
      rintro rfl
      cases hi
    rw [located_cons hi, Splice.placeLabels_cons, stop, hih]
    by_cases hs : used ⟨start⟩ = true <;>
      simp [Splice.mark, tidy, tidy_cons_of_not_isLabel hi, hs, hne]

/-- An instruction is read at the first offset, or none is. -/
theorem start_mem_located : start ∈ (located start insns).map (·.1) ∨ start = stop start insns := by
  induction insns with
  | nil => exact .inr rfl
  | cons i rest ih =>
    obtain ⟨l, rfl⟩ | hi := i.label_or_not
    · exact ih
    · rw [located_cons hi]
      exact .inl List.mem_cons_self

/-- A label stands in front of an instruction that is read, or at the end. -/
theorem Named.mem_located (h : Named start insns) (hl : .label l ∈ insns) :
    l.id ∈ (located start insns).map (·.1) ∨ l.id = stop start insns := by
  induction h with
  | nil => cases hl
  | @label start rest _ ih =>
    rcases List.mem_cons.1 hl with heq | hl
    · cases heq
      exact start_mem_located
    · exact ih hl
  | @insn start i rest hi _ ih =>
    rcases List.mem_cons.1 hl with rfl | hl
    · cases hi
    · rw [located_cons hi]
      exact (ih hl).imp_left (List.mem_cons_of_mem _)

/-- A label that is placed once has its offset there. -/
theorem labelOffset?_of_once {xs ys : List Insn}
    (h : ((xs ++ .label l :: ys).filterMap Insn.placed?).Nodup) :
    labelOffset? 0 (xs ++ .label l :: ys) l = some (stop 0 xs) := by
  have hnone : labelOffset? (stop 0 xs) ys l = none := by
    apply labelOffset?_eq_none_iff.2
    intro i hi hp
    rw [List.filterMap_append, List.nodup_append, List.filterMap_cons] at h
    have hnot := (List.nodup_cons.1 h.2.1).1
    exact hnot (List.mem_filterMap.2 ⟨i, hi, hp⟩)
  have hself : labelOffset? (stop 0 xs) (.label l :: ys) l = some (stop 0 xs) := by
    show (labelOffset? (stop 0 xs) ys l).or _ = _
    rw [hnone]
    simp [Insn.placed?]
  rw [labelOffset?_append, hself]
  rfl

theorem named_of_labelOffset? {offset : Nat} (h : labelOffset? 0 insns l = some offset) :
    named insns l = ⟨offset⟩ := by
  rw [named, h]
  rfl

/-- Instructions have names by offsets if each label gets the offset where it is placed. -/
theorem named_map_relabel {f : Label → Label}
    (h : ∀ xs l ys, insns = xs ++ .label l :: ys → f l = ⟨stop start xs⟩) :
    Named start (insns.map (Insn.relabel f)) := by
  induction insns generalizing start with
  | nil => exact .nil
  | cons i rest ih =>
    have hrest : Named (start + i.length start) (rest.map (Insn.relabel f)) := by
      apply ih
      intro xs l ys heq
      exact h (i :: xs) l ys (congrArg (i :: ·) heq)
    obtain ⟨l, rfl⟩ | hi := i.label_or_not
    · show Named start (.label (f l) :: _)
      rw [h [] l rest rfl]
      exact .label hrest
    · refine .insn (Insn.isLabel_relabel.trans hi) ?_
      rw [Insn.length_relabel]
      exact hrest

/-- The labels that are numbered by their offsets name these. -/
theorem named_relabel (h : (insns.filterMap Insn.placed?).Nodup) :
    Named 0 (insns.map (Insn.relabel (named insns))) := by
  apply named_map_relabel
  rintro xs l ys heq
  apply named_of_labelOffset?
  subst heq
  exact labelOffset?_of_once h

/-- The layout has the offset of a label that is placed once, and it fits a word. -/
theorem resolves_named (h : (insns.filterMap Insn.placed?).Nodup) (hlen : stop 0 insns ≤ 65535)
    (hl : .label l ∈ insns) : Insn.Resolves (placeIn insns) (named insns) l := by
  obtain ⟨xs, ys, rfl⟩ := List.append_of_mem hl
  have hoffset := labelOffset?_of_once h
  have hle : stop 0 xs ≤ stop 0 (xs ++ .label l :: ys) := by
    rw [stop_append]
    exact le_stop
  rw [Insn.Resolves, named_of_labelOffset? hoffset]
  exact ⟨placeIn_of_labelOffset? hoffset, Nat.le_trans hle hlen⟩

end Layout

end ClassTemplates
