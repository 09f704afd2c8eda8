import ClassTemplates.Body.OfCode
import ClassTemplates.Proofs.Body.Layout
import ClassTemplates.Proofs.Body.Placements

/-!
# Bodies that were made from code

The instructions of a body made from code are those that the code reads as, with a label in front of
each that is referred to. Splices in such a body leave the labels alone, so they are splices in the
instructions of the code, and each of these moves as a whole.

## Main definitions

- `Splice.marked` — the instructions of spliced code, with labels at the old offsets
- `Splice.position` — where what stood at an offset stands now

## Main results

- `Body.ofCode_eq_ok` — the body of a code attribute
- `Splice.exists_marked` — splices in a body as splices in its code
- `Splice.labelOffset?_marked` — the layout finds each label where its offset went to
- `Splice.position_lt_position` — offsets stay in order
-/

namespace ClassTemplates

/-! ### Bodies -/

/-- The offset is that of an instruction, or the end. -/
def Code.IsPlace (c : Code) (decoded : List (Nat × Insn)) (offset : Nat) : Prop :=
  offset ∈ decoded.map (·.1) ∨ offset = c.bytes.length

/-- The body of code whose offsets are all places. -/
def Body.decodedAs (c : Code) (decoded : List (Nat × Insn)) : Body where
  maxStack := c.maxStack
  maxLocals := c.maxLocals
  insns := Body.placeLabels (c.references decoded).contains decoded c.bytes.length
  handlers := c.handlers.map Body.handlerOfCode
  attributes := c.attributes.map Body.attributeOfCode
  nextLabel := c.bytes.length + 1

theorem Body.ofCode_eq_ok {c : Code} {b : Body} :
    Body.ofCode c = .ok b ↔ ∃ decoded, Insn.Reads (.start c.bytes) decoded ∧
      (∀ o ∈ c.references decoded, c.IsPlace decoded o) ∧ b = Body.decodedAs c decoded := by
  have hused (references : List Nat) :
      (Std.HashSet.ofList references).contains = references.contains := by
    funext o
    rw [Std.HashSet.contains_ofList]
  have hplace (decoded : List (Nat × Insn)) (o : Nat) :
      ((Std.HashSet.ofList (decoded.map (·.1))).insert c.bytes.length).contains o = true ↔
        c.IsPlace decoded o := by
    rw [Std.HashSet.contains_insert, Std.HashSet.contains_ofList, Bool.or_eq_true, beq_iff_eq,
      List.contains_iff_mem, or_comm, eq_comm (a := c.bytes.length)]
    rfl
  unfold Body.ofCode
  rw [bind_eq_ok]
  constructor
  · rintro ⟨decoded, hd, h⟩
    refine ⟨decoded, Insn.decode_eq_ok.1 hd, ?_⟩
    simp only at h
    split at h
    · cases h
    · rename_i hfind
      cases h
      refine ⟨fun o ho => ?_, by rw [hused]; rfl⟩
      have hin := List.find?_eq_none.1 hfind o ho
      rw [Bool.not_eq_true', Bool.not_eq_false] at hin
      exact (hplace decoded o).1 hin
  · rintro ⟨decoded, hd, href, rfl⟩
    refine ⟨decoded, Insn.decode_eq_ok.2 hd, ?_⟩
    have hfind : (c.references decoded).find? (fun offset =>
        !((Std.HashSet.ofList (decoded.map (·.1))).insert c.bytes.length).contains offset) =
          none := by
      rw [List.find?_eq_none]
      intro o ho
      rw [(hplace decoded o).2 (href o ho)]
      decide
    simp only [hfind, hused]
    rfl

/-! ### Instructions -/

theorem Insn.length_pos {i : Insn} {position : Nat} (h : i.isLabel = false) :
    0 < i.length position := by
  cases i with
  | label l => cases h
  | ldc | localVar | iinc | jump =>
    simp only [Insn.length]
    split <;> decide
  | tableSwitch | lookupSwitch =>
    simp only [Insn.length]
    omega
  | _ => exact Nat.succ_pos _

theorem Insn.WellShaped.not_isLabel {i : Insn} (h : i.WellShaped) : i.isLabel = false := by
  cases i <;> first | rfl | cases h

/-- The instructions of expansions are well-shaped, and none takes a branch. -/
theorem Insn.wellShaped_of_emitted {i : Insn} (h : i.emitted) :
    i.WellShaped ∧ i.targets = [] := by
  cases i with
  | ldc index => exact ⟨trivial, rfl⟩
  | op opcode =>
    obtain rfl : opcode = Opcode.dup := eq_of_beq h
    exact ⟨rfl, rfl⟩
  | type opcode index =>
    obtain rfl : opcode = Opcode.newObject := eq_of_beq h
    exact ⟨rfl, rfl⟩
  | invoke opcode index =>
    have hcases : (opcode = Opcode.invokespecial ∨ opcode = Opcode.invokevirtual) ∨
        opcode = Opcode.invokestatic := by
      simpa [Insn.emitted] using h
    rcases hcases with (rfl | rfl) | rfl <;> exact ⟨rfl, rfl⟩
  | _ => cases h

namespace Splice

/-! ### Splices in code -/

/-- The label of an offset, if that is used. -/
def mark (used : Nat → Bool) (offset : Nat) : List Insn :=
  if used offset then [.label ⟨offset⟩] else []

/-- What stands in the place of instructions with offsets, with labels at those that are used. -/
def marked (used : Nat → Bool) (stop : Nat) : List (Nat × Splice) → List Insn
  | [] => mark used stop
  | (offset, x) :: zs => mark used offset ++ (x.result ++ marked used stop zs)

/-- Where the code for what stood at an offset starts, if all of it starts at `start`; the end, for
an offset where nothing stood. -/
def position (start : Nat) : List (Nat × Splice) → Nat → Nat
  | [], _ => start
  | (offset, x) :: zs, o => if o = offset then start else position (Layout.stop start x.result) zs o

/-- The code in place of instructions with offsets. -/
abbrev afterAll (zs : List (Nat × Splice)) : List Insn :=
  after (zs.map (·.2))

@[simp] theorem afterAll_cons {z : Nat × Splice} {zs : List (Nat × Splice)} :
    afterAll (z :: zs) = z.2.result ++ afterAll zs := rfl

/-- The offsets increase and lie in front of `stop`, no label stands in the place of an instruction,
and every instruction has something in its place. -/
structure Fresh (stop : Nat) (zs : List (Nat × Splice)) : Prop where
  sorted : (zs.map (·.1)).Pairwise (· < ·)
  bounded : ∀ z ∈ zs, z.1 < stop
  filled : ∀ z ∈ zs, z.2.result ≠ []
  unlabelled : ∀ z ∈ zs, ∀ i ∈ z.2.result, i.isLabel = false

variable {used : Nat → Bool} {start stop o o' : Nat} {z : Nat × Splice} {zs : List (Nat × Splice)}

theorem Fresh.tail (h : Fresh stop (z :: zs)) : Fresh stop zs where
  sorted := (List.pairwise_cons.1 h.sorted).2
  bounded := fun y hy => h.bounded y (List.mem_cons_of_mem _ hy)
  filled := fun y hy => h.filled y (List.mem_cons_of_mem _ hy)
  unlabelled := fun y hy => h.unlabelled y (List.mem_cons_of_mem _ hy)

theorem Fresh.head_lt (h : Fresh stop (z :: zs)) (ho : o ∈ zs.map (·.1) ∨ o = stop) : z.1 < o := by
  rcases ho with ho | rfl
  · exact (List.pairwise_cons.1 h.sorted).1 o ho
  · exact h.bounded z List.mem_cons_self

theorem Fresh.lt_stop (h : Fresh stop (z :: zs)) : start < Layout.stop start z.2.result := by
  have hne := h.filled z List.mem_cons_self
  have hno := h.unlabelled z List.mem_cons_self
  cases hr : z.2.result with
  | nil => exact absurd hr hne
  | cons i rest =>
    rw [hr] at hno
    have hpos : 0 < i.length start := Insn.length_pos (hno i List.mem_cons_self)
    exact Nat.lt_of_lt_of_le (Nat.lt_add_of_pos_right hpos) Layout.le_stop

theorem mem_mark {i : Insn} : i ∈ mark used o ↔ used o = true ∧ i = .label ⟨o⟩ := by
  unfold mark
  split <;> simp [*]

theorem placeLabels_cons {i : Insn} {decoded : List (Nat × Insn)} :
    Body.placeLabels used ((o, i) :: decoded) stop =
      mark used o ++ i :: Body.placeLabels used decoded stop := by
  by_cases hu : used o = true <;> simp [Body.placeLabels, mark, hu]

/-- The instructions of a body made from code are labels, and those that the code reads as. -/
theorem mem_placeLabels {decoded : List (Nat × Insn)} {i : Insn}
    (h : i ∈ Body.placeLabels used decoded stop) :
    i.isLabel = true ∨ ∃ x ∈ decoded, x.2 = i := by
  have hlabel {o : Nat} (h : i ∈ mark used o) : i.isLabel = true := by
    rw [(mem_mark.1 h).2]
    rfl
  induction decoded with
  | nil => exact .inl (hlabel h)
  | cons x decoded ih =>
    obtain ⟨o, insn⟩ := x
    rw [placeLabels_cons] at h
    rcases List.mem_append.1 h with h | h
    · exact .inl (hlabel h)
    · rcases List.mem_cons.1 h with rfl | h
      · exact .inr ⟨(o, i), List.mem_cons_self, rfl⟩
      · obtain hl | ⟨x, hx, hi⟩ := ih h
        · exact .inl hl
        · exact .inr ⟨x, List.mem_cons_of_mem _ hx, hi⟩

/-- A label is not replaced. -/
theorem code_of_before_eq_mark {ms : List Splice} (h : before ms = mark used o)
    (hms : OfLoads ms) : ∀ x ∈ ms, x.code = none := by
  intro x hx
  have hmem : x.insn ∈ before ms := List.mem_map_of_mem hx
  rw [h, mem_mark] at hmem
  cases hc : x.code with
  | none => rfl
  | some code =>
    obtain ⟨⟨i, hi⟩, -⟩ := hms x hx code hc
    rw [hi] at hmem
    cases hmem.2

/-- Labels stay as they are. -/
theorem after_of_before_eq_mark {ms : List Splice} (h : before ms = mark used o)
    (hms : OfLoads ms) : after ms = mark used o := by
  have hkept := code_of_before_eq_mark h hms
  rw [← h]
  clear h hms
  induction ms with
  | nil => rfl
  | cons x ms ih =>
    obtain ⟨hx, hms⟩ := List.forall_mem_cons.1 hkept
    rw [after_cons, before_cons, result_of_none hx, ih hms]
    rfl

/-- Splices in a body made from code are splices in the instructions of that code. -/
theorem exists_marked {decoded : List (Nat × Insn)} {xs : List Splice}
    (h : before xs = Body.placeLabels used decoded stop) (hxs : OfLoads xs) :
    ∃ zs : List (Nat × Splice), zs.map (fun z => (z.1, z.2.insn)) = decoded ∧
      OfLoads (zs.map (·.2)) ∧ after xs = marked used stop zs ∧
      replaced (zs.map (·.2)) = replaced xs := by
  have hlabels {ms : List Splice} {o : Nat} (h : before ms = mark used o) (hms : OfLoads ms) :
      replaced ms = [] :=
    replaced_eq_nil.2 (code_of_before_eq_mark h hms)
  induction decoded generalizing xs with
  | nil =>
    refine ⟨[], rfl, fun x hx => (List.not_mem_nil hx).elim, ?_, ?_⟩
    · exact after_of_before_eq_mark h hxs
    · exact (hlabels h hxs).symm
  | cons d decoded ih =>
    obtain ⟨offset, i⟩ := d
    rw [placeLabels_cons, before, List.map_eq_append_iff] at h
    obtain ⟨ms, ws, rfl, hms, hws⟩ := h
    obtain ⟨x, ws, rfl, rfl, hrest⟩ := List.map_eq_cons_iff.1 hws
    have hof : OfLoads ms ∧ OfLoads [x] ∧ OfLoads ws :=
      ⟨fun y hy => hxs y (by simp [hy]), fun y hy => hxs y (by simp_all),
        fun y hy => hxs y (by simp [hy])⟩
    obtain ⟨zs, hzs, hload, hafter, hreplaced⟩ := ih hrest hof.2.2
    refine ⟨(offset, x) :: zs, by simp [hzs], ?_, ?_, ?_⟩
    · intro y hy
      rcases List.mem_cons.1 hy with rfl | hy
      · exact hof.2.1 y List.mem_cons_self
      · exact hload y hy
    · rw [after_append, after_of_before_eq_mark hms hof.1, after_cons, hafter]
      rfl
    · rw [List.map_cons, replaced_append, hlabels hms hof.1, List.nil_append, replaced_cons,
        replaced_cons, hreplaced]

/-- What stands in the place of an instruction of code is well-shaped. -/
theorem wellShaped_of_mem_result {c : Cursor} {decoded : List (Nat × Insn)}
    (hd : Insn.Reads c decoded) (hzs : zs.map (fun z => (z.1, z.2.insn)) = decoded)
    (hload : OfLoads (zs.map (·.2))) {z : Nat × Splice} (hz : z ∈ zs) {i : Insn}
    (hi : i ∈ z.2.result) : i.WellShaped := by
  cases hc : z.2.code with
  | none =>
    rw [result_of_none hc, List.mem_singleton] at hi
    rw [hi]
    exact hd.wellShaped (z.1, z.2.insn) (hzs ▸ List.mem_map_of_mem hz)
  | some code =>
    rw [result_of_some hc] at hi
    exact (Insn.wellShaped_of_emitted ((hload z.2 (List.mem_map_of_mem hz) code hc).2.2 i hi)).1

theorem fresh_of_reads {c : Code} {decoded : List (Nat × Insn)}
    (hd : Insn.Reads (.start c.bytes) decoded)
    (hzs : zs.map (fun z => (z.1, z.2.insn)) = decoded) (hload : OfLoads (zs.map (·.2))) :
    Fresh c.bytes.length zs where
  sorted := by
    have hsorted := hd.sorted
    rw [← hzs, List.map_map] at hsorted
    exact hsorted
  bounded := by
    intro z hz
    have hin : (z.1, z.2.insn) ∈ decoded := hzs ▸ List.mem_map_of_mem hz
    simpa [Cursor.start] using (hd.bounds _ hin).2
  filled := fun z hz => hload.filled z.2 (List.mem_map_of_mem hz)
  unlabelled := fun _ hz _ hi => (wellShaped_of_mem_result hd hzs hload hz hi).not_isLabel

/-! ### Positions -/

theorem le_position : start ≤ position start zs o := by
  induction zs generalizing start with
  | nil => exact le_refl _
  | cons z zs ih =>
    rw [position]
    split
    · exact le_refl _
    · exact Nat.le_trans Layout.le_stop ih

theorem position_le : position start zs o ≤ Layout.stop start (afterAll zs) := by
  induction zs generalizing start with
  | nil => exact le_refl _
  | cons z zs ih =>
    rw [position, afterAll_cons, Layout.stop_append]
    split
    · exact Nat.le_trans Layout.le_stop Layout.le_stop
    · exact ih

/-- Where nothing stood is the end now. -/
theorem position_of_notMem (h : o ∉ zs.map (·.1)) :
    position start zs o = Layout.stop start (afterAll zs) := by
  induction zs generalizing start with
  | nil => rfl
  | cons z zs ih =>
    rw [List.map_cons, List.mem_cons, not_or] at h
    rw [position, if_neg h.1, ih h.2, afterAll_cons, Layout.stop_append]

theorem Fresh.stop_notMem (h : Fresh stop zs) : stop ∉ zs.map (·.1) := by
  intro hstop
  obtain ⟨z, hz, rfl⟩ := List.mem_map.1 hstop
  exact Nat.lt_irrefl _ (h.bounded z hz)

/-- Offsets stay in order. -/
theorem position_lt_position (h : Fresh stop zs) (ho : o ∈ zs.map (·.1))
    (ho' : o' ∈ zs.map (·.1) ∨ o' = stop) (hlt : o < o') :
    position start zs o < position start zs o' := by
  induction zs generalizing start with
  | nil => cases ho
  | cons z zs ih =>
    have hne : o' ≠ z.1 := by
      intro heq
      rcases List.mem_cons.1 ho with hz | ho
      · have hz : o = z.1 := hz
        omega
      · have := h.head_lt (.inl ho)
        omega
    have ho'' : o' ∈ zs.map (·.1) ∨ o' = stop := by
      rcases ho' with ho' | ho'
      · exact .inl ((List.mem_cons.1 ho').resolve_left hne)
      · exact .inr ho'
    rw [position, position, if_neg hne]
    split
    · exact Nat.lt_of_lt_of_le h.lt_stop le_position
    · rename_i hz
      exact ih h.tail ((List.mem_cons.1 ho).resolve_left hz) ho''

/-! ### Labels -/

theorem labelOffset?_mark {l : Label} :
    Layout.labelOffset? start (mark used o) l = if used o ∧ l.id = o then some start else none := by
  obtain ⟨n⟩ := l
  by_cases hu : used o = true
  · by_cases hn : o = n
    · subst hn
      simp [mark, hu, Layout.labelOffset?, Insn.placed?]
    · simp [mark, hu, hn, Ne.symm hn, Layout.labelOffset?, Insn.placed?]
  · simp [mark, hu, Layout.labelOffset?]

theorem stop_mark : Layout.stop start (mark used o) = start := by
  unfold mark
  split <;> rfl

theorem labelOffset?_result (h : Fresh stop (z :: zs)) {l : Label} :
    Layout.labelOffset? start z.2.result l = none :=
  Layout.labelOffset?_eq_none_iff.2 fun i hi hp => by
    have := h.unlabelled z List.mem_cons_self i hi
    rw [Insn.isLabel, hp] at this
    cases this

theorem labelOffset?_marked_eq_none (h : Fresh stop zs) {l : Label} (hl : l.id ∉ zs.map (·.1))
    (hstop : l.id ≠ stop) : Layout.labelOffset? start (marked used stop zs) l = none := by
  induction zs generalizing start with
  | nil => rw [marked, labelOffset?_mark, if_neg fun h => hstop h.2]
  | cons z zs ih =>
    rw [List.map_cons, List.mem_cons, not_or] at hl
    rw [marked, Layout.labelOffset?_append, Layout.labelOffset?_append, ih h.tail hl.2,
      labelOffset?_result h, labelOffset?_mark, if_neg fun h => hl.1 h.2]
    rfl

/-- The layout finds the label of an offset where that went to. -/
theorem labelOffset?_marked (h : Fresh stop zs) {l : Label} (hu : used l.id = true)
    (hl : l.id ∈ zs.map (·.1) ∨ l.id = stop) :
    Layout.labelOffset? start (marked used stop zs) l = some (position start zs l.id) := by
  induction zs generalizing start with
  | nil =>
    obtain hl : l.id = stop := hl.resolve_left List.not_mem_nil
    rw [marked, labelOffset?_mark, if_pos ⟨hl ▸ hu, hl⟩]
    rfl
  | cons z zs ih =>
    rw [marked, Layout.labelOffset?_append, Layout.labelOffset?_append, stop_mark,
      labelOffset?_result h, Option.or_none, labelOffset?_mark, position]
    by_cases hz : l.id = z.1
    · -- the offsets increase, so this is the only place of the label
      have hnot : l.id ∉ zs.map (·.1) ∧ l.id ≠ stop := by
        constructor
        · intro hin
          have := h.head_lt (.inl hin)
          omega
        · intro heq
          have := h.head_lt (.inr heq)
          omega
      rw [labelOffset?_marked_eq_none h.tail hnot.1 hnot.2, if_pos hz, if_pos ⟨hz ▸ hu, hz⟩]
      rfl
    · have hl' : l.id ∈ zs.map (·.1) ∨ l.id = stop :=
        hl.imp_left fun hin => (List.mem_cons.1 hin).resolve_left hz
      rw [ih h.tail hl', if_neg hz]
      rfl

theorem stop_marked :
    Layout.stop start (marked used stop zs) = Layout.stop start (afterAll zs) := by
  induction zs generalizing start with
  | nil => exact stop_mark
  | cons z zs ih => rw [marked, Layout.stop_append, stop_mark, Layout.stop_append, ih,
      afterAll_cons, Layout.stop_append]

end Splice

end ClassTemplates
