import ClassTemplates.Proofs.Depth.Edits
import ClassTemplates.Proofs.Depth.Exact

/-!
# Instructions that are reached

A body that can be analysed has been looked at wherever control goes, so what the instructions there
load, access and call is in the pool. An edit cuts nothing off: assignments in front and the code in
the place of loads run through, so what took the place of an instruction that was reached is reached
as well. A load that is reached stands in front of an instruction that is reached, so a larger pool
does not change whether it has to be expanded.

## Main definitions

- `Insn.Linked` — what an instruction works on is in the pool

## Main results

- `Body.Flows.linked` — the instructions that are reached in a body with depths
- `Body.EditOf.reaches_place` — an edit is reached where the body was
- `Body.Flows.eligible?_eq` — a load that is reached, in a larger pool
-/

namespace ClassTemplates

/-! ### What an instruction works on -/

namespace Insn

variable {p : Pool} {insn : Insn}

/-- What the instruction loads, accesses or calls is there: a constant that can be loaded, a member,
or a call site. -/
def Linked (p : Pool) : Insn → Prop
  | ldc i => ∃ c, p.get? i = some c ∧ c ≠ .secondSlot
  | field _ i | invoke _ i | invokeInterface i _ => ∃ m, p.member? i = some m
  | invokeDynamic i => ∃ bootstrap j x,
      p.get? i = some (.invokeDynamic bootstrap j) ∧ p.nameAndType? j = some x
  | _ => True

theorem Linked.mono {q : Pool} (h : p ≤ q) (hi : insn.Linked p) : insn.Linked q := by
  cases insn with
  | ldc i =>
    obtain ⟨c, hc, hne⟩ := hi
    exact ⟨c, Pool.get?_mono h hc, hne⟩
  | field opcode i | invoke opcode i | invokeInterface i count =>
    obtain ⟨m, hm⟩ := hi
    exact ⟨m, Pool.member?_mono h hm⟩
  | invokeDynamic i =>
    obtain ⟨bootstrap, j, x, hc, hx⟩ := hi
    exact ⟨bootstrap, j, x, Pool.get?_mono h hc, Pool.nameAndType?_mono h hx⟩
  | _ => trivial

/-- The effect of an instruction is known only if it is linked. -/
theorem linked_of_ofInsn? {e : Effect} (h : Effect.ofInsn? p insn = some e) :
    insn.Linked p := by
  cases insn with
  | ldc i =>
    change Effect.ofConstant? p i = some e at h
    cases hc : p.get? i with
    | none =>
      rw [Effect.ofConstant?, hc] at h
      cases h
    | some c =>
      refine ⟨c, hc, ?_⟩
      rintro rfl
      rw [Effect.ofConstant?, hc] at h
      cases h
  | field opcode i =>
    obtain ⟨m, hm, -⟩ := Option.bind_eq_some_iff.1 h
    exact ⟨m, hm⟩
  | invoke opcode i | invokeInterface i count =>
    obtain ⟨slots, hslots, -⟩ := Option.bind_eq_some_iff.1 h
    obtain ⟨m, hm, -⟩ := Option.bind_eq_some_iff.1 hslots
    exact ⟨m, hm⟩
  | invokeDynamic i =>
    obtain ⟨slots, hslots, -⟩ := Option.bind_eq_some_iff.1 h
    unfold Effect.callSiteSlots? at hslots
    split at hslots
    · rename_i bootstrap j hc
      obtain ⟨x, hx, -⟩ := Option.bind_eq_some_iff.1 hslots
      exact ⟨bootstrap, j, x, hc, hx⟩
    · cases hslots
  | _ => trivial

/-- Control goes on behind the instructions of an assignment. -/
theorem goesOn_of_assigning (h : insn.assigning) : insn.goesOn = true := by
  cases insn with
  | op opcode =>
    obtain rfl : opcode = Opcode.dup := eq_of_beq h
    rfl
  | _ => first | rfl | cases h

end Insn

namespace Body

variable {p : Pool} {b : Body} {limit : UInt16} {reached : Nat → UInt16 → Prop} {i j k n : Nat}
  {insn : Insn}

/-! ### Where depths are known -/

/-- Depths that the steps respect are known wherever control goes, and all such depths agree. -/
theorem Flows.exists_of_reaches {limit' : UInt16} {reached' : Nat → UInt16 → Prop}
    (h : b.Flows p limit reached) (h' : b.Flows p limit' reached') (hr : b.Reaches i) :
    ∃ d, reached i d ∧ reached' i d := by
  -- by induction on the path; from one depth an edge leads to one depth
  induction hr with
  | entry => exact ⟨0, h.entry, h'.entry⟩
  | handler hmem hj =>
    obtain ⟨i, hi, hr⟩ := h.handlers _ hmem
    obtain ⟨i', hi', hr'⟩ := h'.handlers _ hmem
    cases hj.symm.trans hi
    cases hj.symm.trans hi'
    exact ⟨1, hr, hr'⟩
  | @step i j kept _ hedge ih =>
    obtain ⟨d, hd, hd'⟩ := ih
    obtain ⟨insn, deeper, next, hi, hstep, -, hnext⟩ := h.respects.step i d hd
    obtain ⟨insn', deeper', next', hi', hstep', -, hnext'⟩ := h'.respects.step i d hd'
    cases hi.symm.trans hi'
    cases hstep.symm.trans hstep'
    rw [List.getElem?_toArray] at hi
    obtain ⟨e, -, -, -, -, hfollows⟩ := Depth.follows_of_step hi hstep
    have hmem := (hfollows ⟨j, carry e d kept⟩).2 ⟨kept, hedge, rfl⟩
    exact ⟨_, hnext _ hmem, hnext' _ hmem⟩

/-- Depths of instructions that are reached are no larger than what the analysis reports. -/
theorem Flows.le_maxDepth {summary : DepthSummary} {known : List (Option UInt16)} {d : UInt16}
    (h : b.Flows p limit reached) (hb : b.depths p = .ok (summary, known)) (hr : b.Reaches i)
    (hd : reached i d) : d ≤ summary.maxDepth := by
  have hknown := flows_of_depths hb
  obtain ⟨d', hd', hfound⟩ := h.exists_of_reaches hknown hr
  obtain rfl := h.respects.unique i _ _ hd hd'
  exact hknown.respects.le_limit hfound

/-- In a body with depths, every instruction that is reached has an effect. -/
theorem Flows.exists_ofInsn? (h : b.Flows p limit reached) (hr : b.Reaches i)
    (hi : b.insns[i]? = some insn) : ∃ e, Effect.ofInsn? p insn = some e := by
  obtain ⟨d, hd, -⟩ := h.exists_of_reaches h hr
  obtain ⟨insn', deeper, next, hi', hstep, -⟩ := h.respects.step i d hd
  rw [List.getElem?_toArray, hi] at hi'
  cases hi'
  obtain ⟨e, he, -⟩ := Depth.follows_of_step hi hstep
  rw [effect?, hi] at he
  exact ⟨e, he⟩

/-- In a body with depths, every instruction that is reached is linked. -/
theorem Flows.linked (h : b.Flows p limit reached) (hr : b.Reaches i)
    (hi : b.insns[i]? = some insn) : insn.Linked p := by
  obtain ⟨e, he⟩ := h.exists_ofInsn? hr hi
  exact Insn.linked_of_ofInsn? he

/-! ### Edits -/

/-- Code that control runs through is reached at its end if it is at its start. -/
theorem Reaches.through (hr : b.Reaches j)
    (h : ∀ i < n, ∃ insn, b.insns[j + i]? = some insn ∧ insn.goesOn = true) :
    b.Reaches (j + n) := by
  induction n with
  | zero => exact hr
  | succ n ih =>
    obtain ⟨insn, hi, hgoes⟩ := h n (Nat.lt_succ_self n)
    exact (ih fun i hi => h i (Nat.lt_succ_of_lt hi)).step (.next hi hgoes)

variable {c : Code} {decoded : List (Nat × Insn)} {pre : List Insn} {xs : List Splice} {x : Splice}

theorem EditOf.lastPlace?_eq {l : Label} (h : b.EditOf c decoded pre xs)
    (hj : lastPlace? (decodedAs c decoded).insns l = some j) :
    lastPlace? b.insns l = some (pre.length + Splice.place xs j) := by
  rw [← h.before] at hj
  rw [h.insns, Splice.lastPlace?_append_after h.loads hj]

/-- What stands in front of an edit is reached. -/
theorem EditOf.reaches_front (h : b.EditOf c decoded pre xs) (hpre : ∀ i ∈ pre, i.assigning)
    (hi : i ≤ pre.length) : b.Reaches i := by
  rw [← Nat.zero_add i]
  refine Reaches.entry.through fun n hn => ⟨pre[n], ?_, ?_⟩
  · rw [Nat.zero_add, h.insns, List.getElem?_append_left (by omega), List.getElem?_eq_getElem]
  · exact Insn.goesOn_of_assigning (hpre _ (List.getElem_mem _))

/-- The code in the place of a load is reached if its start is. -/
theorem EditOf.reaches_inside {code : List Insn} (h : b.EditOf c decoded pre xs)
    (hr : b.Reaches (pre.length + Splice.place xs k)) (hx : xs[k]? = some x)
    (hc : x.code = some code) (hi : i ≤ x.result.length) :
    b.Reaches (pre.length + Splice.place xs k + i) := by
  obtain ⟨-, -, hemit⟩ := h.loads x (List.mem_of_getElem? hx) code hc
  refine hr.through fun n hn => ?_
  have hlt : n < x.result.length := by omega
  refine ⟨x.result[n], ?_, ?_⟩
  · rw [h.insns, Splice.getElem?_append_after hx hlt, List.getElem?_eq_getElem hlt]
  · refine Insn.goesOn_of_assigning (Insn.assigning_of_emitted (hemit _ ?_))
    rw [← Splice.result_of_some hc]
    exact List.getElem_mem hlt

/-- Control goes from what took the place of an instruction to what took the place of one that it
went to. -/
theorem EditOf.reaches_of_edge {kept : Bool} (h : b.EditOf c decoded pre xs)
    (hr : b.Reaches (pre.length + Splice.place xs k))
    (hedge : (decodedAs c decoded).Edge k j kept) :
    b.Reaches (pre.length + Splice.place xs j) := by
  obtain ⟨insn, hinsn⟩ := hedge.exists_insn
  obtain ⟨x, hx, rfl⟩ : ∃ x, xs[k]? = some x ∧ x.insn = insn := by
    rwa [← h.before, Splice.getElem?_before, Option.map_eq_some_iff] at hinsn
  have hsucc := Splice.place_succ hx
  cases hc : x.code with
  | none =>
    -- the instruction was kept, and so were its edges
    have hget : b.insns[pre.length + Splice.place xs k]? = some x.insn := by
      rw [h.insns, Splice.getElem?_append_after_of_none hx hc]
    rw [Splice.result_of_none hc, List.length_singleton] at hsucc
    suffices hmoved : b.Edge (pre.length + Splice.place xs k) (pre.length + Splice.place xs j) kept
      from hr.step hmoved
    rcases (edge_iff hinsn).1 hedge with
      ⟨rfl, ⟨l, hl, hj⟩ | ⟨hgoes, rfl⟩⟩ | ⟨rfl, hcalls, rfl⟩
    · exact .target hget hl (h.lastPlace?_eq hj)
    · rw [hsucc]
      exact .next hget hgoes
    · rw [hsucc]
      exact .back hget hcalls
  | some code =>
    -- it was a load, behind which control goes on as it does through the code in its place
    obtain ⟨⟨i, hi⟩, -, -⟩ := h.loads x (List.mem_of_getElem? hx) code hc
    rw [hi] at hinsn
    obtain rfl : j = k + 1 := by
      rcases (edge_iff hinsn).1 hedge with ⟨-, ⟨l, hl, -⟩ | ⟨-, hj⟩⟩ | ⟨-, -, hj⟩
      · cases hl
      · exact hj
      · exact hj
    rw [hsucc, ← Nat.add_assoc]
    exact h.reaches_inside hr hx hc (Nat.le_refl _)

/-- What took the place of an instruction that was reached is reached. -/
theorem EditOf.reaches_place (h : b.EditOf c decoded pre xs) (hpre : ∀ i ∈ pre, i.assigning)
    (hr : (decodedAs c decoded).Reaches k) : b.Reaches (pre.length + Splice.place xs k) := by
  induction hr with
  | entry =>
    rw [Splice.place_zero, Nat.add_zero]
    exact h.reaches_front hpre (Nat.le_refl _)
  | handler hmem hj =>
    refine .handler ?_ (h.lastPlace?_eq hj)
    rwa [h.handlers]
  | step _ hedge ih => exact h.reaches_of_edge ih hedge

/-- If an edit has depths, the instructions that were reached in the body are linked, apart from
those that were replaced. -/
theorem EditOf.linked (h : b.EditOf c decoded pre xs) (hpre : ∀ i ∈ pre, i.assigning)
    (hflows : b.Flows p limit reached) (hr : (decodedAs c decoded).Reaches k)
    (hk : xs[k]? = some x) (hx : x.code = none) : x.insn.Linked p := by
  refine hflows.linked (h.reaches_place hpre hr) ?_
  rw [h.insns, Splice.getElem?_append_after_of_none hk hx]

/-! ### Loads -/

/-- The first instruction behind labels that are reached is reached. -/
theorem Reaches.exists_of_find? (hr : b.Reaches k)
    (h : (b.insns.drop k).find? (fun insn => !insn.isLabel) = some insn) :
    ∃ j, b.Reaches j ∧ b.insns[j]? = some insn := by
  obtain ⟨-, labels, rest, hdrop, hlabels⟩ := List.find?_eq_some_iff_append.1 h
  have hget (n : Nat) : b.insns[k + n]? = (labels ++ insn :: rest)[n]? := by
    rw [← hdrop, List.getElem?_drop]
  refine ⟨k + labels.length, hr.through fun n hn => ⟨labels[n], ?_, ?_⟩, ?_⟩
  · rw [hget, List.getElem?_append_left hn, List.getElem?_eq_getElem hn]
  · have hlabel := hlabels labels[n] (List.getElem_mem hn)
    rw [Bool.not_not] at hlabel
    obtain ⟨l, hl⟩ := Insn.exists_of_isLabel hlabel
    rw [hl]
    rfl
  · rw [hget, List.getElem?_append_right (Nat.le_refl _), Nat.sub_self]
    rfl

/-- Whether a load that is reached has to be expanded can be read off the pool in which its body has
depths, also once that pool has grown. -/
theorem Flows.eligible?_eq {catalog : Catalog} {lookup : LookupMethod} {q : Pool}
    (h : b.Flows p limit reached) (hp : p.Closed) (hpq : p ≤ q) (hr : b.Reaches k)
    (hk : b.insns[k]? = some insn) :
    Expander.eligible? catalog lookup q insn (b.insns.drop (k + 1)) =
      Expander.eligible? catalog lookup p insn (b.insns.drop (k + 1)) := by
  unfold Expander.eligible?
  cases insn with
  | ldc i =>
    obtain ⟨c, hc, -⟩ := h.linked hr hk
    -- the call behind the load is reached, so it is linked
    have hcall : ∀ opcode j, (b.insns.drop (k + 1)).find? (fun insn => !insn.isLabel) =
        some (.invoke opcode j) → p.Inside j := by
      intro opcode j hf
      obtain ⟨k', hr', hk'⟩ := (hr.step (.next hk rfl)).exists_of_find? hf
      obtain ⟨m, hm⟩ := h.linked hr' hk'
      exact Pool.inside_of_member? hm
    rw [Expander.loadedText?_ldc_eq_of_inside hpq hp (Pool.inside_of_get? hc) hcall]
  | _ => rfl

end Body

end ClassTemplates
