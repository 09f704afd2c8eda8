import ClassTemplates.Proofs.Expansion.Settled

/-!
# Eligible loads in code

Which loads of a method have to be expanded can be read off its code: those of strings with bound
tokens that do not stand in front of a call of the lookup method. A run over the body of the method
that replaces no load has met none of them, and has left everything as it was.

## Main definitions

- `EligibleLoad` — a load in code that has to be expanded

## Main results

- `Expander.settled_of_expandBody` — a run that replaces no load
- `Expander.settled_placeLabels` — the loads of a body and those of its code
-/

namespace ClassTemplates

/-! ### Loads -/

/-- The instruction at an index loads a string that holds a bound token, and the instruction behind
it is no static call of the lookup method. -/
structure EligibleLoad (catalog : Catalog) (lookup : LookupMethod) (p : Pool)
    (decoded : List (Nat × Insn)) (k : Nat) (text : String) : Prop where
  load : ∃ o i, decoded[k]? = some (o, .ldc i) ∧ p.stringValue? i = some text
  bound : catalog.bindsAny text = true
  kept : ∀ o i, decoded[k + 1]? = some (o, .invoke Opcode.invokestatic i) →
    p.member? i ≠ some ⟨lookup.owner, lookup.name, LookupMethod.descriptor⟩

namespace Expander

variable {catalog : Catalog} {lookup : LookupMethod} {p : Pool} {e e' : Expander} {insn : Insn}
  {insns rest : List Insn} {used : Nat → Bool} {stop : Nat} {decoded : List (Nat × Insn)}

/-- What is expanded to nothing had no bound token. -/
theorem bindsAny_of_expand {text : String} {code : Option (List Insn)}
    (h : (expand catalog lookup text).run e = (.ok code, e')) :
    catalog.bindsAny text = code.isSome := by
  unfold expand at h
  simp only at h
  split at h
  · rename_i hany
    obtain ⟨insns, e₁, -, h⟩ := run_bind_eq_ok.1 h
    obtain ⟨rfl, -⟩ := run_pure_eq_ok.1 h
    exact hany
  · rename_i hany
    obtain ⟨rfl, -⟩ := run_pure_eq_ok.1 h
    exact Bool.eq_false_iff.2 hany

/-- An instruction that is not replaced was not eligible, and nothing was done for it. -/
theorem eligible?_of_expandInsn (h : (expandInsn catalog lookup insn rest).run e = (.ok none, e')) :
    eligible? catalog lookup e.pool insn rest = none ∧ e' = e := by
  rcases expandInsn_eq_ok h with ⟨htext, -, rfl⟩ | ⟨text, htext, hexp⟩
  · rw [eligible?, htext]
    exact ⟨rfl, rfl⟩
  · have hb : catalog.bindsAny text = false := bindsAny_of_expand hexp
    rw [expand_of_not_bindsAny hb] at hexp
    cases hexp
    rw [eligible?, htext]
    exact ⟨by simp [Option.filter, hb], rfl⟩

theorem Expands.settled {xs : List Splice} (h : Expands catalog lookup e xs e')
    (hxs : xs.countP (·.code.isSome) = 0) :
    Settled catalog lookup e.pool (Splice.before xs) ∧ e' = e := by
  induction h with
  | nil e => exact ⟨trivial, rfl⟩
  | @cons e e₁ e₂ x xs hx _ ih =>
    rw [List.countP_eq_zero, List.forall_mem_cons] at hxs
    have hnone : x.code = none := by simpa using hxs.1
    rw [hnone] at hx
    obtain ⟨hel, rfl⟩ := eligible?_of_expandInsn hx
    obtain ⟨hrest, rfl⟩ := ih (List.countP_eq_zero.2 hxs.2)
    exact ⟨⟨hel, hrest⟩, rfl⟩

/-- A body in which no load is replaced has none that is eligible, and nothing was done for it. -/
theorem settled_of_expandBody {b b' : Body}
    (h : (expandBody catalog lookup b).run e = (.ok (0, b'), e')) :
    Settled catalog lookup e.pool b.insns ∧ e' = e := by
  obtain ⟨xs, hbefore, hx, -, hcount⟩ := expandBody_eq_ok h
  rw [← hbefore]
  exact hx.settled hcount.symm

/-! ### Loads in code -/

/-- Behind labels stands what code reads as. -/
theorem find?_placeLabels (hshaped : ∀ x ∈ decoded, x.2.WellShaped) :
    (Body.placeLabels used decoded stop).find? (fun i => !i.isLabel) = decoded.head?.map (·.2) := by
  have hmark (o : Nat) : (Splice.mark used o).find? (fun i => !i.isLabel) = none := by
    unfold Splice.mark
    split <;> rfl
  cases decoded with
  | nil => exact hmark stop
  | cons x decoded =>
    obtain ⟨o, i⟩ := x
    have hi : i.isLabel = false := (hshaped _ List.mem_cons_self).not_isLabel
    rw [Splice.placeLabels_cons, List.find?_append, hmark, List.find?_cons_of_pos (by simp [hi])]
    rfl

theorem isLookup_iff {i : UInt16} : isLookup lookup p i = true ↔
    p.member? i = some ⟨lookup.owner, lookup.name, LookupMethod.descriptor⟩ := by
  unfold isLookup
  cases p.member? i with
  | none => simp
  | some m =>
    obtain ⟨owner, name, descriptor⟩ := m
    simp [and_assoc]

/-- The call behind a load in a body is the call behind it in the code. -/
theorem feedsLookup_placeLabels (hshaped : ∀ x ∈ decoded, x.2.WellShaped) :
    feedsLookup lookup p (Body.placeLabels used decoded stop) = true ↔
      ∃ o i, decoded.head? = some (o, .invoke Opcode.invokestatic i) ∧
        p.member? i = some ⟨lookup.owner, lookup.name, LookupMethod.descriptor⟩ := by
  unfold feedsLookup
  rw [find?_placeLabels hshaped]
  cases decoded with
  | nil => simp
  | cons x decoded =>
    obtain ⟨o, i⟩ := x
    cases i with
    | invoke opcode index => simp [isLookup_iff]
    | _ => simp

theorem eligible?_eq_some {text : String} : eligible? catalog lookup p insn rest = some text ↔
    ∃ i, insn = .ldc i ∧ feedsLookup lookup p rest = false ∧ p.stringValue? i = some text ∧
      catalog.bindsAny text = true := by
  rw [eligible?, Option.filter_eq_some_iff]
  constructor
  · rintro ⟨htext, hbound⟩
    obtain ⟨i, hi, hf, hvalue⟩ := exists_ldc_of_loadedText? htext
    exact ⟨i, hi, hf, hvalue, hbound⟩
  · rintro ⟨i, rfl, hf, hvalue, hbound⟩
    exact ⟨by simp [loadedText?, hf, hvalue], hbound⟩

/-- The first instruction of code is an eligible load exactly if it is one in the body. -/
theorem eligibleLoad_zero_iff {o : Nat} {text : String} (hshaped : ∀ x ∈ decoded, x.2.WellShaped) :
    EligibleLoad catalog lookup p ((o, insn) :: decoded) 0 text ↔
      eligible? catalog lookup p insn (Body.placeLabels used decoded stop) = some text := by
  rw [eligible?_eq_some]
  have hfeeds : feedsLookup lookup p (Body.placeLabels used decoded stop) = true ↔ _ :=
    feedsLookup_placeLabels hshaped
  rw [List.head?_eq_getElem?] at hfeeds
  constructor
  · rintro ⟨⟨o', i, hload, hvalue⟩, hbound, hkept⟩
    cases hload
    refine ⟨i, rfl, Bool.eq_false_iff.2 fun hf => ?_, hvalue, hbound⟩
    obtain ⟨o', j, hnext, hmember⟩ := hfeeds.1 hf
    exact hkept o' j (by simpa using hnext) hmember
  · rintro ⟨i, rfl, hf, hvalue, hbound⟩
    refine ⟨⟨o, i, rfl, hvalue⟩, hbound, fun o' j hnext hmember => ?_⟩
    rw [hfeeds.2 ⟨o', j, by simpa using hnext, hmember⟩] at hf
    cases hf

theorem eligibleLoad_succ_iff {x : Nat × Insn} {k : Nat} {text : String} :
    EligibleLoad catalog lookup p (x :: decoded) (k + 1) text ↔
      EligibleLoad catalog lookup p decoded k text := by
  constructor <;> rintro ⟨hload, hbound, hkept⟩ <;>
    exact ⟨by simpa using hload, hbound, by simpa using hkept⟩

theorem settled_mark_append {o : Nat} : Settled catalog lookup p (Splice.mark used o ++ insns) ↔
    Settled catalog lookup p insns := by
  unfold Splice.mark
  split
  · exact ⟨fun h => h.2, fun h => ⟨rfl, h⟩⟩
  · exact Iff.rfl

/-- No load is eligible in a body exactly if none is in its code. -/
theorem settled_placeLabels (hshaped : ∀ x ∈ decoded, x.2.WellShaped) :
    Settled catalog lookup p (Body.placeLabels used decoded stop) ↔
      ∀ k text, ¬ EligibleLoad catalog lookup p decoded k text := by
  induction decoded with
  | nil =>
    refine iff_of_true ?_ fun k text h => ?_
    · have hstop : Settled catalog lookup p (Splice.mark used stop ++ []) :=
        settled_mark_append.2 trivial
      rwa [List.append_nil] at hstop
    · obtain ⟨o, i, hload, -⟩ := h.load
      cases hload
  | cons x decoded ih =>
    obtain ⟨o, insn⟩ := x
    rw [List.forall_mem_cons] at hshaped
    rw [Splice.placeLabels_cons, settled_mark_append, Settled, ih hshaped.2,
      Option.eq_none_iff_forall_ne_some]
    constructor
    · rintro ⟨hfirst, hrest⟩ (_ | k) text h
      · exact hfirst text ((eligibleLoad_zero_iff hshaped.2).1 h)
      · exact hrest k text (eligibleLoad_succ_iff.1 h)
    · intro h
      exact ⟨fun text hel => h 0 text ((eligibleLoad_zero_iff hshaped.2).2 hel),
        fun k text hel => h (k + 1) text (eligibleLoad_succ_iff.2 hel)⟩

end Expander

end ClassTemplates
