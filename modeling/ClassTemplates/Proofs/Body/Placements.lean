import ClassTemplates.Body.Basic
import ClassTemplates.Proofs.Expansion.Splices

/-!
# Places of labels

A label has its last place among the instructions. Putting code without labels in the place of
instructions that place none moves every label along with the code around it.

## Main definitions

- `lastPlace?` — the last index at which a label is placed

## Main results

- `Body.getElem?_placements` — the table of places has the last place of each label
- `Splice.lastPlace?_after` — where a label is placed once code is spliced in
-/

namespace ClassTemplates

/-- The last index at which a label is placed among instructions. -/
def lastPlace? : List Insn → Label → Option Nat
  | [], _ => none
  | insn :: rest, l =>
    match lastPlace? rest l with
    | some j => some (j + 1)
    | none => if insn.placed? = some l then some 0 else none

section

variable {insns front back : List Insn} {l : Label} {j : Nat}

theorem Insn.placed?_eq_some {insn : Insn} : insn.placed? = some l ↔ insn = .label l := by
  cases insn <;> simp [Insn.placed?]

/-- A label stands at its last place. -/
theorem getElem?_of_lastPlace? (h : lastPlace? insns l = some j) :
    insns[j]? = some (.label l) := by
  induction insns generalizing j with
  | nil => cases h
  | cons insn rest ih =>
    unfold lastPlace? at h
    split at h
    · rename_i i hi
      cases h
      simpa using ih hi
    · split at h
      · rename_i hl
        cases h
        simpa using Insn.placed?_eq_some.1 hl
      · cases h

theorem lt_of_lastPlace? (h : lastPlace? insns l = some j) : j < insns.length :=
  (List.getElem?_eq_some_iff.1 (getElem?_of_lastPlace? h)).1

theorem lastPlace?_append :
    lastPlace? (front ++ back) l =
      ((lastPlace? back l).map (front.length + ·)).or (lastPlace? front l) := by
  induction front with
  | nil => cases h : lastPlace? back l <;> simp [lastPlace?, h]
  | cons insn rest ih =>
    rw [List.cons_append, lastPlace?, ih, lastPlace?]
    cases lastPlace? back l with
    | none => rfl
    | some j => simp [Nat.add_right_comm]

/-- Code without labels places none. -/
theorem lastPlace?_eq_none (h : ∀ x ∈ insns, x.placed? = none) : lastPlace? insns l = none := by
  induction insns with
  | nil => rfl
  | cons insn rest ih =>
    rw [List.forall_mem_cons] at h
    simp [lastPlace?, ih h.2, h.1]

theorem getElem?_placementsOnto {found : Std.HashMap Label Nat} {i : Nat} :
    (Body.placementsOnto found i insns)[l]? = ((lastPlace? insns l).map (i + ·)).or found[l]? := by
  induction insns generalizing found i with
  | nil => rfl
  | cons insn rest ih =>
    rw [Body.placementsOnto, ih, lastPlace?]
    cases hr : lastPlace? rest l with
    | some j => simp [Nat.add_assoc, Nat.add_comm 1]
    | none =>
      cases hp : insn.placed? with
      | none => simp
      | some l' =>
        by_cases hl : l' = l
        · subst hl
          simp
        · simp [hl, Std.HashMap.getElem?_insert]

/-- The table of places has the last place of each label. -/
theorem Body.getElem?_placements {b : Body} : b.placements[l]? = lastPlace? b.insns l := by
  rw [Body.placements, getElem?_placementsOnto]
  simp

end

namespace Splice

variable {xs : List Splice} {x : Splice} {l : Label}

/-- Code in the place of a load places no labels, and neither does the load. -/
theorem lastPlace?_result (h : OfLoads [x]) :
    lastPlace? x.result l = lastPlace? [x.insn] l := by
  cases hc : x.code with
  | none => rw [result_of_none hc]
  | some code =>
    obtain ⟨⟨i, hi⟩, -, hemit⟩ := h x List.mem_cons_self code hc
    have hnone : ∀ y ∈ code, y.placed? = none := by
      intro y hy
      have := hemit y hy
      cases y <;> first | rfl | cases this
    rw [result_of_some hc, lastPlace?_eq_none hnone, hi]
    rfl

/-- A label is placed where the code for its old place starts. -/
theorem lastPlace?_after (h : OfLoads xs) :
    lastPlace? (after xs) l = (lastPlace? (before xs) l).map (place xs) := by
  induction xs with
  | nil => rfl
  | cons x xs ih =>
    have hx : OfLoads [x] := fun y hy => h y (List.mem_singleton.1 hy ▸ List.mem_cons_self)
    have hxs : OfLoads xs := fun y hy => h y (List.mem_cons_of_mem _ hy)
    have hplace (k : Nat) : place (x :: xs) (k + 1) = x.result.length + place xs k := by
      simp [place]
    have hsplit : before (x :: xs) = [x.insn] ++ before xs := rfl
    rw [after_cons, hsplit, lastPlace?_append, lastPlace?_append, lastPlace?_result hx, ih hxs]
    cases lastPlace? (before xs) l with
    | some k => simp [hplace, Nat.add_comm 1 k]
    | none =>
      by_cases hl : x.insn.placed? = some l <;> simp [lastPlace?, hl]

end Splice

end ClassTemplates
