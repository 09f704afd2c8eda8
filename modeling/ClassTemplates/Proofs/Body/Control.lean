import ClassTemplates.Proofs.Body.Redecoding
import ClassTemplates.Proofs.Machine.Basic

/-!
# Where control can go

The paths that control can take through a body: on to the next instruction, to the target of a
branch, to the handler of an exception, and back from a subroutine. Instructions in front of a body
that take no branch and place no label are run first, one after the other, and never again.

## Main definitions

- `Body.Goes` — the instructions that control can go to from an instruction

## Main results

- `Body.Goes.of_lt`, `Body.Goes.of_le` — one step from the instructions in front, and from behind
- `Body.front_first` — every path runs the instructions in front once, before all others
-/

namespace ClassTemplates

namespace Body

variable {b : Body} {front rest : List Insn} {k k' : Nat} {l : Label}

/-- Where control can go from the instruction with an index: to the next one, to the place of a
label it branches to, to the handler that protects it, or from the end of a subroutine behind a
jump. -/
inductive Goes (b : Body) (k : Nat) : Nat → Prop
  | next {i : Insn} : b.insns[k]? = some i → Goes b k (k + 1)
  | branch {i : Insn} {l : Label} {j : Nat} : b.insns[k]? = some i → l ∈ i.targets →
      b.placements[l]? = some j → Goes b k j
  | caught {h : Handler Label} {j : Nat} : h ∈ b.handlers → Machine.covers b h k = true →
      b.placements[h.target]? = some j → Goes b k j
  | back {index : UInt16} {opcode : UInt8} {target : Label} {j : Nat} :
      b.insns[k]? = some (.localVar Opcode.ret index) →
      b.insns[j]? = some (.jump opcode target) → Goes b k (j + 1)

/-- Labels are placed behind instructions that place none. -/
theorem le_of_placements (hb : b.insns = front ++ rest) (hfront : ∀ i ∈ front, i.assigning)
    (hl : b.placements[l]? = some k) : front.length ≤ k := by
  rw [getElem?_placements] at hl
  have hget : b.insns[k]? = some (.label l) := getElem?_of_lastPlace? hl
  by_contra hlt
  rw [hb, List.getElem?_append_left (Nat.lt_of_not_le hlt)] at hget
  cases hfront _ (List.mem_of_getElem? hget)

/-- From an instruction in front control goes on to the next one. -/
theorem Goes.of_lt (hb : b.insns = front ++ rest) (hfront : ∀ i ∈ front, i.assigning)
    (hk : k < front.length) (h : b.Goes k k') : k' = k + 1 := by
  have hassigning {i : Insn} (hi : b.insns[k]? = some i) : i.assigning := by
    rw [hb, List.getElem?_append_left hk] at hi
    exact hfront i (List.mem_of_getElem? hi)
  cases h with
  | next => rfl
  | branch hi hl =>
    rw [(Insn.wellShaped_of_assigning (hassigning hi)).2.1] at hl
    cases hl
  | @caught h j _ hcovers _ =>
    -- the protected range starts at a label, and those are placed behind
    unfold Machine.covers at hcovers
    split at hcovers
    · rename_i start stop hstart _
      have hle := le_of_placements hb hfront hstart
      simp only [Bool.and_eq_true, decide_eq_true_eq] at hcovers
      omega
    · cases hcovers
  | back hi _ => cases hassigning hi

/-- From behind, control stays behind. -/
theorem Goes.of_le (hb : b.insns = front ++ rest) (hfront : ∀ i ∈ front, i.assigning)
    (hk : front.length ≤ k) (h : b.Goes k k') : front.length ≤ k' := by
  cases h with
  | next => omega
  | branch _ _ hj | caught _ _ hj => exact le_of_placements hb hfront hj
  | @back index opcode target j _ hj =>
    by_contra hlt
    rw [hb, List.getElem?_append_left (by omega)] at hj
    cases hfront _ (List.mem_of_getElem? hj)

/-- Every path through a body runs the instructions in front of it once, in order, and then never
comes back to them. -/
theorem front_first (hb : b.insns = front ++ rest) (hfront : ∀ i ∈ front, i.assigning)
    {path : List Nat} (hpath : path.IsChain b.Goes) (hstart : path[0]? = some 0) {n : Nat}
    (hk : path[n]? = some k) :
    (n < front.length → k = n) ∧ (front.length ≤ n → front.length ≤ k) := by
  induction n generalizing k with
  | zero =>
    rw [hstart] at hk
    cases hk
    exact ⟨fun _ => rfl, id⟩
  | succ n ih =>
    obtain ⟨hn, rfl⟩ := List.getElem?_eq_some_iff.1 hk
    have hgoes := List.isChain_iff_getElem.1 hpath n hn
    obtain ⟨hlt, hle⟩ := ih (List.getElem?_eq_getElem (by omega))
    rcases Nat.lt_or_ge n front.length with hn' | hn'
    · have hindex := hlt hn'
      have hnext := hgoes.of_lt hb hfront (by omega)
      omega
    · have hbehind := hgoes.of_le hb hfront (hle hn')
      exact ⟨fun h => by omega, fun _ => hbehind⟩

end Body

end ClassTemplates
