import ClassTemplates.Proofs.Insn.Canonical

/-!
# The bytes of each instruction

Every instruction that is read from code has bytes of its own, from its offset up to that of the
next instruction. They lie one behind the other and are all bytes of the code. Each of them is read
as its instruction whatever stands behind it, and has at least as many bytes as the instruction is
encoded in.

## Main definitions

- `spanOffsets` — where pieces start that lie one behind the other

## Main results

- `Insn.delimited_readerBehind` — the reader of an instruction does not look behind it
- `Insn.readsBack_of_readerBehind` — the bytes of an instruction
- `Insn.Reads.exists_spans` — the bytes of all instructions
- `Insn.length_le_of_spells`, `add_length_le_of_readerBehind` — how long the encoded instruction is
-/

namespace ClassTemplates

/-- The offsets of pieces that lie one behind the other, the first one at `start`. -/
def spanOffsets (start : Nat) : List Bytes → List Nat
  | [] => []
  | span :: spans => start :: spanOffsets (start + span.length) spans

namespace Insn

open Reader hiding run_bind_eq_ok run_pure_eq_ok

variable {opcode : UInt8} {position : Nat} {rest : Bytes} {c next : Cursor} {i : Insn}
  {found : List (Nat × Insn)}

/-! ### Where instructions end -/

/-- The operands of an instruction are the same, whatever stands behind them. -/
theorem delimited_readerBehind : (readerBehind position opcode).Delimited :=
  accepts_readerBehind.delimited

/-- The bytes that an instruction was read from read back as that instruction. -/
theorem readsBack_of_readerBehind
    (h : (readerBehind position opcode).run ⟨rest, position + 1⟩ = .ok (i, next)) :
    ∃ span, Cursor.Passes ⟨opcode :: rest, position⟩ span next ∧ ReadsBack position span i := by
  obtain ⟨used, hpass, hrun⟩ := delimited_readerBehind _ _ _ h
  have hlen : position + 1 + used.length = position + (opcode :: used).length := by
    rw [List.length_cons, Nat.add_assoc, Nat.add_comm 1]
  refine ⟨opcode :: used, ⟨congrArg (opcode :: ·) hpass.1, hpass.2.trans hlen⟩, opcode, used, rfl,
    fun more => ?_⟩
  rw [hrun more, hlen]

/-- Bytes that read as instructions are the bytes of these, one behind the other, which start at
the offsets that they are read at. -/
theorem Reads.exists_spans (h : Reads c found) : ∃ spans : List Bytes,
    spans.flatten = c.rest ∧ List.Forall₂ (fun x span => ReadsBack x.1 span x.2) found spans ∧
      found.map (·.1) = spanOffsets c.position spans := by
  induction h with
  | nil => exact ⟨[], rfl, .nil, rfl⟩
  | @cons opcode rest position i next found hi _ ih =>
    obtain ⟨span, ⟨hrest, hposition⟩, hread⟩ := readsBack_of_readerBehind hi
    obtain ⟨spans, hflat, hspans, hoffsets⟩ := ih
    refine ⟨span :: spans, ?_, .cons hread hspans, ?_⟩
    · rw [List.flatten_cons, hflat]
      exact hrest.symm
    · rw [hposition] at hoffsets
      exact congrArg (position :: ·) hoffsets

/-! ### How long instructions are -/

/-- No instruction is encoded in more bytes than it is spelled with. -/
theorem length_le_of_spells {operands : Operands} {used : Bytes}
    (ho : Operands.ofOpcode opcode = some operands) (h : Spells position opcode operands i used) :
    i.length position ≤ used.length + 1 := by
  cases h with
  | shortConstant index | localIndex index =>
    simp only [length, if_pos (fitsByte_toUInt16 index)]
    rfl
  | increment index delta =>
    simp only [length, if_pos (fits_increment index delta)]
    rfl
  | wideConstant | widenedIndex | widenedIncrement =>
    simp only [length, List.length_cons, List.length_append, BigEndian.length_word16]
    split <;> omega
  | shortBranch =>
    simp only [length, not_isWideJump_of_ofOpcode ho]
    rfl
  | wideBranch =>
    simp only [length, isWideJump_of_ofOpcode ho]
    rfl
  | tableSwitch _ _ _ _ _ hpadding =>
    simp only [length, List.length_append, length_wideOffset, BigEndian.length_word32,
      length_flatMap_of_length fun _ => length_wideOffset, hpadding]
    omega
  | lookupSwitch _ _ _ hpadding =>
    have hpair (x : Int32 × Label) :
        (BigEndian.word32 x.1.toUInt32 ++ wideOffset position x.2.id).length = 8 := rfl
    simp only [length, List.length_append, length_wideOffset, BigEndian.length_count32,
      length_flatMap_of_length hpair, hpadding]
    omega
  | _ => rfl

/-- An instruction is encoded in no more bytes than it was read from. -/
theorem add_length_le_of_readerBehind
    (h : (readerBehind position opcode).run ⟨rest, position + 1⟩ = .ok (i, next)) :
    position + i.length position ≤ next.position := by
  obtain ⟨used, hpass, _, ho, hs⟩ := accepts_readerBehind.exists_spelling h
  have hlen := length_le_of_spells ho hs
  rw [hpass.2]
  show _ ≤ position + 1 + used.length
  omega

end Insn

end ClassTemplates
