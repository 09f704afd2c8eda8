import ClassTemplates.Proofs.Insn.Spellings
import ClassTemplates.Proofs.Outcome

/-!
# What is read from a code array

A code array that can be read is a sequence of instructions, one behind the other. Their operands
fit their opcodes, and they place no labels.

## Main definitions

- `Insn.WellShaped` — an instruction with operands of the kind that its opcode takes
- `Insn.Reads` — bytes from a position on, as instructions with their offsets

## Main results

- `Insn.wellShaped_of_spells` — what is spelled behind an opcode fits it
- `Insn.decode_eq_ok` — decoding is reading from the start
- `Insn.Reads.wellShaped` — the instructions that are read
- `Insn.Reads.sorted`, `Reads.bounds` — their offsets
-/

namespace ClassTemplates

/-! ### Instructions -/

namespace Insn

open Operands in
/-- The operands of the instruction are of the kind that its opcode takes. -/
def WellShaped : Insn → Prop
  | label _ => False
  | op opcode => ofOpcode opcode = some .none
  | localVar opcode _ => ofOpcode opcode = some .localIndex
  | jump opcode _ =>
    ofOpcode opcode = some (if Opcode.isWideJump opcode then .wideBranch else .shortBranch)
  | tableSwitch _ low high targets =>
    low.toInt ≤ high.toInt ∧ targets.length = (high.toInt - low.toInt + 1).toNat
  | field opcode _ => ofOpcode opcode = some .field
  | invoke opcode _ => ofOpcode opcode = some .method
  | type opcode _ => ofOpcode opcode = some .type
  | _ => True

set_option maxRecDepth 1000 in
theorem ofOpcode_of_namesLocal {opcode : UInt8} (h : Opcode.namesLocal opcode) :
    Operands.ofOpcode opcode = some .localIndex := by
  have hall : ∀ o : UInt8, Opcode.namesLocal o → Operands.ofOpcode o = some .localIndex :=
    BigEndian.forall_byte (by decide)
  exact hall opcode h

set_option maxRecDepth 1000 in
theorem namesLocal_of_ofOpcode {opcode : UInt8} (h : Operands.ofOpcode opcode = some .localIndex) :
    Opcode.namesLocal opcode := by
  have hall : ∀ o : UInt8, Operands.ofOpcode o = some .localIndex → Opcode.namesLocal o :=
    BigEndian.forall_byte (by decide)
  exact hall opcode h

set_option maxRecDepth 1000 in
theorem isWideJump_of_ofOpcode {opcode : UInt8} (h : Operands.ofOpcode opcode = some .wideBranch) :
    Opcode.isWideJump opcode = true := by
  have hall : ∀ o : UInt8, Operands.ofOpcode o = some .wideBranch → Opcode.isWideJump o = true :=
    BigEndian.forall_byte (by decide)
  exact hall opcode h

set_option maxRecDepth 1000 in
theorem not_isWideJump_of_ofOpcode {opcode : UInt8}
    (h : Operands.ofOpcode opcode = some .shortBranch) :
    Opcode.isWideJump opcode = false := by
  have hall : ∀ o : UInt8, Operands.ofOpcode o = some .shortBranch → Opcode.isWideJump o = false :=
    BigEndian.forall_byte (by decide)
  exact hall opcode h

variable {opcode : UInt8} {position : Nat} {c next : Cursor} {insn : Insn}

theorem exists_of_isLabel (h : insn.isLabel = true) : ∃ l, insn = label l := by
  cases insn <;> first | exact ⟨_, rfl⟩ | cases h

theorem placed?_of_not_isLabel (h : insn.isLabel = false) : insn.placed? = none := by
  cases insn <;> first | rfl | cases h

theorem label_or_not (insn : Insn) : (∃ l, insn = label l) ∨ insn.isLabel = false := by
  cases insn <;> first | exact .inl ⟨_, rfl⟩ | exact .inr rfl

/-- What is spelled has operands of the kind that its opcode takes. -/
theorem wellShaped_of_spells {operands : Operands} {used : Bytes}
    (ho : Operands.ofOpcode opcode = some operands)
    (h : Spells position opcode operands insn used) : insn.WellShaped := by
  cases h with
  | none | localIndex | field | method | type => exact ho
  | shortBranch =>
    simp only [WellShaped, not_isWideJump_of_ofOpcode ho]
    exact ho
  | wideBranch =>
    simp only [WellShaped, isWideJump_of_ofOpcode ho]
    exact ho
  | tableSwitch _ _ _ _ _ _ _ hle hlen => exact ⟨hle, hlen⟩
  | widenedIndex _ _ hlocal => exact ofOpcode_of_namesLocal hlocal
  | _ => trivial

theorem wellShaped_of_readerBehind (h : (readerBehind position opcode).run c = .ok (insn, next)) :
    insn.WellShaped := by
  obtain ⟨_, -, _, ho, hs⟩ := accepts_readerBehind.exists_spelling h
  exact wellShaped_of_spells ho hs

/-- The bytes from a position on, read as instructions with their offsets. -/
inductive Reads : Cursor → List (Nat × Insn) → Prop
  | nil {position : Nat} : Reads ⟨[], position⟩ []
  | cons {opcode : UInt8} {rest : Bytes} {position : Nat} {insn : Insn} {next : Cursor}
      {found : List (Nat × Insn)} :
      (readerBehind position opcode).run ⟨rest, position + 1⟩ = .ok (insn, next) →
      Reads next found → Reads ⟨opcode :: rest, position⟩ ((position, insn) :: found)

theorem decodeOnto_eq_ok {done out : Array (Nat × Insn)} :
    decodeOnto done c = .ok out ↔ ∃ found, Reads c found ∧ out.toList = done.toList ++ found := by
  fun_induction decodeOnto done c with
  | case1 done position =>
    constructor
    · intro h
      cases h
      exact ⟨[], .nil, by simp⟩
    · rintro ⟨found, hr, hout⟩
      cases hr
      rw [List.append_nil] at hout
      rw [Array.toList_inj.1 hout]
  | case2 done position opcode rest e he =>
    constructor
    · intro h
      cases h
    · rintro ⟨found, hr, -⟩
      cases hr with
      | cons hi _ =>
        rw [he] at hi
        cases hi
  | case3 done position opcode rest insn next hi ih =>
    rw [ih]
    constructor
    · rintro ⟨found, hr, hout⟩
      exact ⟨_, .cons hi hr, by simp [hout]⟩
    · rintro ⟨found, hr, hout⟩
      cases hr with
      | cons hi' hr =>
        rw [hi] at hi'
        cases hi'
        exact ⟨_, hr, by simp [hout]⟩

/-- Decoding is reading from the start. -/
theorem decode_eq_ok {code : Bytes} {decoded : List (Nat × Insn)} :
    decode code = .ok decoded ↔ Reads (.start code) decoded := by
  unfold decode
  constructor
  · intro h
    split at h
    · cases h
    · rename_i done hdone
      cases h
      obtain ⟨found, hr, hout⟩ := decodeOnto_eq_ok.1 hdone
      simpa [hout] using hr
  · intro h
    rw [decodeOnto_eq_ok.2 ⟨decoded, h, rfl⟩]
    rfl

/-! ### Offsets -/

theorem Reads.wellShaped {found : List (Nat × Insn)} (h : Reads c found) :
    ∀ x ∈ found, x.2.WellShaped := by
  induction h with
  | nil => simp
  | cons hi _ ih => exact List.forall_mem_cons.2 ⟨wellShaped_of_readerBehind hi, ih⟩

/-- The first instruction stands at the position. -/
theorem Reads.fst_head {x : Nat × Insn} {found : List (Nat × Insn)} (h : Reads c (x :: found)) :
    x.1 = c.position := by
  cases h
  rfl

/-- The offsets lie between the position and the end. -/
theorem Reads.bounds {found : List (Nat × Insn)} (h : Reads c found) :
    ∀ x ∈ found, c.position ≤ x.1 ∧ x.1 < c.position + c.rest.length := by
  induction h with
  | nil => simp
  | @cons opcode rest position insn next found hi _ ih =>
    have hend := ((readerBehind position opcode).advances hi).position_add_length
    have hle := ((readerBehind position opcode).advances hi).length_le
    simp only at hend hle
    refine List.forall_mem_cons.2 ⟨⟨le_refl _, by simp⟩, fun x hx => ?_⟩
    obtain ⟨hlow, hhigh⟩ := ih x hx
    simp only [List.length_cons]
    omega

/-- The offsets increase. -/
theorem Reads.sorted {found : List (Nat × Insn)} (h : Reads c found) :
    (found.map (·.1)).Pairwise (· < ·) := by
  induction h with
  | nil => exact .nil
  | @cons opcode rest position insn next found hi hr ih =>
    refine List.pairwise_cons.2 ⟨fun o ho => ?_, ih⟩
    obtain ⟨x, hx, rfl⟩ := List.mem_map.1 ho
    have hend := ((readerBehind position opcode).advances hi).position_add_length
    have hle := ((readerBehind position opcode).advances hi).length_le
    have hlow := (hr.bounds x hx).1
    simp only at hend hle
    simp only
    omega

end Insn

end ClassTemplates
