import ClassTemplates.Proofs.Insn.Reading

/-!
# Reading encoded instructions

The bytes of a well-shaped instruction read back as that instruction, with the offset of each label
as its name. How many there are does not depend on where the labels lie.

## Main definitions

- `Insn.relabel` — an instruction with other labels
- `Insn.Resolves` — a table of offsets has those that labels are named by
- `Insn.ReadsBack` — bytes that read as an instruction, whatever follows them

## Main results

- `Insn.length_encode` — the number of bytes
- `Insn.readsBack_encode` — reading them back
-/

namespace ClassTemplates

namespace Insn

/-- The instruction with other labels. -/
def relabel (f : Label → Label) : Insn → Insn
  | label l => label (f l)
  | jump opcode target => jump opcode (f target)
  | tableSwitch otherwise low high targets =>
    tableSwitch (f otherwise) low high (targets.map f)
  | lookupSwitch otherwise pairs =>
    lookupSwitch (f otherwise) (pairs.map fun x => (x.1, f x.2))
  | insn => insn

@[simp] theorem length_relabel {f : Label → Label} {position : Nat} {i : Insn} :
    (i.relabel f).length position = i.length position := by
  cases i <;> simp [relabel, length]

@[simp] theorem isLabel_relabel {f : Label → Label} {i : Insn} :
    (i.relabel f).isLabel = i.isLabel := by
  cases i <;> rfl

theorem placed?_relabel {f : Label → Label} {i : Insn} :
    (i.relabel f).placed? = i.placed?.map f := by
  cases i <;> rfl

theorem targets_relabel {f : Label → Label} {i : Insn} :
    (i.relabel f).targets = i.targets.map f := by
  cases i <;> simp [relabel, targets]

/-- The offset that a table has for a label is the number of its new name, and fits a word. -/
def Resolves (place : Label → Except LayoutError Nat) (f : Label → Label) (l : Label) : Prop :=
  place l = .ok (f l).id ∧ (f l).id ≤ 65535

variable {place : Label → Except LayoutError Nat} {f : Label → Label} {position : Nat} {i : Insn}
  {bytes : Bytes}

/-! ### Lengths -/

theorem length_wideOffset {target : Nat} : (wideOffset position target).length = 4 := rfl

theorem length_shortOffset {target : Nat} (h : shortOffset position target = .ok bytes) :
    bytes.length = 2 := by
  unfold shortOffset at h
  simp only at h
  split at h
  · cases h
    rfl
  · cases h

theorem length_flatMap_of_length {α : Type} {g : α → Bytes} {n : Nat} {xs : List α}
    (h : ∀ x, (g x).length = n) : (xs.flatMap g).length = n * xs.length := by
  simp [List.length_flatMap, h, Nat.mul_comm]

/-- An instruction has as many bytes as it was given room for. -/
theorem length_encode (h : i.encode place position = .ok bytes) :
    bytes.length = i.length position := by
  cases i with
  | jump opcode target =>
    obtain ⟨t, -, h⟩ := bind_eq_ok.1 h
    split at h
    · rename_i hwide
      cases h
      simp only [length, if_pos hwide]
      rfl
    · rename_i hwide
      obtain ⟨offset, ho, h⟩ := bind_eq_ok.1 h
      cases h
      simp only [length, if_neg hwide, List.length_cons, length_shortOffset ho]
  | tableSwitch otherwise low high targets =>
    obtain ⟨o, -, h⟩ := bind_eq_ok.1 h
    obtain ⟨ts, hts, h⟩ := bind_eq_ok.1 h
    cases h
    have hlen := (mapM_eq_ok.1 hts).length_eq
    simp only [List.length_cons, List.length_append, List.length_replicate, length_wideOffset,
      BigEndian.length_word32, length_flatMap_of_length fun _ => length_wideOffset, length, hlen]
    omega
  | lookupSwitch otherwise pairs =>
    obtain ⟨o, -, h⟩ := bind_eq_ok.1 h
    obtain ⟨ps, hps, h⟩ := bind_eq_ok.1 h
    cases h
    have hlen := (mapM_eq_ok.1 hps).length_eq
    have hpair (x : Int32 × Nat) :
        (BigEndian.word32 x.1.toUInt32 ++ wideOffset position x.2).length = 8 := rfl
    simp only [List.length_cons, List.length_append, List.length_replicate, length_wideOffset,
      BigEndian.length_count32, length_flatMap_of_length hpair, length, hlen]
    omega
  | ldc index | localVar opcode index | iinc index delta =>
    cases h
    simp only [length]
    split <;> rfl
  | _ =>
    cases h
    rfl

/-! ### Distances -/

theorem Resolves.inReach {l : Label} (hl : Resolves place f l) (hp : position ≤ 65535) :
    InReach position (f l) := by
  obtain ⟨-, hf⟩ := hl
  have hdistance : distance position (f l).id = (f l).id - position := rfl
  constructor <;> omega

theorem shortOffset_eq_ok {target : Nat} (h : shortOffset position target = .ok bytes) :
    ∃ d : Int16, d.toInt = distance position target ∧ bytes = BigEndian.word16 d.toUInt16 := by
  unfold shortOffset at h
  simp only at h
  split at h
  · rename_i hd
    cases h
    exact ⟨_, Int16.toInt_ofInt_of_le hd.1 (by omega), rfl⟩
  · cases h

/-! ### Reading back -/

/-- What follows the opcode of bytes is read as an instruction, and nothing behind it is. -/
def ReadsBack (position : Nat) (bytes : Bytes) (i : Insn) : Prop :=
  ∃ opcode rest, bytes = opcode :: rest ∧ ∀ more,
    (readerBehind position opcode).run ⟨rest ++ more, position + 1⟩ =
      .ok (i, ⟨more, position + bytes.length⟩)

theorem readsBack_of_spells {opcode : UInt8} {operands : Operands} {used : Bytes}
    (ho : Operands.ofOpcode opcode = some operands) (h : Spells position opcode operands i used) :
    ReadsBack position (opcode :: used) i := by
  refine ⟨opcode, used, rfl, fun more => ?_⟩
  rw [accepts_readerBehind.run ⟨operands, ho, h⟩, List.length_cons, Nat.add_assoc, Nat.add_comm 1]

theorem toUInt16_toUInt8 {w : UInt16} (h : fitsByte w = true) : w.toUInt8.toUInt16 = w := by
  have hle : w.toNat ≤ 255 := of_decide_eq_true h
  apply UInt16.toNat_inj.1
  rw [UInt8.toNat_toUInt16, UInt16.toNat_toUInt8]
  omega

theorem toInt16_toInt8 {d : Int16} (h : fitsSignedByte d = true) :
    d.toUInt16.toUInt8.toInt8.toInt16 = d := by
  obtain ⟨hlow, hhigh⟩ := Bool.and_eq_true_iff.1 h
  have hlow := of_decide_eq_true hlow
  have hhigh := of_decide_eq_true hhigh
  have hnarrow : d.toUInt16.toUInt8.toInt8 = d.toInt8 := by
    apply Int8.toBitVec_inj.1
    have hle : 8 ≤ 16 := by decide
    exact (BitVec.signExtend_eq_setWidth_of_le d.toBitVec hle).symm
  rw [hnarrow]
  apply Int16.toInt_inj.1
  rw [Int8.toInt_toInt16, Int16.toInt_toInt8]
  exact Int.bmod_eq_of_le (by omega) (by omega)

theorem readsBack_ldc {index : UInt16} (h : (ldc index).encode place position = .ok bytes) :
    ReadsBack position bytes (ldc index) := by
  cases h
  split
  · rename_i hb
    have hspells : Spells position Opcode.ldc .shortConstant _ _ := .shortConstant index.toUInt8
    rw [toUInt16_toUInt8 hb] at hspells
    exact readsBack_of_spells rfl hspells
  · exact readsBack_of_spells rfl (.wideConstant index)

theorem readsBack_localVar {opcode : UInt8} {index : UInt16}
    (hw : (localVar opcode index).WellShaped)
    (h : (localVar opcode index).encode place position = .ok bytes) :
    ReadsBack position bytes (localVar opcode index) := by
  cases h
  split
  · rename_i hb
    have hspells : Spells position opcode .localIndex _ _ := .localIndex index.toUInt8
    rw [toUInt16_toUInt8 hb] at hspells
    exact readsBack_of_spells hw hspells
  · exact readsBack_of_spells rfl (.widenedIndex opcode index (namesLocal_of_ofOpcode hw))

theorem readsBack_iinc {index : UInt16} {delta : Int16}
    (h : (iinc index delta).encode place position = .ok bytes) :
    ReadsBack position bytes (iinc index delta) := by
  cases h
  split
  · rename_i hb
    obtain ⟨hi, hd⟩ := Bool.and_eq_true_iff.1 hb
    have hspells : Spells position Opcode.iinc .increment _ _ :=
      .increment index.toUInt8 delta.toUInt16.toUInt8
    rw [toUInt16_toUInt8 hi, toInt16_toInt8 hd] at hspells
    exact readsBack_of_spells rfl hspells
  · exact readsBack_of_spells rfl (.widenedIncrement index delta.toUInt16)

theorem readsBack_jump {opcode : UInt8} {target : Label} (hw : (jump opcode target).WellShaped)
    (hf : Resolves place f target) (hp : position ≤ 65535)
    (h : (jump opcode target).encode place position = .ok bytes) :
    ReadsBack position bytes (jump opcode (f target)) := by
  obtain ⟨t, ht, h⟩ := bind_eq_ok.1 h
  rw [hf.1] at ht
  cases ht
  simp only [WellShaped] at hw
  split at h
  · rename_i hwide
    cases h
    rw [if_pos hwide] at hw
    exact readsBack_of_spells hw (.wideBranch _ (hf.inReach hp))
  · rename_i hshort
    obtain ⟨offset, ho, h⟩ := bind_eq_ok.1 h
    cases h
    rw [if_neg hshort] at hw
    obtain ⟨d, hd, rfl⟩ := shortOffset_eq_ok ho
    refine readsBack_of_spells hw (.shortBranch _ _ ?_ (hf.inReach hp).offset_lt)
    rw [Int16.toInt16_toUInt16, hd]

theorem readsBack_tableSwitch {otherwise : Label} {low high : Int32} {targets : List Label}
    (hw : (tableSwitch otherwise low high targets).WellShaped)
    (hf : ∀ l ∈ otherwise :: targets, Resolves place f l) (hp : position ≤ 65535)
    (h : (tableSwitch otherwise low high targets).encode place position = .ok bytes) :
    ReadsBack position bytes (tableSwitch (f otherwise) low high (targets.map f)) := by
  rw [List.forall_mem_cons] at hf
  obtain ⟨o, ho, h⟩ := bind_eq_ok.1 h
  obtain ⟨ts, hts, h⟩ := bind_eq_ok.1 h
  rw [hf.1.1] at ho
  rw [mapM_eq_ok_map fun l hl => (hf.2 l hl).1] at hts
  cases ho
  cases hts
  cases h
  have hreach : ∀ l ∈ targets.map f, InReach position l :=
    List.forall_mem_map.2 fun l hl => (hf.2 l hl).inReach hp
  have hlen : (targets.map f).length = (high.toInt - low.toInt + 1).toNat := by
    rw [List.length_map, hw.2]
  have hspells : Spells position Opcode.tableswitch .tableSwitch _ _ :=
    .tableSwitch (List.replicate (switchPadding position) 0) (f otherwise) low.toUInt32
      high.toUInt32 (targets.map f) List.length_replicate (hf.1.inReach hp) hw.1 hlen hreach
  simp only [List.append_assoc]
  rw [List.flatMap_map] at hspells ⊢
  exact readsBack_of_spells rfl hspells

theorem readsBack_lookupSwitch {otherwise : Label} {pairs : List (Int32 × Label)}
    (hlen : pairs.length < 4294967296)
    (hf : ∀ l ∈ otherwise :: pairs.map (·.2), Resolves place f l) (hp : position ≤ 65535)
    (h : (lookupSwitch otherwise pairs).encode place position = .ok bytes) :
    ReadsBack position bytes
      (lookupSwitch (f otherwise) (pairs.map fun x => (x.1, f x.2))) := by
  rw [List.forall_mem_cons, List.forall_mem_map] at hf
  obtain ⟨o, ho, h⟩ := bind_eq_ok.1 h
  obtain ⟨ps, hps, h⟩ := bind_eq_ok.1 h
  rw [hf.1.1] at ho
  cases ho
  have hpairs : ∀ x ∈ pairs, (do
      let target ← place x.2
      pure (x.1, target) : Except LayoutError (Int32 × Nat)) = .ok (x.1, (f x.2).id) :=
    fun x hx => bind_eq_ok.2 ⟨_, (hf.2 x hx).1, rfl⟩
  rw [mapM_eq_ok_map hpairs] at hps
  cases hps
  cases h
  have hreach : ∀ x ∈ pairs.map fun x => (x.1, f x.2), InReach position x.2 :=
    List.forall_mem_map.2 fun x hx => (hf.2 x hx).inReach hp
  rw [← List.length_map fun x => (x.1, f x.2)] at hlen
  have hspells : Spells position Opcode.lookupswitch .lookupSwitch _ _ :=
    .lookupSwitch (List.replicate (switchPadding position) 0) (f otherwise) _
      List.length_replicate (hf.1.inReach hp) hlen hreach
  simp only [List.append_assoc, BigEndian.count32, List.length_map]
  simp only [BigEndian.count32, List.length_map] at hspells
  rw [List.flatMap_map] at hspells ⊢
  exact readsBack_of_spells rfl hspells

/-- The bytes of a well-shaped instruction read back with the offset of each label as its name. -/
theorem readsBack_encode (hw : i.WellShaped) (hf : ∀ l ∈ i.targets, Resolves place f l)
    (hp : position + i.length position ≤ 65535)
    (h : i.encode place position = .ok bytes) : ReadsBack position bytes (i.relabel f) := by
  have hp' : position ≤ 65535 := by omega
  cases i with
  | label l => cases hw
  | op opcode =>
    cases h
    exact readsBack_of_spells hw .none
  | bipush value =>
    cases h
    exact readsBack_of_spells rfl (.signedByte value.toUInt8)
  | sipush value =>
    cases h
    exact readsBack_of_spells rfl (.signedWord value.toUInt16)
  | newArray primitive =>
    cases h
    exact readsBack_of_spells rfl (.primitive primitive)
  | ldc2 index =>
    cases h
    exact readsBack_of_spells rfl (.doubleConstant index)
  | field opcode index =>
    cases h
    exact readsBack_of_spells hw (.field index)
  | invoke opcode index =>
    cases h
    exact readsBack_of_spells hw (.method index)
  | type opcode index =>
    cases h
    exact readsBack_of_spells hw (.type index)
  | invokeInterface index count =>
    cases h
    exact readsBack_of_spells rfl (.interfaceMethod index count 0)
  | invokeDynamic index =>
    cases h
    exact readsBack_of_spells rfl (.dynamicCall index 0)
  | multiNewArray index dimensions =>
    cases h
    exact readsBack_of_spells rfl (.dimensions index dimensions)
  | ldc index => exact readsBack_ldc h
  | localVar opcode index => exact readsBack_localVar hw h
  | iinc index delta => exact readsBack_iinc h
  | jump opcode target => exact readsBack_jump hw (hf target List.mem_cons_self) hp' h
  | tableSwitch otherwise low high targets => exact readsBack_tableSwitch hw hf hp' h
  | lookupSwitch otherwise pairs =>
    have hlen : pairs.length < 4294967296 := by
      simp only [length] at hp
      omega
    exact readsBack_lookupSwitch hlen hf hp' h

end Insn

end ClassTemplates
