import ClassTemplates.Insn.Decoding
import ClassTemplates.Proofs.Format.Readers

/-!
# How instructions are spelled

The bytes behind an opcode are operands of the kind that it takes. For each kind there is one
spelling, except behind the prefix that widens another instruction, where there are two. The reader
of an instruction accepts these spellings and no other bytes.

## Main definitions

- `Insn.InReach` — a label that an offset of four bytes reaches
- `Insn.Spells` — the spellings of instructions, by the kind of their operands

## Main results

- `Insn.acceptsWritten_wideTarget`, `acceptsWritten_keyedTarget` — branch targets and their bytes
- `Insn.accepts_operandReader`, `accepts_readerBehind` — what is read is what is spelled
-/

namespace ClassTemplates

namespace Insn

open Reader hiding run_bind_eq_ok run_pure_eq_ok

variable {position : Nat} {opcode : UInt8} {c next : Cursor} {l : Label}

/-! ### Spellings -/

/-- The distance to the label and its offset fit four bytes. -/
structure InReach (position : Nat) (l : Label) : Prop where
  le_distance : -2147483648 ≤ distance position l.id
  distance_lt : distance position l.id < 2147483648
  offset_lt : l.id < 4294967296

open BigEndian in
/-- The bytes spell operands of a kind behind the opcode of an instruction at `position`. -/
inductive Spells (position : Nat) (opcode : UInt8) : Operands → Insn → Bytes → Prop
  | none : Spells position opcode .none (op opcode) []
  | signedByte (value : UInt8) : Spells position opcode .signedByte (bipush value.toInt8) [value]
  | signedWord (value : UInt16) :
      Spells position opcode .signedWord (sipush value.toInt16) (word16 value)
  | shortConstant (index : UInt8) :
      Spells position opcode .shortConstant (ldc index.toUInt16) [index]
  | wideConstant (index : UInt16) :
      Spells position opcode .wideConstant (ldc index) (word16 index)
  | doubleConstant (index : UInt16) :
      Spells position opcode .doubleConstant (ldc2 index) (word16 index)
  | localIndex (index : UInt8) :
      Spells position opcode .localIndex (localVar opcode index.toUInt16) [index]
  | increment (index delta : UInt8) :
      Spells position opcode .increment (iinc index.toUInt16 delta.toInt8.toInt16) [index, delta]
  | shortBranch (relative : UInt16) (target : Label) :
      distance position target.id = relative.toInt16.toInt → target.id < 4294967296 →
      Spells position opcode .shortBranch (jump opcode target) (word16 relative)
  | wideBranch (target : Label) : InReach position target →
      Spells position opcode .wideBranch (jump opcode target) (wideOffset position target.id)
  | tableSwitch (padding : Bytes) (otherwise : Label) (low high : UInt32) (targets : List Label) :
      padding.length = switchPadding position → InReach position otherwise →
      low.toInt32.toInt ≤ high.toInt32.toInt →
      targets.length = (high.toInt32.toInt - low.toInt32.toInt + 1).toNat →
      (∀ l ∈ targets, InReach position l) →
      Spells position opcode .tableSwitch
        (tableSwitch otherwise low.toInt32 high.toInt32 targets)
        (padding ++ (wideOffset position otherwise.id ++ (word32 low ++ (word32 high
          ++ targets.flatMap fun l => wideOffset position l.id))))
  | lookupSwitch (padding : Bytes) (otherwise : Label) (pairs : List (Int32 × Label)) :
      padding.length = switchPadding position → InReach position otherwise →
      pairs.length < 4294967296 → (∀ x ∈ pairs, InReach position x.2) →
      Spells position opcode .lookupSwitch (lookupSwitch otherwise pairs)
        (padding ++ (wideOffset position otherwise.id ++ (count32 pairs
          ++ pairs.flatMap fun x => word32 x.1.toUInt32 ++ wideOffset position x.2.id)))
  | field (index : UInt16) : Spells position opcode .field (field opcode index) (word16 index)
  | method (index : UInt16) : Spells position opcode .method (invoke opcode index) (word16 index)
  | interfaceMethod (index : UInt16) (count reserved : UInt8) :
      Spells position opcode .interfaceMethod (invokeInterface index count)
        (word16 index ++ [count, reserved])
  | dynamicCall (index reserved : UInt16) :
      Spells position opcode .dynamicCall (invokeDynamic index) (word16 index ++ word16 reserved)
  | type (index : UInt16) : Spells position opcode .type (type opcode index) (word16 index)
  | primitive (primitive : UInt8) :
      Spells position opcode .primitive (newArray primitive) [primitive]
  | widenedIndex (widened : UInt8) (index : UInt16) :
      Opcode.namesLocal widened →
      Spells position opcode .widened (localVar widened index) (widened :: word16 index)
  | widenedIncrement (index delta : UInt16) :
      Spells position opcode .widened (iinc index delta.toInt16)
        (Opcode.iinc :: (word16 index ++ word16 delta))
  | dimensions (index : UInt16) (dimensions : UInt8) :
      Spells position opcode .dimensions (multiNewArray index dimensions)
        (word16 index ++ [dimensions])

/-! ### Branch targets -/

theorem run_branchTarget_eq_ok {d : Int32} :
    (branchTarget position d).run c = .ok (l, next) ↔
      distance position l.id = d.toInt ∧ l.id < 4294967296 ∧ c = next := by
  constructor
  · intro h
    unfold branchTarget at h
    simp only at h
    split at h
    · rename_i htarget
      obtain ⟨hle, hlt⟩ := htarget
      obtain ⟨rfl, rfl⟩ := Reader.run_pure_eq_ok.1 h
      refine ⟨?_, (Int.toNat_lt hle).2 hlt, rfl⟩
      simp only [distance, Int.toNat_of_nonneg hle]
      omega
    · cases h
  · rintro ⟨hd, hlt, rfl⟩
    have hsum : (position : Int) + d.toInt = l.id := by
      rw [← hd, distance]
      omega
    simp only [branchTarget, hsum]
    rw [if_pos ⟨Int.natCast_nonneg l.id, by omega⟩]
    rfl

theorem accepts_branchTarget {d : Int32} : (branchTarget position d).Accepts fun l bytes =>
    distance position l.id = d.toInt ∧ l.id < 4294967296 ∧ bytes = [] := by
  intro c l stop
  rw [run_branchTarget_eq_ok]
  constructor
  · rintro ⟨hd, hlt, rfl⟩
    exact ⟨[], Cursor.passes_nil.2 rfl, hd, hlt, rfl⟩
  · rintro ⟨_, hpass, hd, hlt, rfl⟩
    exact ⟨hd, hlt, Cursor.passes_nil.1 hpass⟩

/-- A target is read from the four bytes of its distance. -/
theorem acceptsWritten_wideTarget :
    (wideTarget position).AcceptsWritten (fun l => wideOffset position l.id)
      (InReach position) := by
  refine (accepts_word32.bind fun relative => accepts_branchTarget).congr fun l bytes => ?_
  constructor
  · rintro ⟨relative, _, _, rfl, ⟨hd, hlt, rfl⟩, rfl⟩
    refine ⟨⟨hd ▸ Int32.le_toInt _, hd ▸ Int32.toInt_lt _, hlt⟩, ?_⟩
    simp only [wideOffset, hd, Int32.ofInt_toInt, UInt32.toUInt32_toInt32, List.append_nil]
  · rintro ⟨hl, rfl⟩
    refine ⟨_, _, _, rfl, ⟨?_, hl.offset_lt, rfl⟩, (List.append_nil _).symm⟩
    rw [Int32.toInt32_toUInt32, Int32.toInt_ofInt_of_le hl.le_distance hl.distance_lt]

/-- A key and its target are read from their bytes. -/
theorem acceptsWritten_keyedTarget :
    (keyedTarget position).AcceptsWritten
      (fun x => BigEndian.word32 x.1.toUInt32 ++ wideOffset position x.2.id)
      fun x => InReach position x.2 := by
  refine (accepts_word32.bind fun key => acceptsWritten_wideTarget.map _).congr ?_
  rintro ⟨key, target⟩ bytes
  constructor
  · rintro ⟨key, _, _, rfl, ⟨target, ⟨hl, rfl⟩, ⟨⟩⟩, rfl⟩
    exact ⟨hl, rfl⟩
  · rintro ⟨hl, rfl⟩
    exact ⟨key.toUInt32, _, _, rfl, ⟨target, ⟨hl, rfl⟩, rfl⟩, rfl⟩

theorem takes_wideTarget : (wideTarget position).Takes 4 :=
  fun _ _ _ h => (acceptsWritten_wideTarget.passes h).2.2

theorem takes_keyedTarget : (keyedTarget position).Takes 8 :=
  fun _ _ _ h => (acceptsWritten_keyedTarget.passes h).2.2

theorem run_needs_eq_ok {size : Nat} {u : Unit} :
    (needs size).run c = .ok (u, next) ↔ size ≤ c.rest.length ∧ c = next := by
  show (if size ≤ c.rest.length then (pure () : Reader Unit) else _).run c = _ ↔ _
  split
  · rename_i hsize
    rw [Reader.run_pure_eq_ok]
    exact ⟨fun h => ⟨hsize, h.2⟩, fun h => ⟨rfl, h.2⟩⟩
  · rename_i hsize
    constructor
    · intro h
      cases h
    · intro h
      exact absurd h.1 hsize

/-- Bytes that are read anyway can be asked for first. -/
theorem accepts_needs {α : Type} {q : Reader α} {S : α → Bytes → Prop} {size n : Nat}
    (hq : q.Accepts S) (hn : q.Takes n) (hsize : size ≤ n) :
    (needs size >>= fun _ => q).Accepts S := by
  intro c a stop
  rw [Reader.run_bind_eq_ok]
  constructor
  · rintro ⟨_, _, hneeds, h⟩
    obtain ⟨-, rfl⟩ := run_needs_eq_ok.1 hneeds
    exact hq.exists_spelling h
  · rintro ⟨bytes, hpass, hS⟩
    have h := (hq _ _ _).2 ⟨bytes, hpass, hS⟩
    have hlen := hpass.2
    rw [hn _ _ _ h] at hlen
    refine ⟨(), c, run_needs_eq_ok.2 ⟨?_, rfl⟩, h⟩
    rw [hpass.1, List.length_append]
    omega

/-! ### Operands -/

theorem accepts_tableReader :
    (tableReader position).Accepts (Spells position opcode .tableSwitch) := by
  refine ((accepts_take _).bind fun _ => acceptsWritten_wideTarget.bind fun _ =>
    accepts_word32.bind fun low => accepts_word32.bind fun high => Accepts.unless fun _ =>
      accepts_needs ((acceptsWritten_wideTarget.times _).map _)
        ((takes_wideTarget.times _).map _) ?_).congr fun i bytes => ?_
  · omega
  · constructor
    · rintro ⟨_, padding, _, ⟨rfl, hpadding⟩, ⟨otherwise, _, _, ⟨ho, rfl⟩, ⟨low, _, _, rfl,
        ⟨high, _, _, rfl, ⟨hle, targets, ⟨hlen, hts, rfl⟩, rfl⟩, rfl⟩, rfl⟩, rfl⟩, rfl⟩
      exact .tableSwitch padding otherwise low high targets hpadding ho (Int.not_lt.1 hle) hlen hts
    · intro h
      cases h with
      | tableSwitch padding otherwise low high targets hpadding ho hle hlen hts =>
        exact ⟨padding, _, _, ⟨rfl, hpadding⟩, ⟨otherwise, _, _, ⟨ho, rfl⟩, ⟨low, _, _, rfl,
          ⟨high, _, _, rfl, ⟨Int.not_lt.2 hle, targets, ⟨hlen, hts, rfl⟩, rfl⟩, rfl⟩, rfl⟩, rfl⟩,
          rfl⟩

theorem accepts_lookupReader :
    (lookupReader position).Accepts (Spells position opcode .lookupSwitch) := by
  refine ((accepts_take _).bind fun _ => acceptsWritten_wideTarget.bind fun _ =>
    accepts_word32.bind fun count => accepts_needs ((acceptsWritten_keyedTarget.times _).map _)
      ((takes_keyedTarget.times _).map _) ?_).congr fun i bytes => ?_
  · omega
  · constructor
    · rintro ⟨_, padding, _, ⟨rfl, hpadding⟩, ⟨otherwise, _, _, ⟨ho, rfl⟩, ⟨count, _, _, rfl,
        ⟨pairs, ⟨hlen, hts, rfl⟩, rfl⟩, rfl⟩, rfl⟩, rfl⟩
      have hcount : BigEndian.word32 count = BigEndian.count32 pairs := by
        rw [BigEndian.count32, hlen, UInt32.ofNat_toNat]
      rw [hcount]
      exact .lookupSwitch padding otherwise pairs hpadding ho (hlen ▸ count.toNat_lt) hts
    · intro h
      cases h with
      | lookupSwitch padding otherwise pairs hpadding ho hlen hts =>
        exact ⟨padding, _, _, ⟨rfl, hpadding⟩, ⟨otherwise, _, _, ⟨ho, rfl⟩, ⟨_, _, _, rfl,
          ⟨pairs, ⟨(UInt32.toNat_ofNat_of_lt' hlen).symm, hts, rfl⟩, rfl⟩, rfl⟩, rfl⟩, rfl⟩

theorem accepts_widenedReader :
    (widenedReader position).Accepts (Spells position opcode .widened) := by
  intro c i stop
  constructor
  · intro h
    obtain ⟨widened, m, hop, h⟩ := Reader.run_bind_eq_ok.1 h
    have hop := passes_byte hop
    split at h
    · rename_i hiinc
      subst hiinc
      obtain ⟨_, hpass, index, _, _, rfl, ⟨delta, rfl, rfl⟩, rfl⟩ :=
        (accepts_word16.bind fun index => accepts_word16.map _).exists_spelling h
      exact ⟨_, hop.append hpass, .widenedIncrement index delta⟩
    · split at h
      · rename_i hlocal
        obtain ⟨_, hpass, index, rfl, rfl⟩ := (accepts_word16.map _).exists_spelling h
        exact ⟨_, hop.append hpass, .widenedIndex widened index hlocal⟩
      · cases h
  · rintro ⟨_, hpass, h⟩
    cases h with
    | widenedIndex widened index hlocal =>
      obtain ⟨m, hop, hindex⟩ := (Cursor.passes_append (u := [widened])).1 hpass
      have hne : widened ≠ Opcode.iinc := by
        rintro rfl
        cases hlocal
      refine Reader.run_bind_eq_ok.2 ⟨widened, m, (accepts_byte _ _ _).2 ⟨_, hop, rfl⟩, ?_⟩
      rw [if_neg hne, if_pos hlocal]
      exact (accepts_word16.map _ _ _ _).2 ⟨_, hindex, index, rfl, rfl⟩
    | widenedIncrement index delta =>
      obtain ⟨m, hop, hpair⟩ := (Cursor.passes_append (u := [Opcode.iinc])).1 hpass
      refine Reader.run_bind_eq_ok.2 ⟨_, m, (accepts_byte _ _ _).2 ⟨_, hop, rfl⟩, ?_⟩
      rw [if_pos rfl]
      exact (accepts_word16.bind (fun index => accepts_word16.map _) _ _ _).2
        ⟨_, hpair, index, _, _, rfl, ⟨delta, rfl, rfl⟩, rfl⟩

/-- Operands are read from their spellings. -/
theorem accepts_operandReader {operands : Operands} :
    (operandReader position opcode operands).Accepts (Spells position opcode operands) := by
  cases operands with
  | none =>
    refine (accepts_pure _).congr fun i bytes => ⟨?_, ?_⟩
    · rintro ⟨rfl, rfl⟩
      exact .none
    · rintro ⟨⟩
      exact ⟨rfl, rfl⟩
  | signedByte | shortConstant | localIndex | primitive =>
    refine (accepts_byte.map _).congr fun i bytes => ⟨?_, ?_⟩
    · rintro ⟨value, rfl, rfl⟩
      constructor
    · rintro ⟨⟩
      exact ⟨_, rfl, rfl⟩
  | signedWord | wideConstant | doubleConstant | field | method | type =>
    refine (accepts_word16.map _).congr fun i bytes => ⟨?_, ?_⟩
    · rintro ⟨value, rfl, rfl⟩
      constructor
    · rintro ⟨⟩
      exact ⟨_, rfl, rfl⟩
  | increment =>
    refine (accepts_byte.bind fun index => accepts_byte.map _).congr fun i bytes => ⟨?_, ?_⟩
    · rintro ⟨index, _, _, rfl, ⟨delta, rfl, rfl⟩, rfl⟩
      exact .increment index delta
    · rintro ⟨⟩
      exact ⟨_, _, _, rfl, ⟨_, rfl, rfl⟩, rfl⟩
  | shortBranch =>
    refine (accepts_word16.bind fun _ => accepts_branchTarget.map _).congr
      fun i bytes => ⟨?_, ?_⟩
    · rintro ⟨relative, _, _, rfl, ⟨target, ⟨hd, hlt, rfl⟩, rfl⟩, rfl⟩
      rw [Int16.toInt_toInt32] at hd
      rw [List.append_nil]
      exact .shortBranch relative target hd hlt
    · intro h
      cases h with
      | shortBranch relative target hd hlt =>
        rw [← Int16.toInt_toInt32] at hd
        exact ⟨relative, _, _, rfl, ⟨target, ⟨hd, hlt, rfl⟩, rfl⟩, (List.append_nil _).symm⟩
  | wideBranch =>
    refine (acceptsWritten_wideTarget.map _).congr fun i bytes => ⟨?_, ?_⟩
    · rintro ⟨target, ⟨hl, rfl⟩, rfl⟩
      exact .wideBranch target hl
    · intro h
      cases h with
      | wideBranch target hl => exact ⟨target, ⟨hl, rfl⟩, rfl⟩
  | tableSwitch => exact accepts_tableReader
  | lookupSwitch => exact accepts_lookupReader
  | interfaceMethod =>
    refine (accepts_word16.bind fun index => accepts_byte.bind fun count =>
      accepts_byte.map _).congr fun i bytes => ⟨?_, ?_⟩
    · rintro ⟨index, _, _, rfl, ⟨count, _, _, rfl, ⟨reserved, rfl, rfl⟩, rfl⟩, rfl⟩
      exact .interfaceMethod index count reserved
    · rintro ⟨⟩
      exact ⟨_, _, _, rfl, ⟨_, _, _, rfl, ⟨_, rfl, rfl⟩, rfl⟩, rfl⟩
  | dynamicCall =>
    refine (accepts_word16.bind fun index => accepts_word16.map _).congr fun i bytes => ⟨?_, ?_⟩
    · rintro ⟨index, _, _, rfl, ⟨reserved, rfl, rfl⟩, rfl⟩
      exact .dynamicCall index reserved
    · rintro ⟨⟩
      exact ⟨_, _, _, rfl, ⟨_, rfl, rfl⟩, rfl⟩
  | widened => exact accepts_widenedReader
  | dimensions =>
    refine (accepts_word16.bind fun index => accepts_byte.map _).congr fun i bytes => ⟨?_, ?_⟩
    · rintro ⟨index, _, _, rfl, ⟨dimensions, rfl, rfl⟩, rfl⟩
      exact .dimensions index dimensions
    · rintro ⟨⟩
      exact ⟨_, _, _, rfl, ⟨_, rfl, rfl⟩, rfl⟩

/-- What stands behind an opcode is read from the spellings of its operands. -/
theorem accepts_readerBehind : (readerBehind position opcode).Accepts fun i bytes =>
    ∃ operands, Operands.ofOpcode opcode = some operands ∧
      Spells position opcode operands i bytes := by
  unfold readerBehind
  split
  · rename_i operands ho
    refine accepts_operandReader.congr fun i bytes => ⟨fun h => ⟨operands, ho, h⟩, ?_⟩
    rintro ⟨_, ho', h⟩
    obtain rfl := Option.some.inj (ho.symm.trans ho')
    exact h
  · rename_i hnone
    refine (accepts_fail _).congr fun i bytes => ⟨False.elim, ?_⟩
    rintro ⟨_, ho, -⟩
    rw [hnone] at ho
    cases ho

end Insn

end ClassTemplates
