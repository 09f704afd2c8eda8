import ClassTemplates.Pool.Binary
import ClassTemplates.Proofs.Format.Readers
import ClassTemplates.Proofs.Pool.Built
import ClassTemplates.Proofs.Text.Encoding

/-!
# The byte form of pools

Every constant but a text has one spelling, the one that is written. A text may have been stored in
more bytes than needed, and the count in front of a pool need not be the one that is written: it may
be zero for an empty pool, and one too small for a pool that ends with a constant of two slots.

## Main definitions

- `Constant.Spelled` — the bytes from which a constant is read
- `Pool.Counts` — the counts in front of some constants
- `Pool.Spelled` — the count and the bytes from which a pool is read

## Main results

- `Constant.accepts_reader`, `Pool.accepts_reader` — what is read
- `Constant.shortest_of_spelled` — what is written of a constant is its only shortest spelling
- `Pool.Counts.count_eq` — the counts of a pool
-/

namespace ClassTemplates

open BigEndian
open Reader (accepts_byte accepts_word16 accepts_word32 accepts_word64 accepts_pure accepts_take
  accepts_fail)

/-! ### Constants -/

theorem ConstantTag.ofByte?_eq_some {b : UInt8} {kind : ConstantTag} :
    ofByte? b = some kind ↔ b = kind.toByte := by
  constructor
  · intro h
    unfold ofByte? at h
    split at h
    case h_18 => cases h
    all_goals
      obtain rfl := Option.some.inj h
      exact UInt8.toNat_inj.1 ‹_›
  · rintro rfl
    cases kind <;> rfl

namespace Constant

/-- The bytes from which a constant is read: a text has all its spellings, unless they are too long,
and any other constant is read from what is written. -/
def Spelled : Constant → Bytes → Prop
  | utf8 text, bytes => ∃ stored, ModifiedUtf8.decode stored = some text ∧
      stored.length < 0x10000 ∧ bytes = textBytes stored
  | rawUtf8 stored, bytes => ModifiedUtf8.decode stored = none ∧ stored.length < 0x10000 ∧
      bytes = textBytes stored
  | secondSlot, _ => False
  | c, bytes => bytes = c.toBytes

theorem spelled_ofTextBytes {stored : Bytes} (h : stored.length < 0x10000) :
    (ofTextBytes stored).Spelled (textBytes stored) := by
  unfold ofTextBytes
  cases hd : ModifiedUtf8.decode stored with
  | none => exact ⟨hd, h, rfl⟩
  | some text => exact ⟨stored, hd, h, rfl⟩

/-- Only texts are spelled with the tag of texts. -/
theorem exists_stored_of_spelled {c : Constant} {bytes : Bytes}
    (h : c.Spelled (ConstantTag.utf8.toByte :: bytes)) :
    ∃ stored, stored.length < 0x10000 ∧ c = ofTextBytes stored ∧
      bytes = count16 stored ++ stored := by
  cases c with
  | utf8 text =>
    obtain ⟨stored, hd, hlt, hbytes⟩ := h
    refine ⟨stored, hlt, ?_, (List.cons.inj hbytes).2⟩
    rw [ofTextBytes, hd]
  | rawUtf8 stored =>
    obtain ⟨hd, hlt, hbytes⟩ := h
    refine ⟨stored, hlt, ?_, (List.cons.inj hbytes).2⟩
    rw [ofTextBytes, hd]
  | secondSlot => exact h.elim
  | _ => exact absurd (List.cons.inj h).1 (by decide)

theorem eq_toInt32_iff {value : Int32} {word : UInt32} :
    value = word.toInt32 ↔ word = value.toUInt32 := by
  constructor <;> (rintro rfl; simp)

theorem eq_toInt64_iff {value : Int64} {word : UInt64} :
    value = word.toInt64 ↔ word = value.toUInt64 := by
  constructor <;> (rintro rfl; simp)

/-- What stands behind a tag is the rest of a constant with this tag. -/
theorem accepts_contents (kind : ConstantTag) :
    (contents kind).Accepts fun c bytes => c.Spelled (kind.toByte :: bytes) := by
  cases kind with
  | utf8 =>
    refine (accepts_word16.bind fun n => (accepts_take n.toNat).bind fun _ => accepts_pure _).congr
      fun c bytes => ?_
    constructor
    · rintro ⟨n, _, _, rfl, ⟨_, stored, _, ⟨rfl, hlen⟩, ⟨rfl, rfl⟩, rfl⟩, rfl⟩
      have hcount : word16 n = count16 stored := by rw [count16, hlen, UInt16.ofNat_toNat]
      rw [List.append_nil, hcount]
      exact spelled_ofTextBytes (hlen ▸ n.toNat_lt)
    · intro h
      obtain ⟨stored, hlt, rfl, rfl⟩ := exists_stored_of_spelled h
      exact ⟨UInt16.ofNat stored.length, _, _, rfl, ⟨stored, _, _,
        ⟨rfl, (UInt16.toNat_ofNat_of_lt' hlt).symm⟩, ⟨rfl, rfl⟩, rfl⟩, by
          rw [List.append_nil, count16]⟩
  | integer =>
    refine (accepts_word32.bind fun _ => accepts_pure _).congr fun c bytes => ?_
    cases c <;> simp [Spelled, toBytes, textBytes, ConstantTag.toByte, eq_toInt32_iff]
  | float =>
    refine (accepts_word32.bind fun _ => accepts_pure _).congr fun c bytes => ?_
    cases c <;> simp [Spelled, toBytes, textBytes, ConstantTag.toByte]
  | long =>
    refine (accepts_word64.bind fun _ => accepts_pure _).congr fun c bytes => ?_
    cases c <;> simp [Spelled, toBytes, textBytes, ConstantTag.toByte, eq_toInt64_iff]
  | double =>
    refine (accepts_word64.bind fun _ => accepts_pure _).congr fun c bytes => ?_
    cases c <;> simp [Spelled, toBytes, textBytes, ConstantTag.toByte]
  | «class» | string | methodType | «module» | package =>
    refine (accepts_word16.bind fun _ => accepts_pure _).congr fun c bytes => ?_
    cases c <;> simp [Spelled, toBytes, textBytes, ConstantTag.toByte]
  | fieldRef | methodRef | interfaceMethodRef | nameAndType | dynamic | invokeDynamic =>
    refine (accepts_word16.bind fun _ => accepts_word16.bind fun _ => accepts_pure _).congr
      fun c bytes => ?_
    cases c <;> simp [Spelled, toBytes, textBytes, ConstantTag.toByte]
  | methodHandle =>
    refine (accepts_byte.bind fun _ => accepts_word16.bind fun _ => accepts_pure _).congr
      fun c bytes => ?_
    cases c <;> simp [Spelled, toBytes, textBytes, ConstantTag.toByte]

/-- A constant is spelled with the tag of its kind in front. -/
theorem exists_tag_of_spelled {c : Constant} {bytes : Bytes} (h : c.Spelled bytes) :
    ∃ kind tail, bytes = ConstantTag.toByte kind :: tail := by
  cases c with
  | utf8 text =>
    obtain ⟨stored, -, -, rfl⟩ := h
    exact ⟨_, _, rfl⟩
  | rawUtf8 stored =>
    obtain ⟨-, -, rfl⟩ := h
    exact ⟨_, _, rfl⟩
  | secondSlot => exact h.elim
  | _ =>
    subst h
    exact ⟨_, _, rfl⟩

/-- A constant is read from its spellings. -/
theorem accepts_reader (index : Nat) : (reader index).Accepts Spelled := by
  have htagged : (reader index).Accepts fun c bytes =>
      ∃ tag u v, u = [tag] ∧ c.Spelled (tag :: v) ∧ bytes = u ++ v := by
    refine accepts_byte.bind fun tag => ?_
    split
    · rename_i kind hkind
      rw [ConstantTag.ofByte?_eq_some.1 hkind]
      exact accepts_contents kind
    · rename_i hnone
      refine (accepts_fail _).congr fun c bytes => ⟨False.elim, fun h => ?_⟩
      obtain ⟨kind, tail, hbytes⟩ := exists_tag_of_spelled h
      rw [ConstantTag.ofByte?_eq_some.2 (List.cons.inj hbytes).1] at hnone
      cases hnone
  refine htagged.congr fun c bytes => ?_
  constructor
  · rintro ⟨tag, _, v, rfl, h, rfl⟩
    exact h
  · intro h
    obtain ⟨kind, tail, rfl⟩ := exists_tag_of_spelled h
    exact ⟨_, _, tail, rfl, h, rfl⟩

/-- No spelling of a constant is shorter than the one that is written, and no other is as short. -/
theorem shortest_of_spelled {c : Constant} {bytes : Bytes} (h : c.Spelled bytes) :
    c.toBytes.length ≤ bytes.length ∧ (c.toBytes.length = bytes.length → c.toBytes = bytes) := by
  cases c with
  | utf8 text =>
    obtain ⟨stored, hd, -, rfl⟩ := h
    obtain ⟨hle, heq⟩ := ModifiedUtf8.encode_eq_of_decode hd
    simp only [toBytes, textBytes, List.length_cons, List.length_append, length_count16]
    refine ⟨by omega, fun hlen => ?_⟩
    rw [heq (by omega)]
  | rawUtf8 stored =>
    obtain ⟨-, -, rfl⟩ := h
    exact ⟨Nat.le_refl _, fun _ => rfl⟩
  | secondSlot => exact h.elim
  | _ =>
    subst h
    exact ⟨Nat.le_refl _, fun _ => rfl⟩

/-- A text that has been read fits the length in front of it. -/
theorem length_encode_of_spelled {text : String} {bytes : Bytes} (h : (utf8 text).Spelled bytes) :
    (ModifiedUtf8.encode text).length < 0x10000 := by
  obtain ⟨stored, hd, hlt, -⟩ := h
  exact Nat.lt_of_le_of_lt (ModifiedUtf8.encode_eq_of_decode hd).1 hlt

/-- A constant that has been read can be read back from what is written of it. -/
theorem Spelled.written {c : Constant} {bytes : Bytes} (h : c.Spelled bytes) :
    c.Spelled c.toBytes := by
  cases c with
  | utf8 text =>
    exact ⟨_, ModifiedUtf8.decode_encode text, length_encode_of_spelled h, rfl⟩
  | rawUtf8 stored => exact ⟨h.1, h.2.1, rfl⟩
  | secondSlot => exact h
  | _ => rfl

/-- The same of several constants, one behind the other. -/
theorem eq_of_spelled {constants : List Constant} {pieces : List Bytes}
    (h : List.Forall₂ Spelled constants pieces) :
    (constants.map toBytes).flatten.length ≤ pieces.flatten.length ∧
      ((constants.map toBytes).flatten.length = pieces.flatten.length →
        pieces = constants.map toBytes) := by
  induction h with
  | nil => exact ⟨Nat.le_refl _, fun _ => rfl⟩
  | @cons c piece constants pieces hc _ ih =>
    obtain ⟨hle, heq⟩ := shortest_of_spelled hc
    obtain ⟨hle', heq'⟩ := ih
    simp only [List.map_cons, List.flatten_cons, List.length_append]
    refine ⟨by omega, fun hlen => ?_⟩
    rw [heq (by omega), heq' (by omega)]

/-- Second slots are not written. -/
theorem flatMap_toBytes_slots (c : Constant) : c.slots.flatMap toBytes = c.toBytes := by
  cases c <;> simp [slots, width, toBytes]

end Constant

/-! ### Pools -/

namespace Pool

variable {p q : Pool} {constants : List Constant} {pieces : List Bytes} {count index : Nat}

/-- Constants numbered from `index` on are as many as are read up to a count: the last one starts in
front of it. -/
def Counts (count index : Nat) : List Constant → Prop
  | [] => count ≤ index
  | c :: constants => index < count ∧ Counts count (index + c.width) constants

theorem entriesOnto_eq_ok (hp : p.Bounded) {c stop : Cursor} :
    entriesOnto count index p c = .ok (q, stop) ↔
      ∃ constants pieces, q.slots.toList = p.slots.toList ++ constants.flatMap Constant.slots ∧
        q.Bounded ∧ Counts count index constants ∧ List.Forall₂ Constant.Spelled constants pieces ∧
        c.Passes pieces.flatten stop := by
  constructor
  · intro h
    fun_induction entriesOnto count index p c with
    | case1 => cases h
    | case2 => cases h
    | case3 index p c hlt constant next hr p' happend ih =>
      unfold appended at happend
      split at happend
      · rename_i hfit
        cases happend
        obtain ⟨piece, hpass, hspelled⟩ := (Constant.accepts_reader index).exists_spelling hr
        obtain ⟨constants, pieces, hq, hbounded, hcounts, hpieces, hrest⟩ :=
          ih (bounded_append_iff.2 hfit) h
        refine ⟨constant :: constants, piece :: pieces, ?_, hbounded, ⟨hlt, hcounts⟩,
          .cons hspelled hpieces, hpass.append hrest⟩
        rw [hq, toList_append, List.append_assoc, List.flatMap_cons]
      · cases happend
    | case4 index p c hle =>
      cases h
      exact ⟨[], [], by simp, hp, Nat.not_lt.1 hle, .nil, Cursor.passes_nil.2 rfl⟩
  · rintro ⟨constants, pieces, hq, hbounded, hcounts, hpieces, hpass⟩
    -- by induction on the pieces, with the pool that the constants so far have filled
    induction hpieces generalizing p index c with
    | nil =>
      rw [List.flatMap_nil, List.append_nil] at hq
      have hqp : q = p := congrArg Pool.mk (Array.toList_inj.1 hq)
      rw [entriesOnto, if_neg (Nat.not_lt.2 hcounts), hqp, Cursor.passes_nil.1 hpass]
    | @cons constant piece constants pieces hspelled _ ih =>
      obtain ⟨next, hpiece, hrest⟩ := Cursor.passes_append.1 hpass
      have hr := (Constant.accepts_reader index _ _ _).2 ⟨piece, hpiece, hspelled⟩
      have hq' : q.slots.toList =
          (p.append constant).slots.toList ++ constants.flatMap Constant.slots := by
        rw [hq, toList_append, List.append_assoc, List.flatMap_cons]
      have hfit : (p.append constant).Bounded := .of_le ⟨_, hq'.symm⟩ hbounded
      rw [entriesOnto, if_pos hcounts.1]
      simp only [hr, appended, bounded_append_iff.1 hfit, if_true]
      exact ih hfit hq' hcounts.2 hrest

/-- The constants of the pool are spelled by the pieces, with the count in front of them. -/
structure Spelled (p : Pool) (count : UInt16) (constants : List Constant) (pieces : List Bytes) :
    Prop where
  slots : p.slots.toList = constants.flatMap Constant.slots
  bounded : p.Bounded
  counts : Counts count.toNat 1 constants
  spelled : List.Forall₂ Constant.Spelled constants pieces

/-- A pool is read from its spellings. -/
theorem accepts_reader : reader.Accepts fun p bytes =>
    ∃ count constants pieces, p.Spelled count constants pieces ∧
      bytes = word16 count ++ pieces.flatten := by
  intro c p stop
  constructor
  · intro h
    simp only [reader] at h
    split at h
    · cases h
    rename_i count next hcount
    obtain ⟨constants, pieces, hslots, hbounded, hcounts, hpieces, hpass⟩ :=
      (entriesOnto_eq_ok (Nat.zero_le _)).1 h
    exact ⟨_, (Reader.passes_word16 hcount).append hpass, count, constants, pieces,
      ⟨hslots, hbounded, hcounts, hpieces⟩, rfl⟩
  · rintro ⟨_, hpass, count, constants, pieces, hp, rfl⟩
    obtain ⟨next, hcount, hrest⟩ := Cursor.passes_append.1 hpass
    have hrun := (accepts_word16 c count next).2 ⟨_, hcount, rfl⟩
    simp only [reader, hrun]
    exact (entriesOnto_eq_ok (Nat.zero_le _)).2
      ⟨constants, pieces, hp.slots, hp.bounded, hp.counts, hp.spelled, hrest⟩

/-! ### Counts -/

/-- Constants are read up to the number behind the last. -/
theorem counts_length (index : Nat) (constants : List Constant) :
    Counts (index + (constants.flatMap Constant.slots).length) index constants := by
  induction constants generalizing index with
  | nil => exact Nat.le_refl _
  | cons c constants ih =>
    have hpos := width_pos c
    rw [List.flatMap_cons, List.length_append, c.length_slots, ← Nat.add_assoc]
    exact ⟨by omega, ih (index + c.width)⟩

/-- A count is one more than the last number, unless nothing is counted or the count leads into the
middle of the last constant. -/
theorem Counts.count_eq (h : Counts count index constants) :
    (constants = [] ∧ count ≤ index) ∨
      count = index + (constants.flatMap Constant.slots).length ∨
      (∃ c, constants.getLast? = some c ∧ c.width = 2) ∧
        count + 1 = index + (constants.flatMap Constant.slots).length := by
  induction constants generalizing index with
  | nil => exact .inl ⟨rfl, h⟩
  | cons c constants ih =>
    obtain ⟨hlt, hcounts⟩ := h
    have hwidth : c.width = 1 ∨ c.width = 2 := by cases c <;> simp [Constant.width]
    rw [List.flatMap_cons, List.length_append, c.length_slots]
    rcases ih hcounts with ⟨rfl, hle⟩ | heq | ⟨⟨d, hd, hdwidth⟩, heq⟩
    · rw [List.flatMap_nil, List.length_nil]
      rcases hwidth with hc | hc
      · exact .inr (.inl (by omega))
      · by_cases hcount : count = index + 2
        · exact .inr (.inl (by omega))
        · exact .inr (.inr ⟨⟨c, rfl, hc⟩, by omega⟩)
    · exact .inr (.inl (by omega))
    · exact .inr (.inr ⟨⟨d, by rw [List.getLast?_cons, hd]; rfl, hdwidth⟩, by omega⟩)

/-! ### Writing -/

/-- What is written of a pool is its count and what is written of its constants. -/
theorem Spelled.toBytes_eq {n : UInt16} (h : p.Spelled n constants pieces) :
    p.toBytes = word16 p.count ++ (constants.map Constant.toBytes).flatten := by
  rw [toBytes, h.slots, List.flatMap_assoc, ← List.flatMap_def]
  simp only [Constant.flatMap_toBytes_slots]

/-- The bytes of a pool come back if and only if each constant has as few as it can have and the
count is that of the pool. -/
theorem Spelled.toBytes_eq_iff {n : UInt16} (h : p.Spelled n constants pieces) :
    p.toBytes = word16 n ++ pieces.flatten ↔
      n = p.count ∧ pieces = constants.map Constant.toBytes := by
  rw [h.toBytes_eq]
  constructor
  · intro heq
    obtain ⟨hcount, hflat⟩ := List.append_inj heq rfl
    exact ⟨(word16_inj hcount).symm,
      (Constant.eq_of_spelled h.spelled).2 (congrArg List.length hflat)⟩
  · rintro ⟨rfl, rfl⟩
    rfl

/-- The count of a pool is the number behind its last slot. -/
theorem toNat_count_of_slots (hslots : p.slots.toList = constants.flatMap Constant.slots)
    (hbounded : p.Bounded) :
    p.count.toNat = 1 + (constants.flatMap Constant.slots).length := by
  rw [toNat_count hbounded, ← hslots, Array.length_toList, Nat.add_comm]

/-- The count in front of a pool is that of the pool, or nothing is counted, or it leads into the
middle of the last constant. -/
theorem Spelled.count_eq {n : UInt16} (h : p.Spelled n constants pieces) :
    n = p.count ∨ constants = [] ∧ n = 0 ∨
      (∃ c, constants.getLast? = some c ∧ c.width = 2) ∧ n.toNat + 1 = p.count.toNat := by
  have hcount := toNat_count_of_slots h.slots h.bounded
  rcases h.counts.count_eq with ⟨rfl, hle⟩ | heq | ⟨hlast, heq⟩
  · by_cases h0 : n.toNat = 0
    · exact .inr (.inl ⟨rfl, UInt16.toNat_inj.1 h0⟩)
    · refine .inl (UInt16.toNat_inj.1 ?_)
      rw [List.flatMap_nil, List.length_nil] at hcount
      omega
  · exact .inl (UInt16.toNat_inj.1 (by omega))
  · exact .inr (.inr ⟨hlast, by omega⟩)

/-- What is written of a pool is one of its spellings if each constant can be read back. -/
theorem spelled_written (hslots : p.slots.toList = constants.flatMap Constant.slots)
    (hbounded : p.Bounded) (hc : ∀ c ∈ constants, c.Spelled c.toBytes) :
    p.Spelled p.count constants (constants.map Constant.toBytes) := by
  refine ⟨hslots, hbounded, toNat_count_of_slots hslots hbounded ▸ counts_length 1 constants, ?_⟩
  rw [List.forall₂_map_right_iff]
  exact List.forall₂_same.2 hc

end Pool

end ClassTemplates
