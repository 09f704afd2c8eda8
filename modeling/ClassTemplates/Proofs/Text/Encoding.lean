import Mathlib.Data.List.Forall2
import ClassTemplates.ModifiedUtf8
import ClassTemplates.Proofs.Words

/-!
# Texts and their modified UTF-8

UTF-16 units spell at most one text, and its units are these. A unit has one or more forms in
modified UTF-8. All of them are read, and the one that is written is the only one of its length, and
no other is shorter.

## Main definitions

- `ModifiedUtf8.Spells` — the forms of a unit

## Main results

- `Utf16.text?_eq_some` — the text that units spell
- `ModifiedUtf8.decode_eq_some` — the text that bytes spell
- `ModifiedUtf8.decode_encode` — a text comes back
- `ModifiedUtf8.encode_eq_of_decode` — the bytes of a text come back if no form of it is shorter
-/

namespace ClassTemplates

/-! ### UTF-16 -/

namespace Utf16

theorem isLeading_iff {u : UInt16} :
    isLeading u = true ↔ 0xd800 ≤ u.toNat ∧ u.toNat < 0xdc00 := by
  simp [isLeading, UInt16.le_iff_toNat_le, UInt16.lt_iff_toNat_lt]

theorem isTrailing_iff {u : UInt16} :
    isTrailing u = true ↔ 0xdc00 ≤ u.toNat ∧ u.toNat < 0xe000 := by
  simp [isTrailing, UInt16.le_iff_toNat_le, UInt16.lt_iff_toNat_lt]

theorem toNat_ofNat_of_lt {n : Nat} (h : n < 0x10000) : (UInt16.ofNat n).toNat = n :=
  UInt16.toNat_ofNat_of_lt' h

theorem unitsOfChar_of_lt {c : Char} (h : c.toNat < 0x10000) :
    unitsOfChar c = [UInt16.ofNat c.toNat] := by
  simp [unitsOfChar, h]

theorem unitsOfChar_of_le {c : Char} (h : 0x10000 ≤ c.toNat) :
    unitsOfChar c = [UInt16.ofNat (0xd800 + (c.toNat - 0x10000) / 0x400),
      UInt16.ofNat (0xdc00 + (c.toNat - 0x10000) % 0x400)] := by
  simp [unitsOfChar, Nat.not_lt.2 h]

/-- A character is no surrogate, and there is a last one. -/
theorem toNat_bounds (c : Char) : (c.toNat < 0xd800 ∨ 0xe000 ≤ c.toNat) ∧ c.toNat < 0x110000 := by
  have h : c.toNat.isValidChar := c.valid
  unfold Nat.isValidChar at h
  omega

theorem toNat_charOfNat {n : Nat} (h : (n < 0xd800 ∨ 0xe000 ≤ n) ∧ n < 0x110000) :
    (Char.ofNat n).toNat = n := by
  have hvalid : n.isValidChar := by
    unfold Nat.isValidChar
    omega
  rw [Char.ofNat, dif_pos hvalid]
  rfl

/-- The units of a character, read in front of others. -/
theorem charsOnto_unitsOfChar (done : Array Char) (c : Char) (us : List UInt16) :
    charsOnto done (unitsOfChar c ++ us) = charsOnto (done.push c) us := by
  obtain ⟨hgap, hlast⟩ := toNat_bounds c
  by_cases hc : c.toNat < 0x10000
  · have hu := toNat_ofNat_of_lt hc
    have hl : isLeading (UInt16.ofNat c.toNat) = false := by
      rw [Bool.eq_false_iff, Ne, isLeading_iff, hu]
      omega
    have ht : isTrailing (UInt16.ofNat c.toNat) = false := by
      rw [Bool.eq_false_iff, Ne, isTrailing_iff, hu]
      omega
    rw [unitsOfChar_of_lt hc, List.singleton_append, charsOnto.eq_def]
    simp only [hl, ht, hu, Char.ofNat_toNat, Bool.false_eq_true, if_false]
  · rw [Nat.not_lt] at hc
    have hu := toNat_ofNat_of_lt (n := 0xd800 + (c.toNat - 0x10000) / 0x400) (by omega)
    have hv := toNat_ofNat_of_lt (n := 0xdc00 + (c.toNat - 0x10000) % 0x400) (by omega)
    have hl : isLeading (UInt16.ofNat (0xd800 + (c.toNat - 0x10000) / 0x400)) = true := by
      rw [isLeading_iff, hu]
      omega
    have ht : isTrailing (UInt16.ofNat (0xdc00 + (c.toNat - 0x10000) % 0x400)) = true := by
      rw [isTrailing_iff, hv]
      omega
    have hpair : 0x10000 + (0xd800 + (c.toNat - 0x10000) / 0x400 - 0xd800) * 0x400 +
        (0xdc00 + (c.toNat - 0x10000) % 0x400 - 0xdc00) = c.toNat := by
      omega
    rw [unitsOfChar_of_le hc, List.cons_append, List.singleton_append, charsOnto.eq_def]
    simp only [hl, ht, if_true, pairChar, hu, hv, hpair, Char.ofNat_toNat]

theorem unitsOfChar_ofNat {u : UInt16} (hl : ¬isLeading u = true) (ht : ¬isTrailing u = true) :
    unitsOfChar (Char.ofNat u.toNat) = [u] := by
  rw [isLeading_iff] at hl
  rw [isTrailing_iff] at ht
  have hu := u.toNat_lt
  have hn := toNat_charOfNat (n := u.toNat) (by omega)
  rw [unitsOfChar_of_lt (by omega), hn, UInt16.ofNat_toNat]

theorem unitsOfChar_pairChar {u v : UInt16} (hl : isLeading u = true) (ht : isTrailing v = true) :
    unitsOfChar (pairChar u v) = [u, v] := by
  rw [isLeading_iff] at hl
  rw [isTrailing_iff] at ht
  have hn := toNat_charOfNat
    (n := 0x10000 + (u.toNat - 0xd800) * 0x400 + (v.toNat - 0xdc00)) (by omega)
  have hu : 0xd800 + (0x10000 + (u.toNat - 0xd800) * 0x400 + (v.toNat - 0xdc00) - 0x10000) / 0x400 =
      u.toNat := by
    omega
  have hv : 0xdc00 + (0x10000 + (u.toNat - 0xd800) * 0x400 + (v.toNat - 0xdc00) - 0x10000) % 0x400 =
      v.toNat := by
    omega
  rw [pairChar, unitsOfChar_of_le (by omega), hn, hu, hv, UInt16.ofNat_toNat, UInt16.ofNat_toNat]

theorem charsOnto_eq_some {done all : Array Char} {us : List UInt16} :
    charsOnto done us = some all ↔
      ∃ cs, all.toList = done.toList ++ cs ∧ us = cs.flatMap unitsOfChar := by
  constructor
  · intro h
    fun_induction charsOnto done us with
    | case1 done =>
      cases h
      exact ⟨[], by simp, rfl⟩
    | case2 done u hl v rest ht ih =>
      obtain ⟨cs, hall, hus⟩ := ih h
      exact ⟨pairChar u v :: cs, by simp [hall],
        by rw [List.flatMap_cons, unitsOfChar_pairChar hl ht, ← hus]; rfl⟩
    | case3 | case4 | case5 => cases h
    | case6 done u rest hl ht ih =>
      obtain ⟨cs, hall, hus⟩ := ih h
      exact ⟨Char.ofNat u.toNat :: cs, by simp [hall],
        by rw [List.flatMap_cons, unitsOfChar_ofNat hl ht, ← hus]; rfl⟩
  · rintro ⟨cs, hall, rfl⟩
    induction cs generalizing done with
    | nil =>
      rw [List.append_nil] at hall
      rw [List.flatMap_nil, charsOnto, Array.toList_inj.1 hall]
    | cons c cs ih =>
      rw [List.flatMap_cons, charsOnto_unitsOfChar]
      exact ih (by simp [hall])

/-- Units spell the text whose units they are. -/
theorem text?_eq_some {us : List UInt16} {text : String} :
    text? us = some text ↔ us = units text := by
  simp only [text?, Option.map_eq_some_iff, charsOnto_eq_some, List.nil_append, units]
  constructor
  · rintro ⟨all, ⟨cs, hall, hus⟩, rfl⟩
    rw [hus, hall, String.toList_ofList]
  · intro h
    exact ⟨text.toList.toArray, ⟨text.toList, rfl, h⟩, String.ofList_toList⟩

end Utf16

/-! ### Modified UTF-8 -/

namespace ModifiedUtf8

open BigEndian (forall_byte or_eq_add)

/-- The bytes are a form of the unit. -/
inductive Spells : UInt16 → Bytes → Prop
  | one {a : UInt8} : a.toNat < 0x80 → a ≠ 0 → Spells a.toUInt16 [a]
  | two {a b : UInt8} : 0xc0 ≤ a.toNat → a.toNat < 0xe0 → isContinuation b = true →
    Spells (unitOfTwo a b) [a, b]
  | three {a b c : UInt8} : 0xe0 ≤ a.toNat → a.toNat < 0xf0 → isContinuation b = true →
    isContinuation c = true → Spells (unitOfThree a b c) [a, b, c]

set_option maxRecDepth 1000 in
theorem isContinuation_iff (b : UInt8) :
    isContinuation b = true ↔ 0x80 ≤ b.toNat ∧ b.toNat < 0xc0 :=
  forall_byte (P := fun b => isContinuation b = true ↔ 0x80 ≤ b.toNat ∧ b.toNat < 0xc0)
    (by decide) b

set_option maxRecDepth 1000 in
theorem isOne_iff (a : UInt8) : (a &&& 0x80 == 0) = true ↔ a.toNat < 0x80 :=
  forall_byte (P := fun a => (a &&& 0x80 == 0) = true ↔ a.toNat < 0x80) (by decide) a

set_option maxRecDepth 1000 in
theorem isTwo_iff (a : UInt8) : (a &&& 0xe0 == 0xc0) = true ↔ 0xc0 ≤ a.toNat ∧ a.toNat < 0xe0 :=
  forall_byte (P := fun a => (a &&& 0xe0 == 0xc0) = true ↔ 0xc0 ≤ a.toNat ∧ a.toNat < 0xe0)
    (by decide) a

set_option maxRecDepth 1000 in
theorem isThree_iff (a : UInt8) : (a &&& 0xf0 == 0xe0) = true ↔ 0xe0 ≤ a.toNat ∧ a.toNat < 0xf0 :=
  forall_byte (P := fun a => (a &&& 0xf0 == 0xe0) = true ↔ 0xe0 ≤ a.toNat ∧ a.toNat < 0xf0)
    (by decide) a

theorem toNat_low (b mask : UInt8) (n m : Nat) (hmask : mask.toNat = 2 ^ n - 1) (hm : 2 ^ n = m) :
    (b &&& mask).toUInt16.toNat = b.toNat % m := by
  rw [UInt8.toNat_toUInt16, UInt8.toNat_and, hmask, Nat.and_two_pow_sub_one_eq_mod, hm]

theorem toNat_unitOfTwo (a b : UInt8) :
    (unitOfTwo a b).toNat = a.toNat % 32 * 64 + b.toNat % 64 := by
  have hshift : ((a &&& 0x1f).toUInt16 <<< 6).toNat = a.toNat % 32 * 64 := by
    rw [UInt16.toNat_shiftLeft, toNat_low a 0x1f 5 32 rfl rfl]
    have hmul : (a.toNat % 32) <<< (UInt16.toNat 6 % 16) = a.toNat % 32 * 64 := Nat.shiftLeft_eq _ 6
    rw [hmul, Nat.mod_eq_of_lt (by omega)]
  rw [unitOfTwo, UInt16.toNat_or, hshift, toNat_low b 0x3f 6 64 rfl rfl,
    or_eq_add 64 (n := 6) rfl (by omega)]

theorem toNat_unitOfThree (a b c : UInt8) :
    (unitOfThree a b c).toNat = a.toNat % 16 * 4096 + b.toNat % 64 * 64 + c.toNat % 64 := by
  have hfirst : ((a &&& 0x0f).toUInt16 <<< 12).toNat = a.toNat % 16 * 4096 := by
    rw [UInt16.toNat_shiftLeft, toNat_low a 0x0f 4 16 rfl rfl]
    have hmul : (a.toNat % 16) <<< (UInt16.toNat 12 % 16) = a.toNat % 16 * 4096 :=
      Nat.shiftLeft_eq _ 12
    rw [hmul, Nat.mod_eq_of_lt (by omega)]
  have hsecond : ((b &&& 0x3f).toUInt16 <<< 6).toNat = b.toNat % 64 * 64 := by
    rw [UInt16.toNat_shiftLeft, toNat_low b 0x3f 6 64 rfl rfl]
    have hmul : (b.toNat % 64) <<< (UInt16.toNat 6 % 16) = b.toNat % 64 * 64 := Nat.shiftLeft_eq _ 6
    rw [hmul, Nat.mod_eq_of_lt (by omega)]
  have hfold : a.toNat % 16 * 4096 + b.toNat % 64 * 64 =
      (a.toNat % 16 * 64 + b.toNat % 64) * 64 := by
    omega
  rw [unitOfThree, UInt16.toNat_or, UInt16.toNat_or, hfirst, hsecond, toNat_low c 0x3f 6 64 rfl rfl,
    or_eq_add 4096 (n := 12) rfl (by omega), hfold, or_eq_add 64 (n := 6) rfl (by omega)]

/-- A byte with marker bits in front of some bits of a unit. -/
theorem marked_eq {marker : UInt8} {u mask : UInt16} {k m n : Nat} (hmask : mask.toNat = 2 ^ n - 1)
    (hm : 2 ^ n = m) (hmarker : marker.toNat = k * m) (hm' : m ≤ 256) (hlt : k * m + m ≤ 256) :
    marker ||| (u &&& mask).toUInt8 = UInt8.ofNat (k * m + u.toNat % m) := by
  have hpos : 0 < m := hm ▸ Nat.two_pow_pos n
  have hmod := Nat.mod_lt u.toNat hpos
  apply UInt8.toNat_inj.1
  rw [UInt8.toNat_or, UInt16.toNat_toUInt8, UInt16.toNat_and, hmask, Nat.and_two_pow_sub_one_eq_mod,
    hm, hmarker, Nat.mod_eq_of_lt (show u.toNat % m < 256 by omega), or_eq_add m hm hmod,
    UInt8.toNat_ofNat_of_lt' (show k * m + u.toNat % m < 256 by omega)]

theorem toNat_shiftRight_six (u : UInt16) : (u >>> 6).toNat = u.toNat / 64 := by
  rw [UInt16.toNat_shiftRight]
  exact Nat.shiftRight_eq_div_pow _ 6

theorem toNat_shiftRight_twelve (u : UInt16) : (u >>> 12).toNat = u.toNat / 4096 := by
  rw [UInt16.toNat_shiftRight]
  exact Nat.shiftRight_eq_div_pow _ 12

section

variable {u : UInt16}

theorem encodeUnit_one (h : 0 < u.toNat) (hlt : u.toNat < 0x80) : encodeUnit u = [u.toUInt8] := by
  have hc : 0x0001 ≤ u ∧ u ≤ 0x007f := by
    simp only [UInt16.le_iff_toNat_le, UInt16.reduceToNat]
    omega
  rw [encodeUnit, if_pos hc]

theorem encodeUnit_two (h : u.toNat = 0 ∨ 0x80 ≤ u.toNat) (hlt : u.toNat < 0x800) :
    encodeUnit u = [UInt8.ofNat (0xc0 + u.toNat / 64), UInt8.ofNat (0x80 + u.toNat % 64)] := by
  have hc : ¬(0x0001 ≤ u ∧ u ≤ 0x007f) := by
    simp only [UInt16.le_iff_toNat_le, UInt16.reduceToNat]
    omega
  have hc' : u ≤ 0x07ff := by
    simp only [UInt16.le_iff_toNat_le, UInt16.reduceToNat]
    omega
  rw [encodeUnit, if_neg hc, if_pos hc', marked_eq (k := 6) (m := 32) (n := 5) rfl rfl rfl
    (by omega) (by omega), marked_eq (k := 2) (m := 64) (n := 6) rfl rfl rfl (by omega) (by omega),
    toNat_shiftRight_six, Nat.mod_eq_of_lt (show u.toNat / 64 < 32 by omega)]

theorem encodeUnit_three (h : 0x800 ≤ u.toNat) :
    encodeUnit u = [UInt8.ofNat (0xe0 + u.toNat / 4096), UInt8.ofNat (0x80 + u.toNat / 64 % 64),
      UInt8.ofNat (0x80 + u.toNat % 64)] := by
  have hu := u.toNat_lt
  have hc : ¬(0x0001 ≤ u ∧ u ≤ 0x007f) := by
    simp only [UInt16.le_iff_toNat_le, UInt16.reduceToNat]
    omega
  have hc' : ¬u ≤ 0x07ff := by
    simp only [UInt16.le_iff_toNat_le, UInt16.reduceToNat]
    omega
  rw [encodeUnit, if_neg hc, if_neg hc', marked_eq (k := 14) (m := 16) (n := 4) rfl rfl rfl
    (by omega) (by omega), marked_eq (k := 2) (m := 64) (n := 6) rfl rfl rfl (by omega) (by omega),
    marked_eq (k := 2) (m := 64) (n := 6) rfl rfl rfl (by omega) (by omega), toNat_shiftRight_six,
    toNat_shiftRight_twelve, Nat.mod_eq_of_lt (show u.toNat / 4096 < 16 by omega)]

theorem toNat_ofNat_of_lt {n : Nat} (h : n < 0x100) : (UInt8.ofNat n).toNat = n :=
  UInt8.toNat_ofNat_of_lt' h

/-- What is written is a form of the unit. -/
theorem spells_encodeUnit (u : UInt16) : Spells u (encodeUnit u) := by
  have hu := u.toNat_lt
  -- zero has no form of one byte; it is written in two
  by_cases hone : 0 < u.toNat ∧ u.toNat < 0x80
  · have hbyte : u.toUInt8.toNat = u.toNat := by
      rw [UInt16.toNat_toUInt8]
      omega
    have hback : u.toUInt8.toUInt16 = u := by
      apply UInt16.toNat_inj.1
      rw [UInt8.toNat_toUInt16, hbyte]
    have hne : u.toUInt8 ≠ 0 := by
      intro h0
      rw [h0] at hbyte
      have : (0 : UInt8).toNat = 0 := rfl
      omega
    have hform : Spells u.toUInt8.toUInt16 [u.toUInt8] := .one (by omega) hne
    rwa [hback, ← encodeUnit_one hone.1 hone.2] at hform
  · by_cases htwo : u.toNat < 0x800
    · have ha := toNat_ofNat_of_lt (n := 0xc0 + u.toNat / 64) (by omega)
      have hb := toNat_ofNat_of_lt (n := 0x80 + u.toNat % 64) (by omega)
      have hback : unitOfTwo (UInt8.ofNat (0xc0 + u.toNat / 64))
          (UInt8.ofNat (0x80 + u.toNat % 64)) = u := by
        apply UInt16.toNat_inj.1
        rw [toNat_unitOfTwo, ha, hb]
        omega
      have hform := Spells.two (a := UInt8.ofNat (0xc0 + u.toNat / 64))
        (b := UInt8.ofNat (0x80 + u.toNat % 64)) (by omega) (by omega)
        ((isContinuation_iff _).2 (by omega))
      rwa [hback, ← encodeUnit_two (by omega) htwo] at hform
    · have ha := toNat_ofNat_of_lt (n := 0xe0 + u.toNat / 4096) (by omega)
      have hb := toNat_ofNat_of_lt (n := 0x80 + u.toNat / 64 % 64) (by omega)
      have hc := toNat_ofNat_of_lt (n := 0x80 + u.toNat % 64) (by omega)
      have hback : unitOfThree (UInt8.ofNat (0xe0 + u.toNat / 4096))
          (UInt8.ofNat (0x80 + u.toNat / 64 % 64)) (UInt8.ofNat (0x80 + u.toNat % 64)) = u := by
        apply UInt16.toNat_inj.1
        rw [toNat_unitOfThree, ha, hb, hc]
        omega
      have hform := Spells.three (a := UInt8.ofNat (0xe0 + u.toNat / 4096))
        (b := UInt8.ofNat (0x80 + u.toNat / 64 % 64)) (c := UInt8.ofNat (0x80 + u.toNat % 64))
        (by omega) (by omega) ((isContinuation_iff _).2 (by omega))
        ((isContinuation_iff _).2 (by omega))
      rwa [hback, ← encodeUnit_three (by omega)] at hform

/-- No form is shorter than the one that is written, and no other is as short. -/
theorem Spells.shortest {form : Bytes} (h : Spells u form) :
    (encodeUnit u).length ≤ form.length ∧
      ((encodeUnit u).length = form.length → encodeUnit u = form) := by
  cases h with
  | @one a hlt hne =>
    have hnat : a.toUInt16.toNat = a.toNat := UInt8.toNat_toUInt16 a
    have hpos : 0 < a.toNat := Nat.pos_of_ne_zero fun h0 => hne (UInt8.toNat_inj.1 h0)
    rw [encodeUnit_one (by omega) (by omega), UInt8.toUInt8_toUInt16]
    exact ⟨Nat.le_refl _, fun _ => rfl⟩
  | @two a b hge hlt hb =>
    rw [isContinuation_iff] at hb
    have hnat := toNat_unitOfTwo a b
    by_cases hone : 0 < (unitOfTwo a b).toNat ∧ (unitOfTwo a b).toNat < 0x80
    · rw [encodeUnit_one hone.1 hone.2]
      simp
    · have ha' : 0xc0 + (unitOfTwo a b).toNat / 64 = a.toNat := by omega
      have hb' : 0x80 + (unitOfTwo a b).toNat % 64 = b.toNat := by omega
      rw [encodeUnit_two (by omega) (by omega), ha', hb', UInt8.ofNat_toNat, UInt8.ofNat_toNat]
      exact ⟨Nat.le_refl _, fun _ => rfl⟩
  | @three a b c hge hlt hb hc =>
    rw [isContinuation_iff] at hb hc
    have hnat := toNat_unitOfThree a b c
    by_cases hone : 0 < (unitOfThree a b c).toNat ∧ (unitOfThree a b c).toNat < 0x80
    · rw [encodeUnit_one hone.1 hone.2]
      simp
    · by_cases htwo : (unitOfThree a b c).toNat < 0x800
      · rw [encodeUnit_two (by omega) htwo]
        simp
      · have ha' : 0xe0 + (unitOfThree a b c).toNat / 4096 = a.toNat := by omega
        have hb' : 0x80 + (unitOfThree a b c).toNat / 64 % 64 = b.toNat := by omega
        have hc' : 0x80 + (unitOfThree a b c).toNat % 64 = c.toNat := by omega
        rw [encodeUnit_three (by omega), ha', hb', hc', UInt8.ofNat_toNat, UInt8.ofNat_toNat,
          UInt8.ofNat_toNat]
        exact ⟨Nat.le_refl _, fun _ => rfl⟩

end

/-- A form in front of other bytes is taken off as its unit. -/
theorem unitsOnto_append {done : Array UInt16} {u : UInt16} {form rest : Bytes}
    (h : Spells u form) :
    unitsOnto done (form ++ rest) = unitsOnto (done.push u) rest := by
  -- the first byte of a form tells which of the three branches takes it
  cases h with
  | @one a hlt hne =>
    have hone := (isOne_iff a).2 hlt
    rw [List.singleton_append, unitsOnto.eq_def]
    simp [hone, hne]
  | @two a b hge hlt hb =>
    have hone : (a &&& 0x80 == 0) = false := by
      rw [Bool.eq_false_iff, Ne, isOne_iff]
      omega
    have htwo := (isTwo_iff a).2 ⟨hge, hlt⟩
    rw [List.cons_append, List.singleton_append, unitsOnto.eq_def]
    simp only [hone, htwo, hb, Bool.false_eq_true, if_false, if_true]
  | @three a b c hge hlt hb hc =>
    have hone : (a &&& 0x80 == 0) = false := by
      rw [Bool.eq_false_iff, Ne, isOne_iff]
      omega
    have htwo : (a &&& 0xe0 == 0xc0) = false := by
      rw [Bool.eq_false_iff, Ne, isTwo_iff]
      omega
    have hthree := (isThree_iff a).2 ⟨hge, hlt⟩
    rw [List.cons_append, List.cons_append, List.singleton_append, unitsOnto.eq_def]
    simp only [hone, htwo, hthree, hb, hc, Bool.false_eq_true, if_false, if_true, Bool.and_self]

/-- Bytes spell units if they are forms of them, one behind the other. -/
theorem unitsOnto_eq_some {done all : Array UInt16} {bytes : Bytes} :
    unitsOnto done bytes = some all ↔
      ∃ us forms, all.toList = done.toList ++ us ∧ List.Forall₂ Spells us forms ∧
        bytes = forms.flatten := by
  constructor
  · intro h
    fun_induction unitsOnto done bytes with
    | case1 done =>
      cases h
      exact ⟨[], [], by simp, .nil, rfl⟩
    | case2 => cases h
    | case3 done a rest hone hne ih =>
      obtain ⟨us, forms, hall, hforms, rfl⟩ := ih h
      exact ⟨_, _, by simp [hall],
        .cons (.one ((isOne_iff a).1 hone) (by simpa using hne)) hforms, rfl⟩
    | case4 done a hone htwo b rest hb ih =>
      obtain ⟨us, forms, hall, hforms, rfl⟩ := ih h
      obtain ⟨hge, hlt⟩ := (isTwo_iff a).1 htwo
      exact ⟨_, _, by simp [hall], .cons (.two hge hlt hb) hforms, rfl⟩
    | case5 => cases h
    | case6 => cases h
    | case7 done a hone htwo hthree b c rest hbc ih =>
      obtain ⟨us, forms, hall, hforms, rfl⟩ := ih h
      obtain ⟨hge, hlt⟩ := (isThree_iff a).1 hthree
      obtain ⟨hb, hc⟩ := Bool.and_eq_true_iff.1 hbc
      exact ⟨_, _, by simp [hall], .cons (.three hge hlt hb hc) hforms, rfl⟩
    | case8 => cases h
    | case9 => cases h
    | case10 => cases h
  · rintro ⟨us, forms, hall, hforms, rfl⟩
    induction hforms generalizing done with
    | nil =>
      rw [List.append_nil] at hall
      rw [List.flatten_nil, unitsOnto, Array.toList_inj.1 hall]
    | cons hform _ ih =>
      rw [List.flatten_cons, unitsOnto_append hform]
      exact ih (by simp [hall])

/-- Bytes spell the text whose units they are forms of. -/
theorem decode_eq_some {bytes : Bytes} {text : String} :
    decode bytes = some text ↔
      ∃ forms, List.Forall₂ Spells (Utf16.units text) forms ∧ bytes = forms.flatten := by
  simp only [decode, Option.bind_eq_some_iff, Utf16.text?_eq_some, unitsOnto_eq_some,
    List.nil_append]
  constructor
  · rintro ⟨all, ⟨us, forms, hall, hforms, hbytes⟩, hus⟩
    exact ⟨forms, hus ▸ hall.symm ▸ hforms, hbytes⟩
  · rintro ⟨forms, hforms, hbytes⟩
    exact ⟨(Utf16.units text).toArray, ⟨_, forms, rfl, hforms, hbytes⟩, rfl⟩

/-- A text comes back from its bytes. -/
theorem decode_encode (text : String) : decode (encode text) = some text := by
  refine decode_eq_some.2 ⟨(Utf16.units text).map encodeUnit, ?_, List.flatMap_def⟩
  rw [List.forall₂_map_right_iff]
  exact List.forall₂_same.2 fun u _ => spells_encodeUnit u

/-- A text is written in no more bytes than it was read from, and in the same bytes if in as many.
-/
theorem encode_eq_of_decode {bytes : Bytes} {text : String} (h : decode bytes = some text) :
    (encode text).length ≤ bytes.length ∧
      ((encode text).length = bytes.length → encode text = bytes) := by
  obtain ⟨forms, hforms, rfl⟩ := decode_eq_some.1 h
  clear h
  unfold encode
  generalize Utf16.units text = us at hforms ⊢
  induction hforms with
  | nil => exact ⟨Nat.le_refl _, fun _ => rfl⟩
  | @cons u form us forms hform _ ih =>
    obtain ⟨hle, heq⟩ := ih
    obtain ⟨hle', heq'⟩ := hform.shortest
    simp only [List.flatMap_cons, List.flatten_cons, List.length_append]
    refine ⟨by omega, fun hlen => ?_⟩
    rw [heq (by omega), heq' (by omega)]

end ModifiedUtf8

end ClassTemplates
