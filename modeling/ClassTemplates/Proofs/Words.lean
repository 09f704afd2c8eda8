import Mathlib.Tactic.Ring
import ClassTemplates.Bytes

/-!
# Words and their bytes

The bytes of a word spell that word again, and no other bytes do.

## Main results

- `BigEndian.join16_word16`, `join32_word32`, `join64_word64` — the bytes of a word spell it
- `BigEndian.word16_join16`, `word32_join32`, `word64_join64` — no other bytes do
-/

namespace ClassTemplates.BigEndian

/-- What holds of all bytes can be checked byte by byte. -/
theorem forall_byte {P : UInt8 → Prop} (h : ∀ n : Fin 256, P (.ofFin n)) (b : UInt8) : P b :=
  h b.toFin

/-- Bits that do not overlap are added. -/
theorem or_eq_add {x y n : Nat} (m : Nat) (hm : 2 ^ n = m) (hy : y < m) :
    x * m ||| y = x * m + y := by
  subst hm
  rw [← Nat.shiftLeft_eq, Nat.shiftLeft_add_eq_or_of_lt hy]

theorem toNat_join16 (hi lo : UInt8) : (join16 hi lo).toNat = hi.toNat * 256 + lo.toNat := by
  have hhi := hi.toNat_lt
  have hlo := lo.toNat_lt
  have hshift : hi.toNat <<< 8 = hi.toNat * 256 := Nat.shiftLeft_eq _ _
  have hor : hi.toNat <<< 8 ||| lo.toNat = hi.toNat <<< 8 + lo.toNat :=
    (Nat.shiftLeft_add_eq_or_of_lt hlo _).symm
  rw [join16, UInt16.toNat_or, UInt16.toNat_shiftLeft, UInt8.toNat_toUInt16, UInt8.toNat_toUInt16,
    ← hshift, ← hor]
  congr 1
  rw [Nat.mod_eq_of_lt]
  · rfl
  · show hi.toNat <<< 8 < 65536
    omega

/-- The bytes of a word spell it. -/
theorem join16_word16 (w : UInt16) : join16 (w >>> 8).toUInt8 w.toUInt8 = w := by
  have hw := w.toNat_lt
  apply UInt16.toNat_inj.1
  rw [toNat_join16, UInt16.toNat_toUInt8, UInt16.toNat_toUInt8, UInt16.toNat_shiftRight]
  have : w.toNat >>> (UInt16.toNat 8 % 16) = w.toNat / 256 := Nat.shiftRight_eq_div_pow _ 8
  omega

/-- The word that bytes spell has these bytes. -/
theorem word16_join16 (hi lo : UInt8) : word16 (join16 hi lo) = [hi, lo] := by
  have hhi := hi.toNat_lt
  have hlo := lo.toNat_lt
  have hshift : (join16 hi lo >>> 8).toUInt8 = hi := by
    apply UInt8.toNat_inj.1
    rw [UInt16.toNat_toUInt8, UInt16.toNat_shiftRight, toNat_join16]
    have : (hi.toNat * 256 + lo.toNat) >>> (UInt16.toNat 8 % 16) =
        (hi.toNat * 256 + lo.toNat) / 256 := Nat.shiftRight_eq_div_pow _ 8
    omega
  have hlow : (join16 hi lo).toUInt8 = lo := by
    apply UInt8.toNat_inj.1
    rw [UInt16.toNat_toUInt8, toNat_join16]
    omega
  rw [word16, hshift, hlow]

theorem word16_inj {v w : UInt16} (h : word16 v = word16 w) : v = w := by
  simp only [word16, List.cons.injEq, and_true] at h
  rw [← join16_word16 v, ← join16_word16 w, h.1, h.2]

theorem toNat_join32 (a b c d : UInt8) :
    (join32 a b c d).toNat =
      a.toNat * 16777216 + b.toNat * 65536 + c.toNat * 256 + d.toNat := by
  have ha := a.toNat_lt
  have hb := b.toNat_lt
  have hc := c.toNat_lt
  have hd := d.toNat_lt
  have hshift (x : UInt8) (s : UInt32) (n m : Nat) (hs : s.toNat % 32 = n) (hm : 2 ^ n = m)
      (hlt : x.toNat * m < 4294967296) : (x.toUInt32 <<< s).toNat = x.toNat * m := by
    rw [UInt32.toNat_shiftLeft, UInt8.toNat_toUInt32, hs, Nat.shiftLeft_eq, hm,
      Nat.mod_eq_of_lt hlt]
  simp only [join32, UInt32.toNat_or, UInt8.toNat_toUInt32]
  rw [hshift a 24 24 16777216 rfl rfl (by omega), hshift b 16 16 65536 rfl rfl (by omega),
    hshift c 8 8 256 rfl rfl (by omega), or_eq_add 16777216 (n := 24) rfl (by omega)]
  have hab : a.toNat * 16777216 + b.toNat * 65536 = (a.toNat * 256 + b.toNat) * 65536 := by ring
  have habc : (a.toNat * 256 + b.toNat) * 65536 + c.toNat * 256 =
      (a.toNat * 65536 + b.toNat * 256 + c.toNat) * 256 := by ring
  rw [hab, or_eq_add 65536 (n := 16) rfl (by omega), habc, or_eq_add 256 (n := 8) rfl hd,
    ← habc, ← hab]

/-- The bytes of a word spell it. -/
theorem join32_word32 (w : UInt32) :
    join32 (w >>> 24).toUInt8 (w >>> 16).toUInt8 (w >>> 8).toUInt8 w.toUInt8 = w := by
  have hw := w.toNat_lt
  apply UInt32.toNat_inj.1
  have hshift (s : UInt32) (n m : Nat) (hs : s.toNat % 32 = n) (hm : 2 ^ n = m) :
      (w >>> s).toUInt8.toNat = w.toNat / m % 256 := by
    rw [UInt32.toNat_toUInt8, UInt32.toNat_shiftRight, hs, Nat.shiftRight_eq_div_pow, hm]
  rw [toNat_join32, hshift 24 24 16777216 rfl rfl, hshift 16 16 65536 rfl rfl,
    hshift 8 8 256 rfl rfl, UInt32.toNat_toUInt8]
  omega

/-- The word that bytes spell has these bytes. -/
theorem word32_join32 (a b c d : UInt8) : word32 (join32 a b c d) = [a, b, c, d] := by
  have ha := a.toNat_lt
  have hb := b.toNat_lt
  have hc := c.toNat_lt
  have hd := d.toNat_lt
  have hbyte (x : UInt8) (s : UInt32) (n m : Nat) (hs : s.toNat % 32 = n) (hm : 2 ^ n = m)
      (hx : (join32 a b c d).toNat / m % 256 = x.toNat) :
      (join32 a b c d >>> s).toUInt8 = x := by
    apply UInt8.toNat_inj.1
    rw [UInt32.toNat_toUInt8, UInt32.toNat_shiftRight, hs, Nat.shiftRight_eq_div_pow, hm, hx]
  have hnat := toNat_join32 a b c d
  have hlow : (join32 a b c d).toUInt8 = d := by
    apply UInt8.toNat_inj.1
    rw [UInt32.toNat_toUInt8]
    omega
  rw [word32, hbyte a 24 24 16777216 rfl rfl (by omega), hbyte b 16 16 65536 rfl rfl (by omega),
    hbyte c 8 8 256 rfl rfl (by omega), hlow]

theorem toNat_join64 (hi lo : UInt32) :
    (join64 hi lo).toNat = hi.toNat * 4294967296 + lo.toNat := by
  have hhi := hi.toNat_lt
  have hlo := lo.toNat_lt
  have hshift : (hi.toUInt64 <<< 32).toNat = hi.toNat * 4294967296 := by
    rw [UInt64.toNat_shiftLeft, UInt32.toNat_toUInt64]
    have hmul : hi.toNat <<< (UInt64.toNat 32 % 64) = hi.toNat * 4294967296 := Nat.shiftLeft_eq _ 32
    rw [hmul, Nat.mod_eq_of_lt (by omega)]
  rw [join64, UInt64.toNat_or, hshift, UInt32.toNat_toUInt64,
    or_eq_add 4294967296 (n := 32) rfl hlo]

/-- The halves of a word spell it. -/
theorem join64_word64 (w : UInt64) : join64 (w >>> 32).toUInt32 w.toUInt32 = w := by
  have hw := w.toNat_lt
  apply UInt64.toNat_inj.1
  rw [toNat_join64, UInt64.toNat_toUInt32, UInt64.toNat_toUInt32, UInt64.toNat_shiftRight]
  have : w.toNat >>> (UInt64.toNat 32 % 64) = w.toNat / 4294967296 :=
    Nat.shiftRight_eq_div_pow _ 32
  omega

/-- The word that halves spell has their bytes. -/
theorem word64_join64 (hi lo : UInt32) : word64 (join64 hi lo) = word32 hi ++ word32 lo := by
  have hhi := hi.toNat_lt
  have hlo := lo.toNat_lt
  have hhigh : (join64 hi lo >>> 32).toUInt32 = hi := by
    apply UInt32.toNat_inj.1
    rw [UInt64.toNat_toUInt32, UInt64.toNat_shiftRight, toNat_join64]
    have : (hi.toNat * 4294967296 + lo.toNat) >>> (UInt64.toNat 32 % 64) =
        (hi.toNat * 4294967296 + lo.toNat) / 4294967296 := Nat.shiftRight_eq_div_pow _ 32
    omega
  have hlow : (join64 hi lo).toUInt32 = lo := by
    apply UInt32.toNat_inj.1
    rw [UInt64.toNat_toUInt32, toNat_join64]
    omega
  rw [word64, hhigh, hlow]

end ClassTemplates.BigEndian
