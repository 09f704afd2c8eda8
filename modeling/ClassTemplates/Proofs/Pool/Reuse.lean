import ClassTemplates.Proofs.Pool.Calls
import Mathlib.Algebra.GroupWithZero.Nat

/-!
# Entries that are used again

An entry is used again for what counts as the same. That is the same constant, except among floats,
which are compared as numbers: the two zeros share one entry, so that one of them may come back as
the other, and a NaN never finds the entry it has. Texts, and constants that refer to others, are
found and named for good.

## Main definitions

- `Constant.isNaN`, `Constant.otherZero` — where being the same is not equality
- `Pool.Wanted.NamedBy` — an index names what was wanted

## Main results

- `Constant.same_iff` — the constants that count as the same
- `Pool.names_after` — what was wanted is named for good
- `Pool.insert_after` — what the entry of a constant holds, and whether it is found again
-/

namespace ClassTemplates

/-! ### Floats -/

/-- Without its highest bit, a number is zero if it is zero or has no other bit. -/
theorem and_mask_eq_zero {n k : Nat} (h : n < 2 ^ (k + 1)) :
    n &&& (2 ^ k - 1) = 0 ↔ n = 0 ∨ n = 2 ^ k := by
  rw [Nat.and_two_pow_sub_one_eq_mod]
  constructor
  · intro hmod
    obtain ⟨m, rfl⟩ := Nat.dvd_of_mod_eq_zero hmod
    rw [Nat.pow_succ] at h
    have hm : m = 0 ∨ m = 1 := by
      have := Nat.lt_of_mul_lt_mul_left h
      omega
    rcases hm with rfl | rfl <;> simp
  · rintro (rfl | rfl)
    · exact Nat.zero_mod _
    · exact Nat.mod_self _

theorem magnitude32_eq_zero {a b : UInt32} : (a ||| b) &&& 0x7fffffff = 0 ↔
    (a = 0 ∨ a = 0x80000000) ∧ (b = 0 ∨ b = 0x80000000) := by
  simp only [← UInt32.toNat_inj, UInt32.toNat_and, UInt32.toNat_or, Nat.and_or_distrib_right]
  exact Nat.or_eq_zero_iff.trans
    (and_congr (and_mask_eq_zero (k := 31) a.toNat_lt) (and_mask_eq_zero (k := 31) b.toNat_lt))

theorem magnitude64_eq_zero {a b : UInt64} : (a ||| b) &&& 0x7fffffffffffffff = 0 ↔
    (a = 0 ∨ a = 0x8000000000000000) ∧ (b = 0 ∨ b = 0x8000000000000000) := by
  simp only [← UInt64.toNat_inj, UInt64.toNat_and, UInt64.toNat_or, Nat.and_or_distrib_right]
  exact Nat.or_eq_zero_iff.trans
    (and_congr (and_mask_eq_zero (k := 63) a.toNat_lt) (and_mask_eq_zero (k := 63) b.toNat_lt))

theorem sameFloat32_iff {a b : UInt32} : sameFloat32 a b = true ↔ isNaN32 b = false ∧
    (a = b ∨ (a = 0 ∧ b = 0x80000000) ∨ (a = 0x80000000 ∧ b = 0)) := by
  simp only [sameFloat32, Bool.and_eq_true, Bool.or_eq_true, Bool.not_eq_true', beq_iff_eq,
    magnitude32_eq_zero]
  constructor
  · rintro ⟨⟨-, hb⟩, rfl | ⟨rfl | rfl, rfl | rfl⟩⟩ <;> simp [hb]
  · rintro ⟨hb, rfl | ⟨rfl, rfl⟩ | ⟨rfl, rfl⟩⟩
    · exact ⟨⟨hb, hb⟩, .inl rfl⟩
    · decide
    · decide

theorem sameFloat64_iff {a b : UInt64} : sameFloat64 a b = true ↔ isNaN64 b = false ∧
    (a = b ∨ (a = 0 ∧ b = 0x8000000000000000) ∨ (a = 0x8000000000000000 ∧ b = 0)) := by
  simp only [sameFloat64, Bool.and_eq_true, Bool.or_eq_true, Bool.not_eq_true', beq_iff_eq,
    magnitude64_eq_zero]
  constructor
  · rintro ⟨⟨-, hb⟩, rfl | ⟨rfl | rfl, rfl | rfl⟩⟩ <;> simp [hb]
  · rintro ⟨hb, rfl | ⟨rfl, rfl⟩ | ⟨rfl, rfl⟩⟩
    · exact ⟨⟨hb, hb⟩, .inl rfl⟩
    · decide
    · decide

/-! ### Constants that count as the same -/

namespace Constant

/-- The constant is a float that is not a number. -/
def isNaN : Constant → Bool
  | float bits => isNaN32 bits
  | double bits => isNaN64 bits
  | _ => false

/-- The zero of the other sign. -/
def otherZero : Constant → Option Constant
  | float bits =>
    if bits = 0 then some (float 0x80000000) else if bits = 0x80000000 then some (float 0) else none
  | double bits =>
    if bits = 0 then some (double 0x8000000000000000)
    else if bits = 0x8000000000000000 then some (double 0) else none
  | _ => none

theorem otherZero_float {bits : UInt32} {d : Constant} : (float bits).otherZero = some d ↔
    ∃ a, d = float a ∧ ((a = 0 ∧ bits = 0x80000000) ∨ (a = 0x80000000 ∧ bits = 0)) := by
  simp only [otherZero]
  split_ifs with h h'
  · subst h
    simp [eq_comm]
  · subst h'
    simp [eq_comm]
  · simp [h, h']

theorem otherZero_double {bits : UInt64} {d : Constant} : (double bits).otherZero = some d ↔
    ∃ a, d = double a ∧
      ((a = 0 ∧ bits = 0x8000000000000000) ∨ (a = 0x8000000000000000 ∧ bits = 0)) := by
  simp only [otherZero]
  split_ifs with h h'
  · subst h
    simp [eq_comm]
  · subst h'
    simp [eq_comm]
  · simp [h, h']

/-- What counts as the same as a constant is that constant or, for a zero, the zero of the other
sign; nothing does if the constant is a NaN. -/
theorem same_iff {c d : Constant} :
    d.same c = true ↔ c.isNaN = false ∧ (d = c ∨ c.otherZero = some d) := by
  cases c with
  | float bits =>
    rw [otherZero_float]
    cases d with
    | float a => simp [same, sameFloat32_iff, isNaN]
    | _ => simp [same]
  | double bits =>
    rw [otherZero_double]
    cases d with
    | double a => simp [same, sameFloat64_iff, isNaN]
    | _ => simp [same]
  | _ =>
    have hbeq (c : Constant) (h : ∀ d : Constant, d.same c = (d == c)) (hnan : c.isNaN = false)
        (hzero : c.otherZero = none) :
        d.same c = true ↔ c.isNaN = false ∧ (d = c ∨ c.otherZero = some d) := by
      simp [h, hnan, hzero]
    exact hbeq _ (fun d => by cases d <;> rfl) rfl rfl

end Constant

namespace Pool

variable {p q r : Pool} {c : Constant} {i : UInt16} {wanted : Wanted}

/-! ### Entries of constants -/

/-- The entry of a constant that is asked for holds the constant, unless it is the other zero. -/
theorem exists_get?_of_insert (hp : p.Bounded) (h : (insert c).run p = (.ok i, q)) :
    ∃ d, q.get? i = some d ∧ (d = c ∨ c.otherZero = some d) := by
  cases hfind : p.find? c with
  | some j =>
    rw [insert_of_find? hfind] at h
    cases h
    obtain ⟨d, hd, hsame, -⟩ := exists_get?_of_find? hp hfind
    exact ⟨d, hd, (Constant.same_iff.1 hsame).2⟩
  | none =>
    rw [insert_of_find?_eq_none hfind] at h
    obtain ⟨hfit, rfl, rfl⟩ := push_eq_ok.1 h
    exact ⟨c, get?_nextIndex hfit, .inl rfl⟩

theorem otherZero_ne_self : c.otherZero ≠ some c := by
  cases c with
  | float bits =>
    rw [ne_eq, Constant.otherZero_float]
    rintro ⟨a, ha, ⟨rfl, rfl⟩ | ⟨rfl, rfl⟩⟩ <;> exact absurd ha (by decide)
  | double bits =>
    rw [ne_eq, Constant.otherZero_double]
    rintro ⟨a, ha, ⟨rfl, rfl⟩ | ⟨rfl, rfl⟩⟩ <;> exact absurd ha (by decide)
  | _ => exact nofun

theorem isNaN_of_otherZero {d : Constant} (h : c.otherZero = some d) : c.isNaN = false := by
  cases c with
  | float bits =>
    obtain ⟨a, -, ⟨-, rfl⟩ | ⟨-, rfl⟩⟩ := Constant.otherZero_float.1 h <;> decide
  | double bits =>
    obtain ⟨a, -, ⟨-, rfl⟩ | ⟨-, rfl⟩⟩ := Constant.otherZero_double.1 h <;> decide
  | _ => rfl

/-- The entry of a constant that is asked for holds the constant exactly if the pool has no other
zero in front of the first. -/
theorem get?_of_insert_iff (hp : p.Bounded) (h : (insert c).run p = (.ok i, q)) :
    q.get? i = some c ↔ ¬∃ d j, c.otherZero = some d ∧ p.get? j = some d ∧
      ∀ k < j, p.get? k ≠ some c := by
  cases hfind : p.find? c with
  | some j₀ =>
    rw [insert_of_find? hfind] at h
    cases h
    obtain ⟨e, he, hsame, hfirst⟩ := exists_get?_of_find? hp hfind
    obtain ⟨hnan, rfl | hzero⟩ := Constant.same_iff.1 hsame
    · refine iff_of_true he ?_
      rintro ⟨d, j, hd, hj, hbefore⟩
      by_cases hji : j = i
      · subst hji
        rw [he] at hj
        cases hj
        exact otherZero_ne_self hd
      · have hij : ¬i < j := fun hlt => hbefore i hlt he
        have hlt : j < i := UInt16.lt_of_le_of_ne (UInt16.not_lt.1 hij) hji
        have hsame' := Constant.same_iff.2 ⟨hnan, .inr hd⟩
        rw [hfirst j hlt d hj] at hsame'
        cases hsame'
    · refine iff_of_false ?_ (not_not_intro ⟨e, i, hzero, he, fun k hk hc => ?_⟩)
      · intro hc
        rw [he] at hc
        cases hc
        exact otherZero_ne_self hzero
      · have hself := Constant.same_iff.2 ⟨hnan, .inl rfl⟩
        rw [hfirst k hk c hc] at hself
        cases hself
  | none =>
    rw [insert_of_find?_eq_none hfind] at h
    obtain ⟨hfit, rfl, rfl⟩ := push_eq_ok.1 h
    refine iff_of_true (get?_nextIndex hfit) ?_
    rintro ⟨d, j, hd, hj, -⟩
    have hsame := Constant.same_iff.2 ⟨isNaN_of_otherZero hd, .inr hd⟩
    rw [same_eq_false_of_find? hfind hj] at hsame
    cases hsame

/-- A NaN is appended each time it is asked for. -/
theorem insert_of_isNaN (h : c.isNaN = true) (p : Pool) : (insert c).run p = (push c).run p := by
  refine insert_of_find?_eq_none ?_
  rw [find?, Option.map_eq_none_iff, Array.findIdx?_eq_none_iff]
  intro d _
  rw [Bool.eq_false_iff, ne_eq, Constant.same_iff, h]
  simp

theorem append_ne (p : Pool) (c : Constant) : p.append c ≠ p := by
  intro h
  have hlength := congrArg (fun p => p.slots.toList.length) h
  have hpos := width_pos c
  simp only [toList_append, List.length_append, c.length_slots] at hlength
  omega

/-- The entry that is used for a constant holds it, unless it is a zero and the other zero comes
first. From then on it is used again, and nothing appended, exactly if the constant is not a NaN. -/
theorem insert_after (calls later : List Call)
    (h : (insert c).run (after calls empty) = (.ok i, q)) :
    (q.get? i = some c ∨ ∃ d, c.otherZero = some d ∧ q.get? i = some d) ∧
      (q.get? i = some c ↔ ¬∃ d j, c.otherZero = some d ∧ (after calls empty).get? j = some d ∧
        ∀ k < j, (after calls empty).get? k ≠ some c) ∧
      ((insert c).run (after later q) = (.ok i, after later q) ↔ c.isNaN = false) := by
  have hp := bounded_after calls
  obtain ⟨d, hd, hcd⟩ := exists_get?_of_insert hp h
  refine ⟨?_, get?_of_insert_iff hp h, ?_⟩
  · rcases hcd with rfl | hzero
    · exact .inl hd
    · exact .inr ⟨d, hzero, hd⟩
  · constructor
    · intro hagain
      by_contra hnan
      rw [insert_of_isNaN (Bool.not_eq_false _ ▸ hnan)] at hagain
      obtain ⟨-, -, hq⟩ := push_eq_ok.1 hagain
      exact append_ne _ _ hq.symm
    · intro hnan
      have hself := Constant.same_iff.2 ⟨hnan, .inl rfl⟩
      exact insert_of_find? (find?_mono (after_onward later q).le (find?_of_insert hself h))

theorem insert_after_zero :
    let q : Pool := ⟨#[.float 0]⟩
    (insert (.float 0x80000000)).run (after [.push (.float 0)] empty) = (.ok 1, q) ∧
      q.get? 1 ≠ some (.float 0x80000000) := by
  intro q
  have h : (insert (.float 0x80000000)).run (after [.push (.float 0)] empty) = (.ok 1, q) :=
    Prod.ext (by decide +kernel) (by decide +kernel)
  refine ⟨h, fun hsame => ?_⟩
  obtain ⟨-, hiff, -⟩ := insert_after [.push (.float 0)] [] h
  refine hiff.1 hsame ⟨.float 0, 1, rfl, by decide +kernel, fun k hk hc => ?_⟩
  obtain rfl : k = 0 := UInt16.toNat_inj.1 (Nat.lt_one_iff.1 (UInt16.lt_iff_toNat_lt.1 hk))
  exact absurd hc (by decide +kernel)

/-! ### Wanted entries -/

/-- The index names what was wanted: the texts come back, from an entry of the kind that was asked
for. -/
def Wanted.NamedBy (p : Pool) (i : UInt16) : Wanted → Prop
  | utf8 text => p.utf8? i = some text
  | «class» name => p.className? i = some name
  | string text => p.stringValue? i = some text
  | nameAndType name descriptor => p.nameAndType? i = some (name, descriptor)
  | fieldRef owner name descriptor =>
    p.member? i = some ⟨owner, name, descriptor⟩ ∧ ∃ a b, p.get? i = some (.fieldRef a b)
  | methodRef owner name descriptor =>
    p.member? i = some ⟨owner, name, descriptor⟩ ∧ ∃ a b, p.get? i = some (.methodRef a b)
  | long value => p.get? i = some (.long value)

theorem Wanted.NamedBy.mono (h : p ≤ q) (hi : wanted.NamedBy p i) : wanted.NamedBy q i := by
  cases wanted with
  | utf8 => exact utf8?_mono h hi
  | «class» => exact className?_mono h hi
  | string => exact stringValue?_mono h hi
  | nameAndType => exact nameAndType?_mono h hi
  | fieldRef | methodRef =>
    obtain ⟨hm, a, b, hc⟩ := hi
    exact ⟨member?_mono h hm, a, b, get?_mono h hc⟩
  | long => exact get?_mono h hi

theorem Wanted.namedBy_of_add (hp : p.Bounded) (h : wanted.add.run p = (.ok i, q)) :
    wanted.NamedBy q i := by
  cases wanted with
  | utf8 => exact (addUtf8_grown hp h).2
  | «class» => exact (addClass_grown hp h).2
  | string => exact (addString_grown hp h).2
  | nameAndType => exact (addNameAndType_grown hp h).2
  | fieldRef =>
    obtain ⟨-, a, b, hi, -⟩ := addFieldRef_spec hp h
    exact ⟨(addFieldRef_grown hp h).2, a, b, hi⟩
  | methodRef =>
    obtain ⟨-, a, b, hi, -⟩ := addMethodRef_spec hp h
    exact ⟨(addMethodRef_grown hp h).2, a, b, hi⟩
  | long value =>
    obtain ⟨d, hd, rfl | hzero⟩ := exists_get?_of_insert hp h
    · exact hd
    · cases hzero

/-- What was wanted is named by its index for good, whatever is asked of the pool later. Asked for
again at any time, it has the same index, and the pool stays as it is. -/
theorem names_after (calls later : List Call)
    (h : wanted.add.run (after calls empty) = (.ok i, q)) :
    wanted.NamedBy (after later q) i ∧
      wanted.add.run (after later q) = (.ok i, after later q) := by
  have hlater := after_onward later q
  refine ⟨(Wanted.namedBy_of_add (bounded_after calls) h).mono hlater.le, ?_⟩
  obtain ⟨r, hr, hback⟩ := wanted.add_lasting.again h hlater
  have hgo : (after later q).Onward r := by
    simpa [hr] using wanted.add_lasting.onward (after later q)
  rwa [le_antisymm hback.le hgo.le] at hr

theorem names_after_field :
    let calls : List Call := [.push (.class 9), .push (.rawUtf8 [0xff]), .add (.string "N")]
    let later : List Call := [.push .secondSlot, .insert (.fieldRef 6 8), .push (.utf8 "N")]
    let wanted : Wanted := .fieldRef "a/B" "N" "I"
    let q : Pool := ⟨#[.class 9, .rawUtf8 [0xff], .utf8 "N", .string 3, .utf8 "a/B", .class 5,
      .utf8 "I", .nameAndType 3 7, .fieldRef 6 8]⟩
    wanted.add.run (after calls empty) = (.ok 9, q) ∧ wanted.NamedBy (after later q) 9 ∧
      wanted.add.run (after later q) = (.ok 9, after later q) := by
  intro calls later wanted q
  have h : wanted.add.run (after calls empty) = (.ok 9, q) :=
    Prod.ext (by decide +kernel) (by decide +kernel)
  exact ⟨h, names_after calls later h⟩

end Pool

end ClassTemplates
