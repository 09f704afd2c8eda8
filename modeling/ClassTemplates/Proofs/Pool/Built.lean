import ClassTemplates.Proofs.Pool.Additions

/-!
# Pools that are built up

A pool that comes about by appending constants consists of their slots, one constant behind the
other. So a second slot stands behind each constant that takes two and nowhere else, and the
entries are numbered with gaps only there.

## Main definitions

- `Constant.slots` — what a constant appends
- `Pool.Built` — a pool that comes about by appending constants
- `Pool.Numbered` — how the constants of a pool are numbered

## Main results

- `Pool.built_iff` — the slots of a pool that was built up
- `Pool.Built.numbered` — its numbers
-/

namespace ClassTemplates

/-! ### Slots -/

namespace Constant

/-- The slots of a constant. -/
def slots (c : Constant) : List Constant :=
  if c.width = 2 then [c, secondSlot] else [c]

theorem width_eq_two {c : Constant} :
    c.width = 2 ↔ (∃ value, c = long value) ∨ ∃ bits, c = double bits := by
  cases c <;> simp [width]

theorem length_slots (c : Constant) : c.slots.length = c.width := by
  cases c <;> rfl

theorem mem_slots {c d : Constant} (h : d ∈ c.slots) : d = c ∨ d = secondSlot := by
  unfold slots at h
  split at h
  · simpa using h
  · exact .inl (by simpa using h)

theorem mem_slots_self (c : Constant) : c ∈ c.slots := by
  by_cases hwidth : c.width = 2 <;> simp [slots, hwidth]

/-- Among the slots of constants, a second slot is never the first, and it stands behind another one
exactly if that is a constant of two slots. -/
theorem getElem?_flatMap_slots {constants : List Constant}
    (hne : ∀ c ∈ constants, c ≠ secondSlot) :
    (constants.flatMap slots)[0]? ≠ some secondSlot ∧
      ∀ n, (constants.flatMap slots)[n + 1]? = some secondSlot ↔
        ∃ c, (constants.flatMap slots)[n]? = some c ∧ c.width = 2 := by
  induction constants with
  | nil => simp
  | cons c constants ih =>
    obtain ⟨hc, hne⟩ := List.forall_mem_cons.1 hne
    obtain ⟨hfirst, hnext⟩ := ih hne
    rw [List.flatMap_cons, slots]
    by_cases hwide : c.width = 2
    · rw [if_pos hwide]
      refine ⟨by simpa using hc, fun n => ?_⟩
      match n with
      | 0 => simpa using hwide
      | 1 => simpa [width] using hfirst
      | n + 2 => simpa using hnext n
    · rw [if_neg hwide]
      refine ⟨by simpa using hc, fun n => ?_⟩
      match n with
      | 0 => simpa [hwide] using hfirst
      | n + 1 => simpa using hnext n

end Constant

namespace Pool

variable {p q : Pool} {c : Constant} {constants : List Constant} {i : UInt16}

theorem toList_append (c : Constant) :
    (p.append c).slots.toList = p.slots.toList ++ c.slots := by
  unfold append Constant.slots
  split <;> simp

theorem bounded_append_iff : (p.append c).Bounded ↔ p.fits c = true := by
  have hsize : (p.append c).slots.size = p.slots.size + c.width := by
    rw [← Array.length_toList, toList_append, List.length_append, c.length_slots,
      Array.length_toList]
  rw [Bounded, hsize, fits, decide_eq_true_iff]

/-! ### Building -/

/-- The pool comes about by appending constants to the empty pool, none of them a second slot.
Without room for a constant the pool stays as it is. -/
inductive Built : Pool → Prop
  | empty : Built empty
  | pushed {p q : Pool} {c : Constant} {result : Except PoolError UInt16} :
    Built p → c ≠ .secondSlot → (push c).run p = (result, q) → Built q

/-- Appending a constant adds its slots, or nothing. -/
theorem toList_push {result : Except PoolError UInt16} (h : (push c).run p = (result, q)) :
    (p.fits c = true ∧ q.slots.toList = p.slots.toList ++ c.slots) ∨ q = p := by
  by_cases hfit : p.fits c = true
  · rw [push_of_fits hfit] at h
    cases h
    exact .inl ⟨hfit, toList_append c⟩
  · rw [push_of_not_fits hfit] at h
    cases h
    exact .inr rfl

theorem Built.bounded (h : p.Built) : p.Bounded := by
  induction h with
  | empty => exact Nat.zero_le _
  | @pushed p q c _ _ _ hpush ih =>
    have hq : q = ((push c).run p).2 := by rw [hpush]
    rw [hq]
    exact push_bounded ih

theorem Built.exists_constants (h : p.Built) : ∃ constants : List Constant,
    (∀ c ∈ constants, c ≠ .secondSlot) ∧ p.slots.toList = constants.flatMap Constant.slots := by
  induction h with
  | empty => exact ⟨[], by simp, rfl⟩
  | @pushed p q c _ _ hc hpush ih =>
    obtain ⟨constants, hne, hslots⟩ := ih
    rcases toList_push hpush with ⟨-, hq⟩ | rfl
    · refine ⟨constants ++ [c], fun d hd => ?_, by simp [hq, hslots]⟩
      rcases List.mem_append.1 hd with hd | hd
      · exact hne d hd
      · rw [List.mem_singleton.1 hd]
        exact hc
    · exact ⟨constants, hne, hslots⟩

/-- From a pool that was built up, more constants lead to every bounded pool with their slots. -/
theorem Built.of_slots (hp : p.Built) (hne : ∀ c ∈ constants, c ≠ .secondSlot)
    (hslots : q.slots.toList = p.slots.toList ++ constants.flatMap Constant.slots)
    (hq : q.Bounded) : q.Built := by
  induction constants generalizing p with
  | nil =>
    rw [List.flatMap_nil, List.append_nil] at hslots
    have hqp : q = p := congrArg Pool.mk (Array.toList_inj.1 hslots)
    rwa [hqp]
  | cons c constants ih =>
    obtain ⟨hc, hne⟩ := List.forall_mem_cons.1 hne
    have hrest : q.slots.toList =
        (p.append c).slots.toList ++ constants.flatMap Constant.slots := by
      rw [hslots, toList_append, List.append_assoc, List.flatMap_cons]
    have hbounded : (p.append c).Bounded := .of_le ⟨_, hrest.symm⟩ hq
    exact ih (.pushed hp hc (push_of_fits (bounded_append_iff.1 hbounded))) hne hrest

/-- The pools that are built up: their slots are those of constants, and not too many. -/
theorem built_iff : p.Built ↔ p.Bounded ∧ ∃ constants : List Constant,
    (∀ c ∈ constants, c ≠ .secondSlot) ∧ p.slots.toList = constants.flatMap Constant.slots :=
  ⟨fun h => ⟨h.bounded, h.exists_constants⟩,
    fun ⟨hbounded, _, hne, hslots⟩ => .of_slots .empty hne hslots hbounded⟩

/-! ### Numbers -/

/-- Constants are numbered from one, with a gap behind each that takes two slots and nowhere else,
the count is one more than the last number, and the entries are listed in order. -/
structure Numbered (p : Pool) : Prop where
  size_le : p.slots.size ≤ 65534
  count_eq : p.count.toNat = p.slots.size + 1
  /-- A second slot stands behind each `long` and each `double` and nowhere else. -/
  secondSlot_iff (i : UInt16) : p.get? i = some .secondSlot ↔
    ∃ j, i.toNat = j.toNat + 1 ∧
      ((∃ value, p.get? j = some (.long value)) ∨ ∃ bits, p.get? j = some (.double bits))
  /-- Each index but those of second slots has one entry, with its constant. -/
  mem_entries_iff (i : UInt16) (c : Constant) :
    (i, c) ∈ p.entries ↔ p.get? i = some c ∧ c ≠ .secondSlot
  /-- The indices increase, so none is listed twice. -/
  increasing : (p.entries.map Prod.fst).Pairwise (· < ·)

theorem Built.get?_eq_secondSlot (h : p.Built) : p.get? i = some .secondSlot ↔
    ∃ j c, i.toNat = j.toNat + 1 ∧ p.get? j = some c ∧ c.width = 2 := by
  obtain ⟨constants, hne, hslots⟩ := h.exists_constants
  obtain ⟨hfirst, hnext⟩ := Constant.getElem?_flatMap_slots hne
  rw [← hslots] at hfirst hnext
  constructor
  · intro hi
    obtain ⟨n, hn, hsecond⟩ := get?_eq_some_iff_exists.1 hi
    cases n with
    | zero => exact absurd hsecond hfirst
    | succ n =>
      obtain ⟨c, hc, hwide⟩ := (hnext n).1 hsecond
      have hlt := i.toNat_lt
      have hj : (UInt16.ofNat (n + 1)).toNat = n + 1 :=
        UInt16.toNat_ofNat_of_lt' (show n + 1 < 65536 by omega)
      exact ⟨.ofNat (n + 1), c, by rw [hj, hn], get?_eq_some_iff_exists.2 ⟨n, hj, hc⟩, hwide⟩
  · rintro ⟨j, c, hi, hj, hwide⟩
    obtain ⟨n, hn, hc⟩ := get?_eq_some_iff_exists.1 hj
    exact get?_eq_some_iff_exists.2 ⟨n + 1, by rw [hi, hn], (hnext n).2 ⟨c, hc, hwide⟩⟩

/-- A place in a bounded pool, counted from one, is an index. -/
theorem toNat_of_mem_zipIdx (hp : p.Bounded) {n : Nat} (h : (c, n) ∈ p.slots.toList.zipIdx 1) :
    (UInt16.ofNat n).toNat = n := by
  obtain ⟨hpos, hget⟩ := List.mk_mem_zipIdx_iff_le_and_getElem?_sub.1 h
  have hlt := (List.getElem?_eq_some_iff.1 hget).1
  rw [Array.length_toList] at hlt
  have hsize : p.slots.size ≤ 65534 := hp
  exact UInt16.toNat_ofNat_of_lt' (show n < 65536 by omega)

theorem mem_entries (hp : p.Bounded) :
    (i, c) ∈ p.entries ↔ p.get? i = some c ∧ c ≠ .secondSlot := by
  constructor
  · intro h
    obtain ⟨⟨d, n⟩, hmem, hd⟩ := List.mem_filterMap.1 h
    obtain ⟨hsecond, hd⟩ := Option.ite_none_left_eq_some.1 hd
    obtain ⟨rfl, rfl⟩ := Prod.mk.inj (Option.some.inj hd)
    obtain ⟨hpos, hget⟩ := List.mk_mem_zipIdx_iff_le_and_getElem?_sub.1 hmem
    refine ⟨get?_eq_some_iff_exists.2 ⟨n - 1, ?_, hget⟩, hsecond⟩
    rw [toNat_of_mem_zipIdx hp hmem]
    omega
  · rintro ⟨hi, hsecond⟩
    obtain ⟨n, hn, hget⟩ := get?_eq_some_iff_exists.1 hi
    refine List.mem_filterMap.2 ⟨(c, 1 + n), List.mk_add_mem_zipIdx_iff_getElem?.2 hget, ?_⟩
    have hindex : UInt16.ofNat (1 + n) = i := by rw [Nat.add_comm, ← hn, UInt16.ofNat_toNat]
    simp only [if_neg hsecond, hindex]

theorem pairwise_entries (hp : p.Bounded) : (p.entries.map Prod.fst).Pairwise (· < ·) := by
  have hplaces : (p.slots.toList.zipIdx 1).Pairwise fun x y => x.2 < y.2 := by
    rw [← List.pairwise_map (f := Prod.snd) (R := (· < ·)), List.zipIdx_map_snd]
    exact List.pairwise_lt_range'
  rw [List.pairwise_map, entries, List.pairwise_filterMap]
  refine hplaces.imp_of_mem ?_
  rintro ⟨c, m⟩ ⟨d, n⟩ hm hn hlt x hx y hy
  obtain ⟨-, hx⟩ := Option.ite_none_left_eq_some.1 hx
  obtain ⟨-, hy⟩ := Option.ite_none_left_eq_some.1 hy
  cases hx
  cases hy
  rw [UInt16.lt_iff_toNat_lt, toNat_of_mem_zipIdx hp hm, toNat_of_mem_zipIdx hp hn]
  exact hlt

theorem toNat_count (hp : p.Bounded) : p.count.toNat = p.slots.size + 1 := by
  have hsize : p.slots.size ≤ 65534 := hp
  exact UInt16.toNat_ofNat_of_lt' (show p.slots.size + 1 < 65536 by omega)

theorem Built.numbered (h : p.Built) : p.Numbered where
  size_le := h.bounded
  count_eq := toNat_count h.bounded
  secondSlot_iff i := by
    rw [h.get?_eq_secondSlot]
    constructor
    · rintro ⟨j, c, hi, hj, hwide⟩
      obtain ⟨value, rfl⟩ | ⟨bits, rfl⟩ := Constant.width_eq_two.1 hwide
      · exact ⟨j, hi, .inl ⟨value, hj⟩⟩
      · exact ⟨j, hi, .inr ⟨bits, hj⟩⟩
    · rintro ⟨j, hi, ⟨value, hj⟩ | ⟨bits, hj⟩⟩
      · exact ⟨j, _, hi, hj, rfl⟩
      · exact ⟨j, _, hi, hj, rfl⟩
  mem_entries_iff _ _ := mem_entries h.bounded
  increasing := pairwise_entries h.bounded

end Pool

end ClassTemplates
