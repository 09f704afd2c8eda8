import ClassTemplates.Verify.Pool

/-!
# Growing pools

Additions only append, so an index keeps naming the same constant. An index that lies inside a pool
means the same in every larger one; an index outside of it may come to mean something.

## Main definitions

- `Pool.Inside`, `Pool.Closed` — indices that stay inside a pool
- `Pool.Has` — an index names a constant of a kind
-/

namespace ClassTemplates

namespace Pool

/-- The first pool is an initial part of the second. -/
instance : LE Pool :=
  ⟨fun p q => p.slots.toList <+: q.slots.toList⟩

/-- The pool has no more slots than an index can name. -/
def Bounded (p : Pool) : Prop :=
  p.slots.size ≤ maxSlots

/-- The index names a slot of the pool, or is zero. -/
def Inside (p : Pool) (index : UInt16) : Prop :=
  index.toNat ≤ p.slots.size

/-- No constant of the pool refers to something outside of it. -/
def Closed (p : Pool) : Prop :=
  ∀ c ∈ p.slots.toList, ∀ r ∈ c.references, p.Inside r.1

/-- The index names a constant of a kind. -/
def Has (p : Pool) (index : UInt16) (kind : ConstantKind) : Prop :=
  ∃ c, p.get? index = some c ∧ c.kind? = some kind

variable {p q r : Pool} {i j : UInt16} {c d : Constant}

theorem le_refl (p : Pool) : p ≤ p :=
  List.prefix_rfl

theorem le_trans (hpq : p ≤ q) (hqr : q ≤ r) : p ≤ r :=
  List.IsPrefix.trans hpq hqr

theorem le_antisymm (hpq : p ≤ q) (hqp : q ≤ p) : p = q := by
  have hslots : p.slots.toList = q.slots.toList :=
    List.IsPrefix.eq_of_length_le hpq (List.IsPrefix.length_le hqp)
  cases p
  cases q
  exact congrArg mk (Array.toList_inj.1 hslots)

theorem size_le (h : p ≤ q) : p.slots.size ≤ q.slots.size := by
  simpa using List.IsPrefix.length_le h

theorem Bounded.of_le (h : p ≤ q) (hq : q.Bounded) : p.Bounded :=
  Nat.le_trans (size_le h) hq

/-! ### Entries -/

theorem get?_eq_some : p.get? i = some c ↔ i ≠ 0 ∧ p.slots[i.toNat - 1]? = some c := by
  unfold get?
  split <;> simp_all

/-- The slot at a place, counted from zero, has the number behind the place as its index. -/
theorem get?_eq_some_iff_exists :
    p.get? i = some c ↔ ∃ n, i.toNat = n + 1 ∧ p.slots.toList[n]? = some c := by
  rw [get?_eq_some, ← Array.getElem?_toList]
  constructor
  · rintro ⟨hi, hc⟩
    have hpos : i.toNat ≠ 0 := fun h0 => hi (UInt16.toNat_inj.1 h0)
    exact ⟨i.toNat - 1, by omega, hc⟩
  · rintro ⟨n, hn, hc⟩
    refine ⟨fun h0 => ?_, by rwa [hn, Nat.add_sub_cancel]⟩
    rw [h0] at hn
    cases hn

theorem get?_mono (h : p ≤ q) (hc : p.get? i = some c) : q.get? i = some c := by
  obtain ⟨hi, hc⟩ := get?_eq_some.1 hc
  refine get?_eq_some.2 ⟨hi, ?_⟩
  rw [← Array.getElem?_toList] at hc ⊢
  obtain ⟨added, h⟩ := h
  rw [← h, List.getElem?_append_left (List.getElem?_eq_some_iff.1 hc).1]
  exact hc

theorem mem_of_get? (h : p.get? i = some c) : c ∈ p.slots.toList := by
  rw [Array.mem_toList_iff]
  exact Array.mem_of_getElem? (get?_eq_some.1 h).2

/-- An index inside a pool names the same constant in every larger one. -/
theorem inside_of_get? (h : p.get? i = some c) : p.Inside i := by
  obtain ⟨hi, hc⟩ := get?_eq_some.1 h
  have hlt := (Array.getElem?_eq_some_iff.1 hc).1
  unfold Inside
  omega

theorem get?_eq_of_inside (h : p ≤ q) (hi : p.Inside i) : q.get? i = p.get? i := by
  cases hc : p.get? i with
  | some c => exact get?_mono h hc
  | none =>
    unfold get? at hc ⊢
    split
    · rfl
    · rename_i h0
      rw [if_neg h0, Array.getElem?_eq_none_iff] at hc
      have : i.toNat ≠ 0 := fun hz => h0 (UInt16.toNat_inj.1 hz)
      unfold Inside at hi
      omega

/-- An entry of a closed pool refers to its inside. -/
theorem Closed.inside (h : p.Closed) (hc : p.get? i = some c) {x : UInt16 × ConstantKind}
    (hx : x ∈ c.references) : p.Inside x.1 :=
  h c (mem_of_get? hc) x hx

theorem Has.mono (h : p ≤ q) {kind : ConstantKind} (hi : p.Has i kind) : q.Has i kind := by
  obtain ⟨c, hc, hk⟩ := hi
  exact ⟨c, get?_mono h hc, hk⟩

/-! ### Texts

What an entry stands for is read off the entries it refers to: in a larger pool it is the same if it
was defined, and also if it was not, as long as all references stay inside. -/

theorem utf8?_eq_some {t : String} : p.utf8? i = some t ↔ p.get? i = some (.utf8 t) := by
  unfold utf8?
  split <;> simp_all

theorem utf8?_mono (h : p ≤ q) {t : String} (ht : p.utf8? i = some t) : q.utf8? i = some t :=
  utf8?_eq_some.2 (get?_mono h (utf8?_eq_some.1 ht))

theorem utf8?_eq_of_inside (h : p ≤ q) (hi : p.Inside i) : q.utf8? i = p.utf8? i := by
  unfold utf8?
  rw [get?_eq_of_inside h hi]

theorem className?_eq_some {t : String} :
    p.className? i = some t ↔ ∃ j, p.get? i = some (.class j) ∧ p.utf8? j = some t := by
  unfold className?
  split <;> simp_all

theorem className?_mono (h : p ≤ q) {t : String} (ht : p.className? i = some t) :
    q.className? i = some t := by
  obtain ⟨j, hc, ht⟩ := className?_eq_some.1 ht
  exact className?_eq_some.2 ⟨j, get?_mono h hc, utf8?_mono h ht⟩

theorem className?_eq_of_inside (h : p ≤ q) (hp : p.Closed) (hi : p.Inside i) :
    q.className? i = p.className? i := by
  unfold className?
  rw [get?_eq_of_inside h hi]
  split
  · rename_i j hc
    exact utf8?_eq_of_inside h (hp.inside (x := (j, .text)) hc (by simp [Constant.references]))
  · rfl

theorem stringValue?_eq_some {t : String} :
    p.stringValue? i = some t ↔ ∃ j, p.get? i = some (.string j) ∧ p.utf8? j = some t := by
  unfold stringValue?
  split <;> simp_all

theorem stringValue?_mono (h : p ≤ q) {t : String} (ht : p.stringValue? i = some t) :
    q.stringValue? i = some t := by
  obtain ⟨j, hc, ht⟩ := stringValue?_eq_some.1 ht
  exact stringValue?_eq_some.2 ⟨j, get?_mono h hc, utf8?_mono h ht⟩

theorem stringValue?_eq_of_inside (h : p ≤ q) (hp : p.Closed) (hi : p.Inside i) :
    q.stringValue? i = p.stringValue? i := by
  unfold stringValue?
  rw [get?_eq_of_inside h hi]
  split
  · rename_i j hc
    exact utf8?_eq_of_inside h (hp.inside (x := (j, .text)) hc (by simp [Constant.references]))
  · rfl

theorem nameAndType?_eq_some {x : String × String} :
    p.nameAndType? i = some x ↔
      ∃ n d, p.get? i = some (.nameAndType n d) ∧ p.utf8? n = some x.1 ∧ p.utf8? d = some x.2 := by
  obtain ⟨name, descriptor⟩ := x
  unfold nameAndType?
  split
  · rename_i n d hc
    simp only [Option.bind_eq_bind, Option.bind_eq_some_iff, Option.pure_def, Option.some.injEq,
      hc, Constant.nameAndType.injEq]
    constructor
    · rintro ⟨n', hn, d', hd, h⟩
      cases h
      exact ⟨n, d, ⟨rfl, rfl⟩, hn, hd⟩
    · rintro ⟨_, _, ⟨rfl, rfl⟩, hn, hd⟩
      exact ⟨name, hn, descriptor, hd, rfl⟩
  · rename_i hne
    constructor
    · intro h
      cases h
    · rintro ⟨n, d, hc, -⟩
      exact absurd hc (hne n d)

theorem nameAndType?_mono (h : p ≤ q) {x : String × String} (hx : p.nameAndType? i = some x) :
    q.nameAndType? i = some x := by
  obtain ⟨n, d, hc, hn, hd⟩ := nameAndType?_eq_some.1 hx
  exact nameAndType?_eq_some.2 ⟨n, d, get?_mono h hc, utf8?_mono h hn, utf8?_mono h hd⟩

theorem nameAndType?_eq_of_inside (h : p ≤ q) (hp : p.Closed) (hi : p.Inside i) :
    q.nameAndType? i = p.nameAndType? i := by
  unfold nameAndType?
  rw [get?_eq_of_inside h hi]
  split
  · rename_i n d hc
    have hn := hp.inside (x := (n, .text)) hc (by simp [Constant.references])
    have hd := hp.inside (x := (d, .text)) hc (by simp [Constant.references])
    rw [utf8?_eq_of_inside h hn, utf8?_eq_of_inside h hd]
  · rfl

theorem memberOf?_eq_some {m : MemberRef} :
    p.memberOf? i j = some m ↔
      p.className? i = some m.owner ∧ p.nameAndType? j = some (m.name, m.descriptor) := by
  obtain ⟨owner, name, descriptor⟩ := m
  unfold memberOf?
  cases ho : p.className? i <;> cases hn : p.nameAndType? j <;> simp
  rename_i x
  obtain ⟨n, d⟩ := x
  simp

theorem memberOf?_mono (h : p ≤ q) {m : MemberRef} (hm : p.memberOf? i j = some m) :
    q.memberOf? i j = some m := by
  obtain ⟨ho, hn⟩ := memberOf?_eq_some.1 hm
  exact memberOf?_eq_some.2 ⟨className?_mono h ho, nameAndType?_mono h hn⟩

theorem memberOf?_eq_of_inside (h : p ≤ q) (hp : p.Closed) (hi : p.Inside i) (hj : p.Inside j) :
    q.memberOf? i j = p.memberOf? i j := by
  unfold memberOf?
  rw [className?_eq_of_inside h hp hi, nameAndType?_eq_of_inside h hp hj]

theorem member?_mono (h : p ≤ q) {m : MemberRef} (hm : p.member? i = some m) :
    q.member? i = some m := by
  unfold member? at hm
  split at hm
  case h_4 => cases hm
  all_goals
    rename_i owner nat hc
    simpa only [member?, get?_mono h hc] using memberOf?_mono h hm

theorem inside_of_member? {m : MemberRef} (h : p.member? i = some m) : p.Inside i := by
  cases hc : p.get? i with
  | none =>
    rw [member?, hc] at h
    cases h
  | some c => exact inside_of_get? hc

theorem member?_eq_of_inside (h : p ≤ q) (hp : p.Closed) (hi : p.Inside i) :
    q.member? i = p.member? i := by
  unfold member?
  rw [get?_eq_of_inside h hi]
  split
  case h_4 => rfl
  all_goals
    rename_i owner nat hc
    exact memberOf?_eq_of_inside h hp
      (hp.inside (x := (owner, .class)) hc (by simp [Constant.references]))
      (hp.inside (x := (nat, .nameAndType)) hc (by simp [Constant.references]))

end Pool

end ClassTemplates
