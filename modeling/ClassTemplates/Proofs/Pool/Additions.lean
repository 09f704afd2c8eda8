import ClassTemplates.Pool.Binary
import ClassTemplates.Proofs.Outcome
import ClassTemplates.Proofs.Pool.Growth

/-!
# What additions do to a pool

An addition that succeeds leaves a grown pool, and its index stands for what was asked for. Only
constants that a search finds unchanged are added: texts, and constants that refer to others.

## Main definitions

- `Constant.Plain` — a text, or a constant that refers to others
- `Pool.Sound` — a constant that refers to constants of the right kinds
- `Pool.GrownTo` — a bounded pool with plain and sound constants behind those it had

## Main results

- `Pool.insert_grown` — the index of an added constant names it
- `Pool.addString_grown`, `addClass_grown`, `addFieldRef_grown`, … — the same for the texts
-/

namespace ClassTemplates

/-- A text, or a constant that refers to others. -/
def Constant.Plain (c : Constant) : Prop :=
  (∃ text, c = .utf8 text) ∨ c.references ≠ []

theorem Constant.plain_utf8 (text : String) : (Constant.utf8 text).Plain :=
  .inl ⟨text, rfl⟩

/-- A plain constant takes one slot, and no other constant counts as the same. -/
theorem Constant.Plain.spec {c : Constant} (h : c.Plain) :
    c.width = 1 ∧ ∀ d : Constant, d.same c = true → d = c := by
  have hsame (hbeq : ∀ d : Constant, d.same c = (d == c)) (d : Constant) (hd : d.same c = true) :
      d = c := by
    rw [hbeq] at hd
    exact eq_of_beq hd
  rcases h with ⟨text, rfl⟩ | h
  · exact ⟨rfl, hsame fun d => by cases d <;> rfl⟩
  · cases c with
    | utf8 | rawUtf8 | integer | float | long | double | secondSlot => exact absurd rfl h
    | _ => exact ⟨rfl, hsame fun d => by cases d <;> rfl⟩

theorem Constant.Plain.same_self {c : Constant} (h : c.Plain) : c.same c = true := by
  rcases h with ⟨text, rfl⟩ | h
  · exact beq_self_eq_true (Constant.utf8 text)
  · cases c with
    | float | double => exact absurd rfl h
    | _ => exact beq_self_eq_true (_ : Constant)

namespace Pool

variable {p q r : Pool} {i : UInt16} {c : Constant}

/-- The constant needs no bootstrap method, and what it refers to is there and of the right kind. -/
def Sound (p : Pool) (c : Constant) : Prop :=
  c.needsBootstrap = false ∧ ∀ x ∈ c.references, p.Has x.1 x.2

theorem Sound.mono (h : p ≤ q) (hc : p.Sound c) : q.Sound c :=
  ⟨hc.1, fun x hx => (hc.2 x hx).mono h⟩

/-- The second pool is bounded and has only plain and sound constants behind those of the first. -/
structure GrownTo (p q : Pool) : Prop where
  le : p ≤ q
  bounded : q.Bounded
  added : ∀ c ∈ q.slots.toList.drop p.slots.size, c.Plain ∧ q.Sound c

theorem GrownTo.sound (h : p.GrownTo q) : ∀ c ∈ q.slots.toList.drop p.slots.size, q.Sound c :=
  fun c hc => (h.added c hc).2

theorem GrownTo.refl (h : p.Bounded) : p.GrownTo p := by
  refine ⟨le_refl p, h, fun c hc => ?_⟩
  rw [← Array.length_toList, List.drop_length] at hc
  cases hc

theorem GrownTo.trans (hpq : p.GrownTo q) (hqr : q.GrownTo r) : p.GrownTo r := by
  refine ⟨le_trans hpq.le hqr.le, hqr.bounded, fun c hc => ?_⟩
  obtain ⟨added, hr⟩ := hqr.le
  have hdrop : r.slots.toList.drop q.slots.size = added := by simp [← hr]
  rw [← hr, List.drop_append_of_le_length (by simpa using size_le hpq.le)] at hc
  rcases List.mem_append.1 hc with hc | hc
  · exact (hpq.added c hc).imp_right (.mono hqr.le)
  · exact hqr.added c (hdrop ▸ hc)

/-! ### Room -/

theorem bounded_append (h : p.fits c = true) : (p.append c).Bounded := by
  have hfit : p.slots.size + c.width ≤ maxSlots := of_decide_eq_true h
  have hpos := width_pos c
  unfold Bounded append
  by_cases hwide : c.width = 2
  · simp only [hwide, if_true, Array.size_push]
    omega
  · simp only [hwide, if_false, Array.size_push]
    omega

theorem push_of_fits (h : p.fits c = true) : (push c).run p = (.ok p.nextIndex, p.append c) :=
  if_pos h

theorem push_of_not_fits (h : p.fits c ≠ true) : (push c).run p = (.error .outOfSpace, p) :=
  if_neg h

theorem push_eq_ok :
    (push c).run p = (.ok i, q) ↔ p.fits c = true ∧ i = p.nextIndex ∧ q = p.append c := by
  by_cases hfit : p.fits c = true
  · rw [push_of_fits hfit]
    constructor
    · rintro ⟨⟩
      exact ⟨hfit, rfl, rfl⟩
    · rintro ⟨-, rfl, rfl⟩
      rfl
  · rw [push_of_not_fits hfit]
    constructor
    · rintro ⟨⟩
    · intro h
      exact absurd h.1 hfit

theorem push_bounded (hp : p.Bounded) : ((push c).run p).2.Bounded := by
  by_cases hfit : p.fits c = true
  · rw [push_of_fits hfit]
    exact bounded_append hfit
  · rw [push_of_not_fits hfit]
    exact hp

/-! ### One constant -/

theorem toNat_ofNat_succ {n : Nat} (h : n < maxSlots) : (UInt16.ofNat (n + 1)).toNat = n + 1 := by
  unfold maxSlots at h
  rw [UInt16.toNat_ofNat_of_lt']
  exact Nat.lt_of_le_of_lt h (by decide)

/-- The slot at a position below the bound has the next number as its index. -/
theorem get?_ofNat_succ {n : Nat} (h : n < maxSlots) :
    p.get? (UInt16.ofNat (n + 1)) = p.slots[n]? := by
  unfold get?
  have hn := toNat_ofNat_succ h
  rw [if_neg, hn, Nat.add_sub_cancel]
  intro h0
  rw [h0] at hn
  cases hn

/-- What is found counts as the same, and nothing in front of it does. -/
theorem exists_get?_of_find? (hp : p.Bounded) (h : p.find? c = some i) :
    ∃ d, p.get? i = some d ∧ d.same c = true ∧
      ∀ j < i, ∀ e, p.get? j = some e → e.same c = false := by
  obtain ⟨n, hn, rfl⟩ := Option.map_eq_some_iff.1 h
  obtain ⟨hlt, hsame, hbefore⟩ := Array.findIdx?_eq_some_iff_getElem.1 hn
  have hmax : n < maxSlots := Nat.lt_of_lt_of_le hlt hp
  refine ⟨p.slots[n], by rw [get?_ofNat_succ hmax, Array.getElem?_eq_getElem hlt], hsame, ?_⟩
  intro j hj e he
  obtain ⟨m, hm, hslot⟩ := get?_eq_some_iff_exists.1 he
  have hmn : m < n := by
    rw [UInt16.lt_iff_toNat_lt, hm, toNat_ofNat_succ hmax] at hj
    omega
  obtain ⟨hm', rfl⟩ := List.getElem?_eq_some_iff.1 hslot
  rw [Array.getElem_toList]
  exact Bool.eq_false_iff.2 (hbefore m hmn)

theorem same_eq_false_of_find? {d : Constant} {j : UInt16} (h : p.find? c = none)
    (hd : p.get? j = some d) : d.same c = false :=
  Array.findIdx?_eq_none_iff.1 (Option.map_eq_none_iff.1 h) d
    (Array.mem_toList_iff.1 (mem_of_get? hd))

theorem find?_eq_some (hp : p.Bounded) (hc : c.Plain) (h : p.find? c = some i) :
    p.get? i = some c := by
  obtain ⟨d, hd, hsame, -⟩ := exists_get?_of_find? hp h
  rwa [hc.spec.2 d hsame] at hd

/-- The next index is that of the constant that is appended. -/
theorem get?_nextIndex (h : p.fits c = true) : (p.append c).get? p.nextIndex = some c := by
  have hlt : p.slots.size < maxSlots := by
    have hfit : p.slots.size + c.width ≤ maxSlots := of_decide_eq_true h
    have hpos := width_pos c
    omega
  rw [nextIndex, get?_ofNat_succ hlt, ← Array.getElem?_toList]
  unfold append
  by_cases hwide : c.width = 2
  · simp [hwide]
  · simp [hwide]

theorem append_of_plain (hc : c.Plain) : p.append c = ⟨p.slots.push c⟩ := by
  simp [append, hc.spec.1]

theorem push_grown (hc : c.Plain) (hs : p.Sound c)
    (h : (push c).run p = (.ok i, q)) : p.GrownTo q ∧ q.get? i = some c := by
  obtain ⟨hfit, rfl, rfl⟩ := push_eq_ok.1 h
  have hle : p ≤ p.append c := by
    rw [append_of_plain hc]
    exact ⟨[c], by simp⟩
  refine ⟨⟨hle, bounded_append hfit, ?_⟩, get?_nextIndex hfit⟩
  intro d hd
  have hdc : d = c := by simpa [append_of_plain hc] using hd
  subst hdc
  exact ⟨hc, hs.mono hle⟩

/-- The index of a constant that is found or added names it. -/
theorem insert_grown (hp : p.Bounded) (hc : c.Plain) (hs : p.Sound c)
    (h : (insert c).run p = (.ok i, q)) : p.GrownTo q ∧ q.get? i = some c := by
  cases hfind : p.find? c with
  | some index =>
    have hrun : (insert c).run p = (.ok index, p) := by
      show insert c p = _
      rw [insert, hfind]
    rw [hrun] at h
    cases h
    exact ⟨.refl hp, find?_eq_some hp hc hfind⟩
  | none =>
    have hrun : (insert c).run p = (push c).run p := by
      show insert c p = push c p
      rw [insert, hfind]
    rw [hrun] at h
    exact push_grown hc hs h

/-! ### Texts and references to them -/

theorem has_text_of_utf8? {t : String} (h : p.utf8? i = some t) : p.Has i .text :=
  ⟨_, utf8?_eq_some.1 h, rfl⟩

theorem addUtf8_grown {t : String} (hp : p.Bounded) (h : (addUtf8 t).run p = (.ok i, q)) :
    p.GrownTo q ∧ q.utf8? i = some t := by
  obtain ⟨hg, hi⟩ := insert_grown hp (Constant.plain_utf8 t) ⟨rfl, by simp [Constant.references]⟩ h
  exact ⟨hg, utf8?_eq_some.2 hi⟩

theorem addClass_grown {t : String} (hp : p.Bounded) (h : (addClass t).run p = (.ok i, q)) :
    p.GrownTo q ∧ q.className? i = some t := by
  obtain ⟨j, m, hj, h⟩ := run_bind_eq_ok.1 h
  obtain ⟨hg, ht⟩ := addUtf8_grown hp hj
  have hplain : (Constant.class j).Plain := .inr (List.cons_ne_nil _ _)
  have hs : m.Sound (.class j) :=
    ⟨rfl, by simpa [Constant.references] using has_text_of_utf8? ht⟩
  obtain ⟨hg', hi⟩ := insert_grown hg.bounded hplain hs h
  exact ⟨hg.trans hg', className?_eq_some.2 ⟨j, hi, utf8?_mono hg'.le ht⟩⟩

theorem addString_grown {t : String} (hp : p.Bounded) (h : (addString t).run p = (.ok i, q)) :
    p.GrownTo q ∧ q.stringValue? i = some t := by
  obtain ⟨j, m, hj, h⟩ := run_bind_eq_ok.1 h
  obtain ⟨hg, ht⟩ := addUtf8_grown hp hj
  have hplain : (Constant.string j).Plain := .inr (List.cons_ne_nil _ _)
  have hs : m.Sound (.string j) :=
    ⟨rfl, by simpa [Constant.references] using has_text_of_utf8? ht⟩
  obtain ⟨hg', hi⟩ := insert_grown hg.bounded hplain hs h
  exact ⟨hg.trans hg', stringValue?_eq_some.2 ⟨j, hi, utf8?_mono hg'.le ht⟩⟩

theorem addNameAndType_grown {n d : String} (hp : p.Bounded)
    (h : (addNameAndType n d).run p = (.ok i, q)) :
    p.GrownTo q ∧ q.nameAndType? i = some (n, d) := by
  obtain ⟨j, m, hj, h⟩ := run_bind_eq_ok.1 h
  obtain ⟨k, m', hk, h⟩ := run_bind_eq_ok.1 h
  obtain ⟨hg, hn⟩ := addUtf8_grown hp hj
  obtain ⟨hg', hd⟩ := addUtf8_grown hg.bounded hk
  have hn' := utf8?_mono hg'.le hn
  have hplain : (Constant.nameAndType j k).Plain := .inr (List.cons_ne_nil _ _)
  have hs : m'.Sound (.nameAndType j k) :=
    ⟨rfl, by simpa [Constant.references] using ⟨has_text_of_utf8? hn', has_text_of_utf8? hd⟩⟩
  obtain ⟨hg'', hi⟩ := insert_grown hg'.bounded hplain hs h
  exact ⟨(hg.trans hg').trans hg'',
    nameAndType?_eq_some.2 ⟨j, k, hi, utf8?_mono hg''.le hn', utf8?_mono hg''.le hd⟩⟩

theorem has_class_of_className? {t : String} (h : p.className? i = some t) : p.Has i .class := by
  obtain ⟨j, hc, -⟩ := className?_eq_some.1 h
  exact ⟨_, hc, rfl⟩

theorem has_nameAndType {x : String × String} (h : p.nameAndType? i = some x) :
    p.Has i .nameAndType := by
  obtain ⟨n, d, hc, -⟩ := nameAndType?_eq_some.1 h
  exact ⟨_, hc, rfl⟩

section

variable {owner name descriptor : String}

/-- A reference to a member, of any kind, is a class, a name and a type, and the constant. -/
theorem addMember_grown (mk : UInt16 → UInt16 → Constant) (hp : p.Bounded)
    (hplain : ∀ a b, (mk a b).Plain) (hboot : ∀ a b, (mk a b).needsBootstrap = false)
    (hrefs : ∀ a b, (mk a b).references = [(a, .class), (b, .nameAndType)])
    (h : (do
      let a ← addClass owner
      let b ← addNameAndType name descriptor
      insert (mk a b) : PoolM UInt16).run p = (.ok i, q)) :
    p.GrownTo q ∧
      ∃ a b, q.get? i = some (mk a b) ∧ q.memberOf? a b = some ⟨owner, name, descriptor⟩ := by
  obtain ⟨a, m, ha, h⟩ := run_bind_eq_ok.1 h
  obtain ⟨b, m', hb, h⟩ := run_bind_eq_ok.1 h
  obtain ⟨hg, hc⟩ := addClass_grown hp ha
  obtain ⟨hg', hn⟩ := addNameAndType_grown hg.bounded hb
  have hc' := className?_mono hg'.le hc
  have hs : m'.Sound (mk a b) := by
    refine ⟨hboot a b, ?_⟩
    simp only [hrefs, List.mem_cons, List.not_mem_nil, or_false, forall_eq_or_imp, forall_eq]
    exact ⟨has_class_of_className? hc', has_nameAndType hn⟩
  obtain ⟨hg'', hi⟩ := insert_grown hg'.bounded (hplain a b) hs h
  exact ⟨(hg.trans hg').trans hg'', a, b, hi,
    memberOf?_eq_some.2 ⟨className?_mono hg''.le hc', nameAndType?_mono hg''.le hn⟩⟩

theorem addMethodRef_spec (hp : p.Bounded)
    (h : (addMethodRef owner name descriptor).run p = (.ok i, q)) :
    p.GrownTo q ∧ ∃ a b, q.get? i = some (.methodRef a b) ∧
      q.memberOf? a b = some ⟨owner, name, descriptor⟩ :=
  addMember_grown .methodRef hp (fun _ _ => .inr (List.cons_ne_nil _ _)) (fun _ _ => rfl)
    (fun _ _ => rfl) h

theorem addFieldRef_spec (hp : p.Bounded)
    (h : (addFieldRef owner name descriptor).run p = (.ok i, q)) :
    p.GrownTo q ∧ ∃ a b, q.get? i = some (.fieldRef a b) ∧
      q.memberOf? a b = some ⟨owner, name, descriptor⟩ :=
  addMember_grown .fieldRef hp (fun _ _ => .inr (List.cons_ne_nil _ _)) (fun _ _ => rfl)
    (fun _ _ => rfl) h

theorem addMethodRef_grown (hp : p.Bounded)
    (h : (addMethodRef owner name descriptor).run p = (.ok i, q)) :
    p.GrownTo q ∧ q.member? i = some ⟨owner, name, descriptor⟩ := by
  obtain ⟨hg, a, b, hi, hm⟩ := addMethodRef_spec hp h
  exact ⟨hg, by rw [member?, hi]; exact hm⟩

theorem addFieldRef_grown (hp : p.Bounded)
    (h : (addFieldRef owner name descriptor).run p = (.ok i, q)) :
    p.GrownTo q ∧ q.member? i = some ⟨owner, name, descriptor⟩ := by
  obtain ⟨hg, a, b, hi, hm⟩ := addFieldRef_spec hp h
  exact ⟨hg, by rw [member?, hi]; exact hm⟩

end

end Pool

end ClassTemplates
