import Mathlib.Order.Defs.Unbundled
import ClassTemplates.Proofs.Pool.Additions

/-!
# Additions that are made again

A constant that is asked for again is found where it was, at any later point and whatever has been
appended in between: the first constant that is the same stays the first while the pool grows. A NaN
is the same as nothing, so it is not found.

## Main definitions

- `Lasting` — a computation that only goes on, and that gives the same again later
- `Pool.Onward` — what may come of a pool

## Main results

- `Pool.find?_of_insert` — a constant that was asked for is found under the same index
- `Pool.insert_lasting`, `addString_lasting`, `addFieldRef_lasting`, … — additions last
-/

namespace ClassTemplates

/-- Whether a computation succeeds or not, it goes on to a later state. Once it has succeeded it
gives the same again from every later state, and leaves that as it is. -/
structure Lasting {σ ε α : Type} (R : σ → σ → Prop) (x : ExceptT ε (StateM σ) α) : Prop where
  onward : ∀ s, R s (x.run s).2
  again : ∀ {s a t u}, x.run s = (.ok a, t) → R t u → ∃ v, x.run u = (.ok a, v) ∧ R v u

namespace Lasting

variable {σ ε α β : Type} {R : σ → σ → Prop} {x : ExceptT ε (StateM σ) α}

theorem pure [Std.Refl R] (a : α) : Lasting R (Pure.pure a : ExceptT ε (StateM σ) α) where
  onward s := Std.Refl.refl s
  again {_ _ _ u} h _ := by
    obtain ⟨rfl, rfl⟩ := run_pure_eq_ok.1 h
    exact ⟨u, rfl, Std.Refl.refl u⟩

theorem bind [IsTrans σ R] {f : α → ExceptT ε (StateM σ) β} (hx : Lasting R x)
    (hf : ∀ a, Lasting R (f a)) : Lasting R (x >>= f) where
  onward s := by
    have hgo := hx.onward s
    rcases hrun : x.run s with ⟨_ | a, m⟩ <;> rw [hrun] at hgo
    · rw [run_bind_error hrun]
      exact hgo
    · rw [run_bind_ok hrun]
      exact IsTrans.trans _ _ _ hgo ((hf a).onward m)
  again {s b t u} h htu := by
    obtain ⟨a, m, hm, ht⟩ := run_bind_eq_ok.1 h
    have hmt : R m t := by simpa [ht] using (hf a).onward m
    obtain ⟨u₁, hu₁, hback⟩ := hx.again hm (IsTrans.trans _ _ _ hmt htu)
    have huu₁ : R u u₁ := by simpa [hu₁] using hx.onward u
    obtain ⟨v, hv, hback'⟩ := (hf a).again ht (IsTrans.trans _ _ _ htu huu₁)
    exact ⟨v, run_bind_eq_ok.2 ⟨a, u₁, hu₁, hv⟩, IsTrans.trans _ _ _ hback' hback⟩

end Lasting

/-! ### Pools -/

namespace Pool

variable {p q : Pool} {c : Constant} {i : UInt16}

/-- The pool has grown, and it has no more slots than an index can name if that was so before. -/
structure Onward (p q : Pool) : Prop where
  le : p ≤ q
  bounded : p.Bounded → q.Bounded

instance : Std.Refl Onward :=
  ⟨fun p => ⟨le_refl p, id⟩⟩

instance : IsTrans Pool Onward :=
  ⟨fun _ _ _ h h' => ⟨le_trans h.le h'.le, h'.bounded ∘ h.bounded⟩⟩

theorem GrownTo.onward (h : p.GrownTo q) : p.Onward q :=
  ⟨h.le, fun _ => h.bounded⟩

theorem le_append (p : Pool) (c : Constant) : p ≤ p.append c := by
  unfold append
  by_cases hwide : c.width = 2
  · exact ⟨[c, .secondSlot], by simp [hwide]⟩
  · exact ⟨[c], by simp [hwide]⟩

theorem push_onward (c : Constant) (p : Pool) : p.Onward ((push c).run p).2 := by
  refine ⟨?_, push_bounded⟩
  by_cases hfit : p.fits c = true
  · rw [push_of_fits hfit]
    exact le_append p c
  · rw [push_of_not_fits hfit]
    exact le_refl p

theorem insert_of_find? (h : p.find? c = some i) : (insert c).run p = (.ok i, p) := by
  show insert c p = _
  rw [insert, h]

theorem insert_of_find?_eq_none (h : p.find? c = none) :
    (insert c).run p = (push c).run p := by
  show insert c p = push c p
  rw [insert, h]

/-- The first constant that is the same stays the first while the pool grows. -/
theorem find?_mono (h : p ≤ q) (hc : p.find? c = some i) : q.find? c = some i := by
  obtain ⟨n, hn, rfl⟩ := Option.map_eq_some_iff.1 hc
  obtain ⟨added, h⟩ := h
  have hq : q.slots = p.slots ++ added.toArray := by
    rw [← Array.toList_inj, Array.toList_append, ← h]
  rw [find?, hq, Array.findIdx?_append, hn]
  rfl

/-- A constant that was looked for in vain is the first of its kind once it is appended. -/
theorem find?_append (hself : c.same c = true) (h : p.find? c = none) :
    (p.append c).find? c = some p.nextIndex := by
  have hno : p.slots.findIdx? (fun d => d.same c) = none := Option.map_eq_none_iff.1 h
  have hpushed : (⟨p.slots.push c⟩ : Pool).find? c = some p.nextIndex := by
    rw [find?, Array.findIdx?_push, hno]
    simp [hself, nextIndex]
  refine find?_mono ?_ hpushed
  unfold append
  by_cases hwide : c.width = 2
  · exact ⟨[.secondSlot], by simp [hwide]⟩
  · exact ⟨[], by simp [hwide]⟩

/-- A constant that was asked for is found under the index that was given for it. -/
theorem find?_of_insert (hself : c.same c = true) (h : (insert c).run p = (.ok i, q)) :
    q.find? c = some i := by
  cases hfind : p.find? c with
  | some j =>
    rw [insert_of_find? hfind] at h
    cases h
    exact hfind
  | none =>
    rw [insert_of_find?_eq_none hfind] at h
    obtain ⟨-, rfl, rfl⟩ := push_eq_ok.1 h
    exact find?_append hself hfind

theorem insert_onward (c : Constant) (p : Pool) : p.Onward ((insert c).run p).2 := by
  cases hfind : p.find? c with
  | some j =>
    rw [insert_of_find? hfind]
    exact Std.Refl.refl p
  | none =>
    rw [insert_of_find?_eq_none hfind]
    exact push_onward c p

theorem insert_lasting (hself : c.same c = true) : Lasting Onward (insert c) where
  onward := insert_onward c
  again {_ _ _ r} h hqr :=
    ⟨r, insert_of_find? (find?_mono hqr.le (find?_of_insert hself h)), Std.Refl.refl r⟩

theorem insert_plain_lasting (hc : c.Plain) : Lasting Onward (insert c) :=
  insert_lasting hc.same_self

theorem addUtf8_lasting (text : String) : Lasting Onward (addUtf8 text) :=
  insert_plain_lasting (Constant.plain_utf8 text)

theorem addClass_lasting (name : String) : Lasting Onward (addClass name) :=
  (addUtf8_lasting name).bind fun _ => insert_plain_lasting (.inr (List.cons_ne_nil _ _))

theorem addString_lasting (text : String) : Lasting Onward (addString text) :=
  (addUtf8_lasting text).bind fun _ => insert_plain_lasting (.inr (List.cons_ne_nil _ _))

theorem addNameAndType_lasting (name descriptor : String) :
    Lasting Onward (addNameAndType name descriptor) :=
  (addUtf8_lasting name).bind fun _ =>
    (addUtf8_lasting descriptor).bind fun _ => insert_plain_lasting (.inr (List.cons_ne_nil _ _))

theorem addFieldRef_lasting (owner name descriptor : String) :
    Lasting Onward (addFieldRef owner name descriptor) :=
  (addClass_lasting owner).bind fun _ =>
    (addNameAndType_lasting name descriptor).bind fun _ =>
      insert_plain_lasting (.inr (List.cons_ne_nil _ _))

theorem addMethodRef_lasting (owner name descriptor : String) :
    Lasting Onward (addMethodRef owner name descriptor) :=
  (addClass_lasting owner).bind fun _ =>
    (addNameAndType_lasting name descriptor).bind fun _ =>
      insert_plain_lasting (.inr (List.cons_ne_nil _ _))

end Pool

end ClassTemplates
