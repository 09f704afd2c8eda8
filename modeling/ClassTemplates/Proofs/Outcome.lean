import ClassTemplates.Expansion.Error
import Mathlib.Data.List.Forall2

/-!
# Successful computations

What is known of the parts of a computation that succeeded as a whole, for computations that only
fail or not and for those that also carry a state. A list of computations is set beside the list of
their values.

## Main definitions

- `FailsWith` — a computation whose failures are all of some kind
- `Keeps` — a computation that keeps a property of the state

## Main results

- `bind_eq_ok`, `mapError_eq_ok`, `mapM_eq_ok`, `forM_eq_ok` — the parts of a computation that
  succeeded
- `run_bind_eq_ok`, `run_pure_eq_ok` — the same for a computation with a state
- `FailsWith.bind`, `FailsWith.mapM` — which failures a computation may have
-/

namespace ClassTemplates

/-! ### Lists side by side -/

section

variable {α β γ : Type} {R : α → β → Prop} {xs xs' : List α} {ys : List β}

theorem map_eq_map_of_forall₂ {f : α → γ} {g : β → γ} (h : List.Forall₂ R xs ys)
    (hR : ∀ x y, R x y → g y = f x) : ys.map g = xs.map f := by
  induction h with
  | nil => rfl
  | cons hxy _ ih => rw [List.map_cons, List.map_cons, ih, hR _ _ hxy]

/-- Lists of members that are equal one by one are equal. -/
theorem eq_of_forall₂ {R : α → α → Prop} {zs : List α} (h : List.Forall₂ R xs zs)
    (hR : ∀ x y, R x y → y = x) : zs = xs := by
  have hmap : zs.map id = xs.map id := map_eq_map_of_forall₂ h hR
  rwa [List.map_id, List.map_id] at hmap

theorem exists_left_of_forall₂ (h : List.Forall₂ R xs ys) {y : β} (hy : y ∈ ys) :
    ∃ x ∈ xs, R x y := by
  induction h with
  | nil => cases hy
  | cons hR _ ih =>
    rcases List.mem_cons.1 hy with rfl | hy
    · exact ⟨_, List.mem_cons_self, hR⟩
    · obtain ⟨x, hx, hR⟩ := ih hy
      exact ⟨x, List.mem_cons_of_mem _ hx, hR⟩

theorem exists_append_of_forall₂ (h : List.Forall₂ R (xs ++ xs') ys) :
    ∃ zs zs', ys = zs ++ zs' ∧ List.Forall₂ R xs zs ∧ List.Forall₂ R xs' zs' := by
  induction xs generalizing ys with
  | nil => exact ⟨[], ys, rfl, .nil, h⟩
  | cons x xs ih =>
    cases h with
    | cons hx h =>
      obtain ⟨zs, zs', rfl, hzs, hzs'⟩ := ih h
      exact ⟨_ :: zs, zs', rfl, .cons hx hzs, hzs'⟩

theorem forall₂_trans {S : β → γ → Prop} {T : α → γ → Prop} {zs : List γ}
    (h : List.Forall₂ R xs ys) (h' : List.Forall₂ S ys zs)
    (ht : ∀ x y z, R x y → S y z → T x z) : List.Forall₂ T xs zs := by
  induction h generalizing zs with
  | nil =>
    cases h'
    exact .nil
  | cons hxy _ ih =>
    cases h' with
    | cons hyz h' => exact .cons (ht _ _ _ hxy hyz) (ih h')

theorem forall₂_set {k : Nat} {x : α} {y : β} (h : List.Forall₂ R xs ys) (hk : xs[k]? = some x)
    (hxy : R x y) : List.Forall₂ R xs (ys.set k y) := by
  induction h generalizing k with
  | nil => exact .nil
  | cons hR hrest ih =>
    cases k with
    | zero =>
      cases hk
      exact .cons hxy hrest
    | succ k => exact .cons hR (ih (by simpa using hk))

end

/-! ### Computations without a state -/

section

variable {α β ε ε' : Type}

theorem bind_eq_ok {x : Except ε α} {f : α → Except ε β} {b : β} :
    (x >>= f) = .ok b ↔ ∃ a, x = .ok a ∧ f a = .ok b := by
  cases x with
  | error e => simp [bind, Except.bind]
  | ok a => simp [bind, Except.bind]

theorem mapError_eq_ok {x : Except ε α} {f : ε → ε'} {a : α} :
    x.mapError f = .ok a ↔ x = .ok a := by
  cases x <;> simp [Except.mapError]

/-- What follows on a failure does not matter. -/
theorem bind_congr_of_ok {x : Except ε α} {f g : α → Except ε β}
    (h : ∀ a, x = .ok a → f a = g a) : x >>= f = x >>= g := by
  cases x with
  | error fault => rfl
  | ok a => exact h a rfl

theorem map_eq_ok {x : Except ε α} {f : α → β} {b : β} :
    x.map f = .ok b ↔ ∃ a, x = .ok a ∧ f a = b := by
  cases x <;> simp [Except.map]

theorem exists_of_isOk {x : Except ε α} (h : x.isOk = true) : ∃ a, x = .ok a := by
  cases x with
  | ok a => exact ⟨a, rfl⟩
  | error fault => cases h

/-- A list of computations succeeds with the values of its members. -/
theorem mapM_eq_ok {f : α → Except ε β} {xs : List α} {ys : List β} :
    xs.mapM f = .ok ys ↔ List.Forall₂ (fun x y => f x = .ok y) xs ys := by
  induction xs generalizing ys with
  | nil =>
    cases ys <;> simp [pure, Except.pure]
  | cons x xs ih =>
    rw [List.mapM_cons, bind_eq_ok]
    constructor
    · rintro ⟨y, hy, h⟩
      obtain ⟨ys', hys, h⟩ := bind_eq_ok.1 h
      cases h
      exact .cons hy (ih.1 hys)
    · rintro (_ | ⟨hy, hys⟩)
      exact ⟨_, hy, bind_eq_ok.2 ⟨_, ih.2 hys, rfl⟩⟩

/-- What follows for each member of a list from the value of its computation. -/
theorem forall₂_of_mapM_eq_ok {f : α → Except ε β} {R : α → β → Prop} {xs : List α} {ys : List β}
    (h : xs.mapM f = .ok ys) (hR : ∀ x ∈ xs, ∀ y, f x = .ok y → R x y) :
    List.Forall₂ R xs ys := by
  have hmap := mapM_eq_ok.1 h
  clear h
  induction hmap with
  | nil => exact .nil
  | cons hx _ ih =>
    rw [List.forall_mem_cons] at hR
    exact .cons (hR.1 _ hx) (ih hR.2)

theorem exists_mem_of_mapM_eq_ok {f : α → Except ε β} {xs : List α} {ys : List β}
    (h : xs.mapM f = .ok ys) {x : α} (hx : x ∈ xs) : ∃ y ∈ ys, f x = .ok y :=
  exists_left_of_forall₂ (mapM_eq_ok.1 h).flip hx

/-- A list of computations that all succeed does so too. -/
theorem exists_mapM_eq_ok {f : α → Except ε β} {P : β → Prop} {xs : List α}
    (h : ∀ x ∈ xs, ∃ y, f x = .ok y ∧ P y) : ∃ ys, xs.mapM f = .ok ys ∧ ∀ y ∈ ys, P y := by
  induction xs with
  | nil => exact ⟨[], rfl, by simp⟩
  | cons x xs ih =>
    rw [List.forall_mem_cons] at h
    obtain ⟨y, hy, hP⟩ := h.1
    obtain ⟨ys, hys, hPs⟩ := ih h.2
    refine ⟨y :: ys, ?_, List.forall_mem_cons.2 ⟨hP, hPs⟩⟩
    rw [mapM_eq_ok] at hys ⊢
    exact .cons hy hys

/-- Computations that all succeed have the values of the list. -/
theorem mapM_eq_ok_map {f : α → Except ε β} {g : α → β} {xs : List α}
    (h : ∀ x ∈ xs, f x = .ok (g x)) : xs.mapM f = .ok (xs.map g) := by
  rw [mapM_eq_ok, List.forall₂_map_right_iff, List.forall₂_same]
  exact h

theorem forM_eq_ok {f : α → Except ε Unit} {xs : List α} :
    xs.forM f = .ok () ↔ ∀ x ∈ xs, f x = .ok () := by
  induction xs with
  | nil => simp [pure, Except.pure]
  | cons x xs ih =>
    show (f x >>= fun _ => xs.forM f) = .ok () ↔ _
    rw [bind_eq_ok, List.forall_mem_cons, ← ih]
    constructor
    · rintro ⟨u, hx, hxs⟩
      exact ⟨hx, hxs⟩
    · rintro ⟨hx, hxs⟩
      exact ⟨(), hx, hxs⟩

/-! ### Failures -/

/-- A computation that fails, if it does, in a way that is allowed. -/
def FailsWith (P : ε → Prop) (x : Except ε α) : Prop :=
  ∀ fault, x = .error fault → P fault

variable {P : ε → Prop} {Q : ε' → Prop} {x : Except ε α}

theorem failsWith_ok {a : α} : FailsWith P (.ok a : Except ε α) := by
  intro fault h
  cases h

/-- A computation that cannot fail succeeds. -/
theorem FailsWith.exists_ok (hx : FailsWith (fun _ => False) x) : ∃ a, x = .ok a := by
  cases x with
  | ok a => exact ⟨a, rfl⟩
  | error fault => exact (hx fault rfl).elim

theorem FailsWith.bind {f : α → Except ε β} (hx : FailsWith P x)
    (hf : ∀ a, x = .ok a → FailsWith P (f a)) : FailsWith P (x >>= f) := by
  cases x with
  | error fault => exact fun fault' h => hx fault' (by simpa [bind, Except.bind] using h)
  | ok a => exact hf a rfl

theorem FailsWith.mapError {f : ε → ε'} (hx : FailsWith P x) (hf : ∀ fault, P fault → Q (f fault)) :
    FailsWith Q (x.mapError f) := by
  intro fault h
  cases x with
  | error fault' =>
    cases h
    exact hf _ (hx _ rfl)
  | ok a => cases h

theorem FailsWith.mapM {f : α → Except ε β} {xs : List α} (h : ∀ x ∈ xs, FailsWith P (f x)) :
    FailsWith P (xs.mapM f) := by
  induction xs with
  | nil => exact failsWith_ok
  | cons x xs ih =>
    rw [List.forall_mem_cons] at h
    rw [List.mapM_cons]
    exact h.1.bind fun y _ => (ih h.2).bind fun ys _ => failsWith_ok

end

/-! ### Computations with a state -/

section

variable {σ ε α β : Type} {x : ExceptT ε (StateM σ) α} {s t : σ}

theorem run_bind_ok {f : α → ExceptT ε (StateM σ) β} {a : α} (h : x.run s = (.ok a, t)) :
    (x >>= f).run s = (f a).run t := by
  change (match x.run s with
    | (a, m) => (ExceptT.bindCont f a) m) = _
  rw [h]
  rfl

theorem run_bind_error {f : α → ExceptT ε (StateM σ) β} {fault : ε}
    (h : x.run s = (.error fault, t)) : (x >>= f).run s = (.error fault, t) := by
  change (match x.run s with
    | (a, m) => (ExceptT.bindCont f a) m) = _
  rw [h]
  rfl

theorem run_bind_congr {x' : ExceptT ε (StateM σ) α} {f : α → ExceptT ε (StateM σ) β}
    (h : x.run s = x'.run s) : (x >>= f).run s = (x' >>= f).run s := by
  rcases hx : x.run s with ⟨_ | a, t⟩
  · rw [run_bind_error hx, run_bind_error (h ▸ hx)]
  · rw [run_bind_ok hx, run_bind_ok (h ▸ hx)]

theorem run_bind_eq_ok {f : α → ExceptT ε (StateM σ) β} {b : β} :
    (x >>= f).run s = (.ok b, t) ↔
      ∃ a m, x.run s = (.ok a, m) ∧ (f a).run m = (.ok b, t) := by
  rcases hx : x.run s with ⟨_ | a, m⟩
  · rw [run_bind_error hx]
    constructor
    · rintro ⟨⟩
    · rintro ⟨_, _, ⟨⟩, _⟩
  · rw [run_bind_ok hx]
    constructor
    · intro h
      exact ⟨a, m, rfl, h⟩
    · rintro ⟨_, _, ⟨⟩, h⟩
      exact h

theorem run_pure_eq_ok {a b : α} :
    (pure a : ExceptT ε (StateM σ) α).run s = (.ok b, t) ↔ a = b ∧ s = t := by
  change ((.ok a, s) : Except ε α × σ) = (.ok b, t) ↔ _
  rw [Prod.mk.injEq, Except.ok.injEq]

/-- The computation keeps a property of the state, whether it succeeds or not. -/
def Keeps (P : σ → Prop) (x : ExceptT ε (StateM σ) α) : Prop :=
  ∀ s, P s → P (x.run s).2

theorem Keeps.bind {P : σ → Prop} {f : α → ExceptT ε (StateM σ) β} (hx : Keeps P x)
    (hf : ∀ a, Keeps P (f a)) : Keeps P (x >>= f) := by
  intro s hs
  have hm := hx s hs
  rcases hrun : x.run s with ⟨_ | a, m⟩ <;> rw [hrun] at hm
  · rw [run_bind_error hrun]
    exact hm
  · rw [run_bind_ok hrun]
    exact hf a m hm

theorem exists_of_map_eq_ok {f : α → β} {b : β} (h : (x.run s).1.map f = .ok b) :
    ∃ a t, x.run s = (.ok a, t) ∧ f a = b := by
  obtain ⟨a, ha, hb⟩ := map_eq_ok.1 h
  exact ⟨a, (x.run s).2, Prod.ext ha rfl, hb⟩

end

end ClassTemplates
