import ClassTemplates.Expansion.Class
import ClassTemplates.Proofs.Body.Relocation
import ClassTemplates.Proofs.Expansion.Initializer

/-!
# Visiting the methods of a class

The methods of a class are visited in order, with one growing pool. Each keeps its body or gets a
new one; type initializers behind the first are passed over.

## Main definitions

- `Expansion.Expanded` — what the visit of one method finds
- `Expansion.Visits` — the visits of methods, with what each method becomes

## Main results

- `Expansion.visitMethods_eq_ok` — the visits of a run that succeeds
- `Expansion.Visits.grown` — what they do to the pool
- `Expansion.Visits.expanded` — a method that gets a new body has loads that are expanded
-/

namespace ClassTemplates

namespace Expansion

variable {catalog : Catalog} {lookup : LookupMethod} {m : Member} {e e' : Expander}

theorem lift_eq_ok {α : Type} {x : Except PoolError α × Expander} {a : α} :
    lift x = .ok (a, e) ↔ x = (.ok a, e) := by
  obtain ⟨result, f⟩ := x
  cases result <;> simp [lift]

/-! ### One method -/

/-- The visit of a method with code: the body of the code, with loads expanded, and their number. -/
structure Expanded (catalog : Catalog) (lookup : LookupMethod) (e e' : Expander) (m : Member)
    (n : Nat) (b₁ : Body) : Prop where
  exists_body : ∃ c b, m.code? = some c ∧ Body.ofCode c = .ok b ∧
    (Expander.expandBody catalog lookup b).run e = (.ok (n, b₁), e')

/-- A method without code stays as it is, and so does one without loads that have to be replaced. -/
theorem expandMethod_eq_ok {n : Nat} {body : Option Body}
    (h : expandMethod catalog lookup m e = .ok ((n, body), e')) :
    (m.code? = none ∧ n = 0 ∧ body = none ∧ e' = e) ∨
      ∃ b₁, Expanded catalog lookup e e' m n b₁ ∧ body = if n = 0 then none else some b₁ := by
  unfold expandMethod at h
  split at h
  · rename_i hc
    cases h
    exact .inl ⟨hc, rfl, rfl, rfl⟩
  · rename_i c hc
    obtain ⟨b, hb, h⟩ := bind_eq_ok.1 h
    obtain ⟨⟨⟨n', b₁⟩, e₁⟩, hx, h⟩ := bind_eq_ok.1 h
    cases h
    exact .inr ⟨b₁, ⟨c, b, hc, mapError_eq_ok.1 hb, lift_eq_ok.1 hx⟩, rfl⟩

theorem Expanded.grown {n : Nat} {b₁ : Body} (h : Expanded catalog lookup e e' m n b₁)
    (he : e.Ready lookup) : e.pool.GrownTo e'.pool ∧ e'.Ready lookup := by
  obtain ⟨c, b, -, -, hx⟩ := h.exists_body
  obtain ⟨xs, -, hexp, -⟩ := Expander.expandBody_eq_ok hx
  exact hexp.grown he

theorem expandMethod_grown {n : Nat} {body : Option Body} (he : e.Ready lookup)
    (h : expandMethod catalog lookup m e = .ok ((n, body), e')) :
    e.pool.GrownTo e'.pool ∧ e'.Ready lookup := by
  rcases expandMethod_eq_ok h with ⟨-, -, -, rfl⟩ | ⟨b₁, hx, -⟩
  · exact ⟨.refl he.bounded, he⟩
  · exact hx.grown he

/-! ### All methods -/

/-- The visits of methods: each with its new body, if it gets one. The flag tells that no type
initializer has been found yet. -/
inductive Visits (catalog : Catalog) (lookup : LookupMethod) :
    Bool → Expander → List (Member × Option Body) → Bool → Expander → Prop
  | nil {o : Bool} {e : Expander} : Visits catalog lookup o e [] o e
  | passed {o' : Bool} {e e' : Expander} {m : Member} {edits : List (Member × Option Body)} :
      e.pool.isInitializer m = true → Visits catalog lookup false e edits o' e' →
      Visits catalog lookup false e ((m, none) :: edits) o' e'
  | visited {o o' : Bool} {e e₁ e' : Expander} {m : Member} {n : Nat} {body : Option Body}
      {edits : List (Member × Option Body)} :
      (e.pool.isInitializer m = true → o = true) →
      expandMethod catalog lookup m e = .ok ((n, body), e₁) →
      Visits catalog lookup (o && !e.pool.isInitializer m) e₁ edits o' e' →
      Visits catalog lookup o e ((m, body) :: edits) o' e'

/-! ### The type initializer among them -/

/-- A method was visited with some pool on the way, and became what it is now. -/
def Visited (catalog : Catalog) (lookup : LookupMethod) (p q : Pool) (m : Member)
    (body : Option Body) : Prop :=
  ∃ e₁ e₂ n, Expander.Ready lookup e₁ ∧ p ≤ Expander.pool e₁ ∧ Expander.pool e₂ ≤ q ∧
    expandMethod catalog lookup m e₁ = .ok ((n, body), e₂)

theorem Visited.mono {p p' q q' : Pool} {body : Option Body} (hp : p' ≤ p) (hq : q ≤ q')
    (h : Visited catalog lookup p q m body) : Visited catalog lookup p' q' m body := by
  obtain ⟨e₁, e₂, n, hr, hle, hle', hx⟩ := h
  exact ⟨e₁, e₂, n, hr, Pool.le_trans hp hle, Pool.le_trans hle' hq, hx⟩

/-- The method at a position is a type initializer in some pool on the way, and was visited. -/
def FoundAt (catalog : Catalog) (lookup : LookupMethod) (p q : Pool)
    (edits : List (Member × Option Body)) (k : Nat) : Prop :=
  ∃ m body r, edits[k]? = some (m, body) ∧ p ≤ r ∧ r ≤ q ∧ r.isInitializer m = true ∧
    Visited catalog lookup p q m body

/-- What is known of an initializer that may have been found among methods, the first of which has
the position `start`. -/
structure Finds (catalog : Catalog) (lookup : LookupMethod) (p q : Pool) (start : Nat)
    (edits : List (Member × Option Body)) (i i' : Initializer) : Prop where
  waiting : i.Waiting → i'.Waiting
  deferred : i'.deferred = i.deferred
  found : ∀ k, i'.state = .found k →
    i.state = .found k ∨ ∃ j, k = start + j ∧ FoundAt catalog lookup p q edits j

theorem Finds.refl {p q : Pool} {start : Nat} {edits : List (Member × Option Body)}
    {i : Initializer} : Finds catalog lookup p q start edits i i :=
  ⟨id, rfl, fun _ hk => .inl hk⟩

/-- One more method in front, which may be the first initializer. -/
theorem Finds.cons {p p₁ q : Pool} {start : Nat} {edits : List (Member × Option Body)}
    {body : Option Body} {i i₁ i' : Initializer} (hp : p ≤ p₁) (hq : p ≤ q)
    (hi : i₁ = i ∨ (p.isInitializer m = true ∧ i₁ = i.found start) ∧
      Visited catalog lookup p q m body)
    (h : Finds catalog lookup p₁ q (start + 1) edits i₁ i') :
    Finds catalog lookup p q start ((m, body) :: edits) i i' := by
  -- what was found among the later methods stands one further behind the first
  have hlater (k : Nat) (hk : ∃ j, k = start + 1 + j ∧ FoundAt catalog lookup p₁ q edits j) :
      ∃ j, k = start + j ∧ FoundAt catalog lookup p q ((m, body) :: edits) j := by
    obtain ⟨j, rfl, m', body', r, hm, hle, hr, hinit, hv⟩ := hk
    exact ⟨j + 1, by omega, m', body', r, by simpa using hm, Pool.le_trans hp hle, hr, hinit,
      hv.mono hp (Pool.le_refl q)⟩
  rcases hi with rfl | ⟨⟨hinit, rfl⟩, hv⟩
  · exact ⟨h.waiting, h.deferred, fun k hk => (h.found k hk).imp_right (hlater k)⟩
  · have hfound (k : Nat) (hk : (i.found start).state = .found k) :
        i.state = .found k ∨ k = start := by
      unfold Initializer.found at hk
      split at hk
      · cases hk
        exact .inr rfl
      · exact .inl hk
    refine ⟨fun hw => h.waiting ?_, h.deferred.trans ?_, fun k hk => ?_⟩
    · unfold Initializer.found
      split
      · exact .inr ⟨start, rfl⟩
      · exact hw
    · unfold Initializer.found
      split <;> rfl
    · rcases h.found k hk with hk | hk
      · exact (hfound k hk).imp_right fun hk =>
          ⟨0, hk, m, body, p, rfl, Pool.le_refl p, hq, hinit, hv⟩
      · exact .inr (hlater k hk)

/-! ### A run -/

theorem visitMethod_eq_ok {p p' : Progress}
    (h : visitMethod catalog lookup p m e = .ok (p', e')) :
    ∃ n body, p'.edits = p.edits.push (m, body) ∧ p'.loads = p.loads + n ∧
      (p'.initializer = p.initializer ∨
        e.pool.isInitializer m = true ∧ p'.initializer = p.initializer.found p.edits.size) ∧
      p'.initializer.isOpen = (p.initializer.isOpen && !e.pool.isInitializer m) ∧
      ((e.pool.isInitializer m = true ∧ p.initializer.isOpen = false ∧ n = 0 ∧ body = none ∧
          e' = e) ∨
        (e.pool.isInitializer m = true → p.initializer.isOpen = true) ∧
          expandMethod catalog lookup m e = .ok ((n, body), e')) := by
  obtain ⟨edits, loads, i⟩ := p
  unfold visitMethod at h
  simp only at h
  split at h
  · rename_i hpass
    obtain ⟨hi, ho⟩ := Bool.and_eq_true_iff.1 hpass
    have ho : i.isOpen = false := by simpa using ho
    cases h
    exact ⟨0, none, rfl, rfl, .inl rfl, by rw [ho, Bool.false_and], .inl ⟨hi, ho, rfl, rfl, rfl⟩⟩
  · rename_i hvisit
    split at h
    · cases h
    · rename_i n body e₁ hx
      cases h
      refine ⟨n, body, rfl, rfl, ?_, ?_, .inr ⟨fun hi => ?_, hx⟩⟩
      · cases e.pool.isInitializer m with
        | true => exact .inr ⟨rfl, rfl⟩
        | false => exact .inl rfl
      · cases e.pool.isInitializer m with
        | true => simp [Initializer.isOpen_found]
        | false => simp
      · rw [hi, Bool.true_and, Bool.not_eq_true, Bool.not_eq_false'] at hvisit
        exact hvisit

/-- Visits that succeed leave a grown pool, and may have found an initializer. -/
theorem visitMethods_eq_ok {p p' : Progress} {ms : List Member} (he : e.Ready lookup)
    (h : visitMethods catalog lookup p e ms = .ok (p', e')) :
    e.pool.GrownTo e'.pool ∧ e'.Ready lookup ∧ ∃ edits, edits.map (·.1) = ms ∧
      p'.edits.toList = p.edits.toList ++ edits ∧
      Visits catalog lookup p.initializer.isOpen e edits p'.initializer.isOpen e' ∧
      Finds catalog lookup e.pool e'.pool p.edits.size edits p.initializer p'.initializer := by
  induction ms generalizing p e with
  | nil =>
    cases h
    exact ⟨.refl he.bounded, he, [], rfl, by simp, .nil, .refl⟩
  | cons m rest ih =>
    rw [visitMethods] at h
    split at h
    · cases h
    · rename_i p₁ e₁ hvisit
      obtain ⟨n, body, hedits, -, hinit, hopen, hcases⟩ := visitMethod_eq_ok hvisit
      have hstep : e.pool.GrownTo e₁.pool ∧ e₁.Ready lookup := by
        rcases hcases with ⟨-, -, -, -, rfl⟩ | ⟨-, hx⟩
        · exact ⟨.refl he.bounded, he⟩
        · exact expandMethod_grown he hx
      obtain ⟨hg, hr, edits, rfl, hlist, hvisits, hfinds⟩ := ih hstep.2 h
      have hle := (hstep.1.trans hg).le
      rw [hedits, Array.size_push] at hfinds
      rw [hopen] at hvisits
      refine ⟨hstep.1.trans hg, hr, (m, body) :: edits, rfl, by simp [hlist, hedits], ?_, ?_⟩
      · rcases hcases with ⟨hi, ho, -, rfl, rfl⟩ | ⟨ho, hx⟩
        · rw [ho, Bool.false_and] at hvisits
          rw [ho]
          exact .passed hi hvisits
        · exact .visited ho hx hvisits
      · refine .cons hstep.1.le hle ?_ hfinds
        rcases hcases with ⟨hi, ho, -, -⟩ | ⟨-, hx⟩
        · -- nothing is found once an initializer has been
          left
          rcases hinit with hinit | ⟨-, hinit⟩
          · exact hinit
          · rw [hinit, Initializer.found]
            split
            · rename_i hs
              rw [Initializer.isOpen, hs] at ho
              cases ho
            · rfl
        · exact hinit.imp_right fun hi => ⟨hi, e, e₁, n, he, Pool.le_refl _, hg.le, hx⟩

theorem Visits.grown {o o' : Bool} {edits : List (Member × Option Body)}
    (h : Visits catalog lookup o e edits o' e') (he : e.Ready lookup) :
    e.pool.GrownTo e'.pool ∧ e'.Ready lookup := by
  induction h with
  | nil => exact ⟨.refl he.bounded, he⟩
  | passed _ _ ih => exact ih he
  | visited _ hx _ ih =>
    obtain ⟨hg, hr⟩ := expandMethod_grown he hx
    obtain ⟨hg', hr'⟩ := ih hr
    exact ⟨hg.trans hg', hr'⟩

/-- A method that gets a new body was visited. -/
theorem Visits.visited_of_mem {o o' : Bool} {edits : List (Member × Option Body)}
    (h : Visits catalog lookup o e edits o' e') (he : e.Ready lookup) {body : Body}
    (hm : (m, some body) ∈ edits) :
    Visited catalog lookup e.pool e'.pool m (some body) := by
  induction h with
  | nil => cases hm
  | passed _ _ ih => exact ih he ((List.mem_cons.1 hm).resolve_left (by simp))
  | @visited o o' e e₁ e' m' n body' edits _ hx hrest ih =>
    obtain ⟨hg, hr⟩ := expandMethod_grown he hx
    rcases List.mem_cons.1 hm with heq | hm
    · cases heq
      exact ⟨e, e₁, n, he, Pool.le_refl _, (hrest.grown hr).1.le, hx⟩
    · exact (ih hr hm).mono hg.le (Pool.le_refl _)

theorem Visits.isOpen {o o' : Bool} {edits : List (Member × Option Body)}
    (h : Visits catalog lookup o e edits o' e') : o' = true → o = true := by
  induction h with
  | nil => exact id
  | passed _ _ ih => exact ih
  | visited _ _ _ ih => exact fun ho' => (Bool.and_eq_true_iff.1 (ih ho')).1

/-- If no initializer has been found in the end, no method is one. -/
theorem Visits.not_isInitializer {o o' : Bool} {edits : List (Member × Option Body)}
    (h : Visits catalog lookup o e edits o' e') (he : e.Ready lookup) (ho' : o' = true) :
    ∀ x ∈ edits, ∃ r, e.pool ≤ r ∧ r ≤ e'.pool ∧ r.isInitializer x.1 = false := by
  induction h with
  | nil => exact fun x hx => (List.not_mem_nil hx).elim
  | passed _ hrest _ => cases hrest.isOpen ho'
  | @visited o o' e e₁ e' m n body edits _ hx hrest ih =>
    obtain ⟨hg, hr⟩ := expandMethod_grown he hx
    have hinit : e.pool.isInitializer m = false := by
      simpa using (Bool.and_eq_true_iff.1 (hrest.isOpen ho')).2
    have hle := (hg.trans (hrest.grown hr).1).le
    refine List.forall_mem_cons.2 ⟨⟨e.pool, Pool.le_refl _, hle, hinit⟩, fun x hx => ?_⟩
    obtain ⟨r, hr₁, hr₂, hx⟩ := ih hr ho' x hx
    exact ⟨r, Pool.le_trans hg.le hr₁, hr₂, hx⟩

end Expansion

end ClassTemplates
