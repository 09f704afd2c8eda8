import ClassTemplates.Proofs.Class.Running
import ClassTemplates.Proofs.Class.WellFormed
import ClassTemplates.Proofs.Expansion.Lasting

/-!
# Pools only grow

Whatever an expansion does, and whether it succeeds or not, it only appends to the pool, also to one
that has more slots than an index can name. A class that comes out expanded is checked, so that the
pool it started with was bounded.

## Main definitions

- `OnlyAppends` — a computation that only appends to the pool its states hold

## Main results

- `Expander.expandBody_onlyAppends` — the expansion of a body
- `ClassFile.bounded_of_expand` — the pools of a class that can be expanded and of what it becomes
-/

namespace ClassTemplates

/-- Whether a computation succeeds or not, the pool that its states hold begins with what it was. -/
def OnlyAppends {σ ε α : Type} (pool : σ → Pool) (x : ExceptT ε (StateM σ) α) : Prop :=
  ∀ s, pool s ≤ pool (x.run s).2

namespace OnlyAppends

variable {σ ε α β : Type} {pool : σ → Pool} {x : ExceptT ε (StateM σ) α}

theorem pure (a : α) : OnlyAppends pool (Pure.pure a : ExceptT ε (StateM σ) α) := by
  intro s
  exact Pool.le_refl _

theorem get : OnlyAppends pool (MonadState.get : ExceptT ε (StateM σ) σ) := by
  intro s
  exact Pool.le_refl _

theorem bind {f : α → ExceptT ε (StateM σ) β} (hx : OnlyAppends pool x)
    (hf : ∀ a, OnlyAppends pool (f a)) : OnlyAppends pool (x >>= f) := by
  intro s
  rcases hrun : x.run s with ⟨_ | a, m⟩
  · have hle := hx s
    rw [hrun] at hle
    rw [run_bind_error hrun]
    exact hle
  · have hle := hx s
    rw [hrun] at hle
    rw [run_bind_ok hrun]
    exact Pool.le_trans hle (hf a m)

end OnlyAppends

/-! ### Texts and bodies -/

namespace Expander

variable {catalog : Catalog} {lookup : LookupMethod}

theorem onPool_onlyAppends {α : Type} {x : PoolM α} (h : Lasting Pool.Onward x) :
    OnlyAppends pool (onPool x) :=
  fun e => (h.onward e.pool).le

theorem load_onlyAppends (text : String) : OnlyAppends pool (load text) :=
  (onPool_onlyAppends (Pool.addString_lasting text)).bind fun _ => .pure _

theorem expand_onlyAppends (text : String) : OnlyAppends pool (expand catalog lookup text) :=
  fun e => ((expand_lasting text).onward e).pool.le

theorem expandInsn_onlyAppends (insn : Insn) (rest : List Insn) :
    OnlyAppends pool (expandInsn catalog lookup insn rest) := by
  refine OnlyAppends.get.bind fun e => ?_
  split
  · exact expand_onlyAppends _
  · exact .pure _

theorem expandOnto_onlyAppends (insns : List Insn) (done : Array Insn) (n : Nat) :
    OnlyAppends pool (ExceptT.mk (expandOnto catalog lookup done n insns)) := by
  intro e
  induction insns generalizing done n e with
  | nil => exact Pool.le_refl _
  | cons insn rest ih =>
    have hle : e.pool ≤ ((expandInsn catalog lookup insn rest).run e).2.pool :=
      expandInsn_onlyAppends insn rest e
    show e.pool ≤ (expandOnto catalog lookup done n (insn :: rest) e).2.pool
    rw [expandOnto]
    rcases hrun : (expandInsn catalog lookup insn rest).run e with ⟨_ | _ | insns, e₁⟩
    · rw [hrun] at hle
      exact hle
    · rw [hrun] at hle
      exact Pool.le_trans hle (ih _ _ e₁)
    · rw [hrun] at hle
      exact Pool.le_trans hle (ih _ _ e₁)

theorem expandBody_onlyAppends (b : Body) : OnlyAppends pool (expandBody catalog lookup b) :=
  ((expandOnto_onlyAppends b.insns #[] 0).bind fun _ => .pure _).bind fun _ => .pure _

end Expander

/-! ### Assignments -/

namespace Initializer

variable {catalog : Catalog} {lookup : LookupMethod} {owner : String}

theorem value_onlyAppends (text : String) :
    OnlyAppends Expander.pool (value catalog lookup text) := by
  refine (Expander.expand_onlyAppends text).bind fun code => ?_
  cases code with
  | some insns => exact .pure _
  | none => exact (Expander.load_onlyAppends text).bind fun _ => .pure _

theorem assign_onlyAppends (c : DeferredConstant) :
    OnlyAppends Expander.pool (assign catalog lookup owner c) :=
  (value_onlyAppends c.text).bind fun _ =>
    (Expander.onPool_onlyAppends (Pool.addFieldRef_lasting _ _ _)).bind fun _ => .pure _

theorem assignOnto_onlyAppends (constants : List DeferredConstant) (done : Array Insn) :
    OnlyAppends Expander.pool (ExceptT.mk (assignOnto catalog lookup owner done constants)) := by
  intro e
  induction constants generalizing done e with
  | nil => exact Pool.le_refl _
  | cons c rest ih =>
    have hle : e.pool ≤ ((assign catalog lookup owner c).run e).2.pool := assign_onlyAppends c e
    show e.pool ≤ (assignOnto catalog lookup owner done (c :: rest) e).2.pool
    rw [assignOnto]
    rcases hrun : (assign catalog lookup owner c).run e with ⟨_ | insns, e₁⟩
    · rw [hrun] at hle
      exact hle
    · rw [hrun] at hle
      exact Pool.le_trans hle (ih _ e₁)

theorem assignAll_onlyAppends (constants : List DeferredConstant) :
    OnlyAppends Expander.pool (assignAll catalog lookup owner constants) :=
  (assignOnto_onlyAppends constants #[]).bind fun _ => .pure _

theorem pool_le_finalize (i : Initializer) (e : Expander) :
    e.pool ≤ (i.finalize catalog lookup owner e).2.2.pool := by
  have hle : e.pool ≤ ((assignAll catalog lookup owner i.deferred.toList).run e).2.pool :=
    assignAll_onlyAppends _ e
  rcases hrun : i.finalize catalog lookup owner e with ⟨result, i', e'⟩
  cases finalizes hrun with
  | ended | nothing => exact Pool.le_refl _
  | made _ _ hassign | failed _ _ hassign =>
    rw [hassign] at hle
    exact hle

end Initializer

/-! ### Classes -/

namespace Expansion

variable {catalog : Catalog} {lookup : LookupMethod} {className : String} {e e' : Expander}

theorem pool_le_of_lift {α : Type} {x : ExpanderM α} {a : α} (hx : OnlyAppends Expander.pool x)
    (h : lift (x.run e) = .ok (a, e')) : e.pool ≤ e'.pool := by
  have hle := hx e
  rw [lift_eq_ok.1 h] at hle
  exact hle

theorem pool_le_of_expandMethod {m : Member} {n : Nat} {body : Option Body}
    (h : expandMethod catalog lookup m e = .ok ((n, body), e')) : e.pool ≤ e'.pool := by
  rcases expandMethod_eq_ok h with ⟨-, -, -, rfl⟩ | ⟨b, hx, -⟩
  · exact Pool.le_refl _
  · obtain ⟨c, b₀, -, -, hrun⟩ := hx.exists_body
    have hle : e.pool ≤ ((Expander.expandBody catalog lookup b₀).run e).2.pool :=
      Expander.expandBody_onlyAppends b₀ e
    rw [hrun] at hle
    exact hle

theorem pool_le_of_visitMethods {p p' : Progress} {ms : List Member}
    (h : visitMethods catalog lookup p e ms = .ok (p', e')) : e.pool ≤ e'.pool := by
  induction ms generalizing p e with
  | nil =>
    cases h
    exact Pool.le_refl _
  | cons m rest ih =>
    rw [visitMethods] at h
    split at h
    · cases h
    · rename_i p₁ e₁ hvisit
      obtain ⟨n, body, -, -, -, -, hcases⟩ := visitMethod_eq_ok hvisit
      rcases hcases with ⟨-, -, -, -, rfl⟩ | ⟨-, hx⟩
      · exact ih h
      · exact Pool.le_trans (pool_le_of_expandMethod hx) (ih h)

theorem newInitializer_lasting : Lasting Pool.Onward newInitializer :=
  (Pool.addUtf8_lasting _).bind fun _ => (Pool.addUtf8_lasting _).bind fun _ => .pure _

theorem setCode_lasting (m : Member) (c : Code) : Lasting Pool.Onward (setCode m c) := by
  unfold setCode
  split
  · exact .pure _
  · exact (Pool.addUtf8_lasting _).bind fun _ => .pure _

theorem pool_le_of_applyInjection {edits edits' : Edits} {injection : Option Injection}
    {change : Option InitializerChange}
    (h : applyInjection className edits e injection = .ok ((edits', change), e')) :
    e.pool ≤ e'.pool := by
  rcases injection with _ | ⟨k, insns⟩ | insns
  · cases h
    exact Pool.le_refl _
  · obtain ⟨edits₁, -, h⟩ := bind_eq_ok.1 h
    cases h
    exact Pool.le_refl _
  · obtain ⟨⟨m, e₁⟩, hnew, h⟩ := bind_eq_ok.1 h
    cases h
    exact pool_le_of_lift (Expander.onPool_onlyAppends newInitializer_lasting) hnew

theorem pool_le_of_finishMethods {done done' : Finished} {edits : List (Member × Option Body)}
    (h : finishMethods className done e edits = .ok (done', e')) : e.pool ≤ e'.pool := by
  induction edits generalizing done e with
  | nil =>
    cases h
    exact Pool.le_refl _
  | cons edit rest ih =>
    obtain ⟨m, _ | b⟩ := edit
    · exact ih h
    · rw [finishMethods] at h
      split at h
      · cases h
      · rename_i m' signature e₁ hfinish
        obtain ⟨c, -, hfinish⟩ := bind_eq_ok.1 hfinish
        obtain ⟨⟨m₁, e₂⟩, hset, hfinish⟩ := bind_eq_ok.1 hfinish
        cases hfinish
        exact Pool.le_trans
          (pool_le_of_lift (Expander.onPool_onlyAppends (setCode_lasting m c)) hset) (ih h)

/-- The pool of an expanded class begins with that of the class, and is bounded. -/
theorem pool_le_of_ofNamed {cls cls' : ClassFile} {summary : ExpansionSummary}
    (h : ofNamed catalog lookup cls className = .ok (.expanded cls' summary)) :
    cls.pool ≤ cls'.pool ∧ cls'.pool.Bounded := by
  obtain ⟨r⟩ := nonempty_run h
  have hfinal : r.visited.pool ≤ r.assigned.pool := by
    have hle : r.visited.pool ≤
        (r.progress.initializer.finalize catalog lookup className r.visited).2.2.pool :=
      Initializer.pool_le_finalize _ _
    rwa [r.finalizes] at hle
  refine ⟨?_, ClassFile.bounded_of_poolFault? (ClassFile.verifyOutline_eq_ok.1
    r.verifyOutline_eq_ok).1⟩
  rw [r.result]
  refine Pool.le_trans (pool_le_of_visitMethods r.visits) (Pool.le_trans hfinal ?_)
  exact Pool.le_trans (pool_le_of_applyInjection r.injects) (pool_le_of_finishMethods r.finishes)

end Expansion

namespace ClassFile

variable {cls cls' : ClassFile} {catalog : Catalog} {lookup : LookupMethod}
  {summary : ExpansionSummary}

/-- A class that can be expanded has a bounded pool, and so has what it becomes. -/
theorem bounded_of_expand (h : cls.expand catalog lookup = .ok (.expanded cls' summary)) :
    cls.pool.Bounded ∧ cls.pool ≤ cls'.pool ∧ cls'.pool.Bounded := by
  unfold expand at h
  split at h
  · split at h
    · cases h
    · obtain ⟨hle, hbounded⟩ := Expansion.pool_le_of_ofNamed h
      exact ⟨hbounded.of_le hle, hle, hbounded⟩
  · cases h

end ClassFile

end ClassTemplates
