import ClassTemplates.Proofs.Expansion.Code
import ClassTemplates.Proofs.Pool.Lasting

/-!
# Expansions that are made again

A constant that is asked for again is found where it was, so an expansion that is made again, at any
later point of the same run, gives the same code and adds nothing. What happens in between, and
whether it succeeds, makes no difference, as long as the pool only grows and the members that
expansions use stay the ones they are.

## Main definitions

- `Expander.Onward` — what may come of an expander
- `Expander.Used` — the runs of an expander with its pool

## Main results

- `Expander.expand_lasting` — the expansion of a text
- `Expander.Used.onward` — whatever an expander is used for, it only goes on
-/

namespace ClassTemplates

/-! ### Expanders -/

namespace Expander

variable {catalog : Catalog} {lookup : LookupMethod} {e e' : Expander} {m : BuilderMembers}

/-- The pool goes on, the members that were added are kept, and an expander that is ready stays
so. -/
structure Onward (lookup : LookupMethod) (e e' : Expander) : Prop where
  pool : e.pool.Onward e'.pool
  members : ∀ {m}, e.members = some m → e'.members = some m
  ready : e.Ready lookup → e'.Ready lookup

instance : Std.Refl (Onward lookup) :=
  ⟨fun e => ⟨Std.Refl.refl e.pool, id, id⟩⟩

instance : IsTrans Expander (Onward lookup) :=
  ⟨fun _ _ _ h h' => ⟨IsTrans.trans _ _ _ h.pool h'.pool, h'.members ∘ h.members,
    h'.ready ∘ h.ready⟩⟩

/-- An expander goes on if its pool does while the members stay. -/
theorem onward_of_pool (h : e.pool.Onward e'.pool) (hm : e'.members = e.members) :
    Onward lookup e e' where
  pool := h
  members hm' := hm.trans hm'
  ready he := ⟨h.bounded he.bounded, fun m hm' => (he.members m (hm ▸ hm')).mono h.le⟩

theorem run_onPool {α : Type} (x : PoolM α) (e : Expander) :
    (onPool x).run e = ((x.run e.pool).1, { e with pool := (x.run e.pool).2 }) :=
  rfl

theorem onPool_lasting {α : Type} {x : PoolM α} (h : Lasting Pool.Onward x) :
    Lasting (Onward lookup) (onPool x) where
  onward e := onward_of_pool (h.onward e.pool) rfl
  again {e a e' f} hrun hf := by
    obtain ⟨r, hr, hback⟩ := h.again (onPool_eq_ok hrun).1 hf.pool
    refine ⟨{ f with pool := r }, ?_, onward_of_pool hback rfl⟩
    rw [run_onPool, hr]

theorem count_lasting (f : ExpansionStats → ExpansionStats) :
    Lasting (Onward lookup) (count f) where
  onward e := onward_of_pool (Std.Refl.refl e.pool) rfl
  again {_ _ _ g} _ _ :=
    ⟨{ g with stats := f g.stats }, rfl, onward_of_pool (Std.Refl.refl g.pool) rfl⟩

theorem addMembers_lasting : Lasting Pool.Onward (addMembers lookup) :=
  (Pool.addClass_lasting _).bind fun _ => (Pool.addMethodRef_lasting _ _ _).bind fun _ =>
    (Pool.addMethodRef_lasting _ _ _).bind fun _ => (Pool.addMethodRef_lasting _ _ _).bind fun _ =>
      (Pool.addMethodRef_lasting _ _ _).bind fun _ => .pure _

theorem getMembers_of_some (h : e.members = some m) :
    (getMembers lookup).run e = (.ok m, e) := by
  refine run_bind_eq_ok.2 ⟨e, e, rfl, ?_⟩
  rw [h]
  rfl

/-- Without members, they are added to the pool and, if there is room for them, kept. -/
theorem getMembers_of_none (h : e.members = none) :
    (getMembers lookup).run e =
      match (addMembers lookup).run e.pool with
      | (.error fault, p) => (.error fault, { e with pool := p })
      | (.ok m, p) => (.ok m, { e with pool := p, members := some m }) := by
  have hget : (MonadState.get : ExpanderM Expander).run e = (.ok e, e) := rfl
  rw [getMembers, run_bind_ok hget, h]
  rcases hadd : (addMembers lookup).run e.pool with ⟨_ | m, p⟩
  · rw [run_bind_error (by rw [run_onPool, hadd])]
    simp only [h]
  · rw [run_bind_ok (by rw [run_onPool, hadd])]
    rfl

theorem members_of_getMembers (h : (getMembers lookup).run e = (.ok m, e')) :
    e'.members = some m := by
  cases hm : e.members with
  | some m' =>
    rw [getMembers_of_some hm] at h
    cases h
    exact hm
  | none =>
    rw [getMembers_of_none hm] at h
    split at h
    · cases h
    · cases h
      rfl

theorem getMembers_lasting : Lasting (Onward lookup) (getMembers lookup) where
  onward e := by
    cases hm : e.members with
    | some m =>
      rw [getMembers_of_some hm]
      exact Std.Refl.refl e
    | none =>
      have hpool : e.pool.Onward ((addMembers lookup).run e.pool).2 := addMembers_lasting.onward _
      rw [getMembers_of_none hm]
      rcases hadd : (addMembers lookup).run e.pool with ⟨_ | m, p⟩ <;> rw [hadd] at hpool
      · exact onward_of_pool hpool rfl
      · refine ⟨hpool, fun hm' => ?_, fun he => ?_⟩
        · rw [hm] at hm'
          cases hm'
        · obtain ⟨hg, hr⟩ := addMembers_grown he.bounded hadd
          refine ⟨hg.bounded, fun m' hm' => ?_⟩
          cases hm'
          exact hr
  again {_ _ _ f} h hf :=
    ⟨f, getMembers_of_some (hf.members (members_of_getMembers h)), Std.Refl.refl f⟩

theorem load_lasting (text : String) : Lasting (Onward lookup) (load text) :=
  (onPool_lasting (Pool.addString_lasting text)).bind fun _ => .pure _

theorem push_lasting (segment : Segment) : Lasting (Onward lookup) (push m segment) := by
  cases segment with
  | literal text => exact (load_lasting _).bind fun _ => .pure _
  | unbound token =>
    exact (load_lasting _).bind fun _ => (count_lasting _).bind fun _ => .pure _
  | bound binding =>
    refine (load_lasting _).bind fun _ => ?_
    refine (load_lasting _).bind fun _ => ?_
    refine (load_lasting _).bind fun _ => ?_
    exact (count_lasting _).bind fun _ => .pure _

/-- Segments are appended one after the other. -/
theorem appendOnto_cons (done : Array Insn) (segment : Segment) (rest : List Segment) :
    (ExceptT.mk (appendOnto m done (segment :: rest)) : ExpanderM (Array Insn)) =
      push m segment >>= fun insns => ExceptT.mk
        (appendOnto m ((done ++ insns).push (.invoke Opcode.invokevirtual m.append)) rest) := by
  funext e
  show appendOnto m done (segment :: rest) e = ExceptT.run (push m segment >>= _) e
  rcases hpush : (push m segment).run e with ⟨_ | insns, e₁⟩
  · rw [appendOnto, hpush, run_bind_error hpush]
  · rw [appendOnto, hpush, run_bind_ok hpush]
    rfl

theorem appendOnto_lasting (segments : List Segment) (done : Array Insn) :
    Lasting (Onward lookup) (ExceptT.mk (appendOnto m done segments) : ExpanderM (Array Insn)) := by
  induction segments generalizing done with
  | nil => exact .pure done
  | cons segment rest ih =>
    rw [appendOnto_cons]
    exact (push_lasting segment).bind fun _ => ih _

theorem build_lasting (segments : List Segment) :
    Lasting (Onward lookup) (build lookup segments) := by
  refine getMembers_lasting.bind fun m => ?_
  refine (appendOnto_lasting segments _).bind fun _ => ?_
  exact (count_lasting _).bind fun _ => .pure _

theorem expand_lasting (text : String) :
    Lasting (Onward lookup) (expand catalog lookup text) := by
  unfold expand
  dsimp only
  split
  · exact (build_lasting _).bind fun _ => .pure _
  · exact .pure _

theorem expand_onward {result : Except PoolError (Option (List Insn))} {text : String}
    (h : (expand catalog lookup text).run e = (result, e')) : Onward lookup e e' := by
  have hgo : Onward lookup e ((expand catalog lookup text).run e).2 :=
    (expand_lasting text).onward e
  rwa [h] at hgo

/-! ### Runs -/

/-- A run of an expander with its pool: texts are expanded into the pool and constants are pushed
onto it, in any order and with any outcome. -/
inductive Used (catalog : Catalog) (lookup : LookupMethod) : Expander → Expander → Prop
  | refl (e₀ : Expander) : Used catalog lookup e₀ e₀
  | expanded {e₀ e₁ e₂ : Expander} {text : String}
      {result : Except PoolError (Option (List Insn))} : Used catalog lookup e₀ e₁ →
      (expand catalog lookup text).run e₁ = (result, e₂) → Used catalog lookup e₀ e₂
  | pushed {e₀ e₁ e₂ : Expander} {c : Constant} {result : Except PoolError UInt16} :
      Used catalog lookup e₀ e₁ → (onPool (Pool.push c)).run e₁ = (result, e₂) →
      Used catalog lookup e₀ e₂

/-- Whatever an expander is used for, it only goes on. -/
theorem Used.onward (h : Used catalog lookup e e') : Onward lookup e e' := by
  induction h with
  | refl => exact Std.Refl.refl _
  | expanded _ hrun ih => exact IsTrans.trans _ _ _ ih (expand_onward hrun)
  | @pushed e₁ e₂ c _ _ hrun ih =>
    rw [run_onPool] at hrun
    cases hrun
    exact IsTrans.trans _ _ _ ih (onward_of_pool (Pool.push_onward c e₁.pool) rfl)

end Expander

end ClassTemplates
