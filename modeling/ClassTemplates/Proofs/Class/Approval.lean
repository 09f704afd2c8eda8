import ClassTemplates.Proofs.Class.Laying
import ClassTemplates.Proofs.Class.WellFormed

/-!
# Methods that the checks accept

The checks of a method look at its texts, at its returns and at its depths. A new body of a method
that they accept has the same returns and depths with four slots more, so the method with the new
body laid out is accepted as well, in the larger pool.

## Main definitions

- `Expansion.Approved` — a method that the checks accept
- `Expansion.Approvable` — a new body that they will accept once it is laid out

## Main results

- `Expansion.Reworked.approvable` — the new body of an accepted method
- `Expansion.Approvable.checkMethod_eq_ok` — the method with the new body laid out
-/

namespace ClassTemplates

open ClassFile (checkReturns bodiless)

variable {catalog : Catalog} {lookup : LookupMethod} {className owner d : String} {p q q' : Pool}
  {m m' : Member} {b b' : Body} {c : Code} {insns insns' : List Insn}

/-! ### Returns -/

theorem ClassFile.checkReturns_congr
    (h : insns.filterMap Insn.returns? = insns'.filterMap Insn.returns?) :
    checkReturns insns d = checkReturns insns' d := by
  unfold checkReturns
  rw [h]

theorem Insn.returns?_of_assigning {insn : Insn} (h : insn.assigning) : insn.returns? = none := by
  cases insn with
  | op opcode =>
    obtain rfl : opcode = Opcode.dup := eq_of_beq h
    rfl
  | _ => rfl

theorem Insn.returns?_relabel {insn : Insn} {f : Label → Label} :
    (insn.relabel f).returns? = insn.returns? := by
  cases insn <;> rfl

/-- Neither loads nor the code in their place return. -/
theorem Splice.filterMap_returns?_after {xs : List Splice} (h : OfLoads xs) :
    (after xs).filterMap Insn.returns? = (before xs).filterMap Insn.returns? := by
  induction xs with
  | nil => rfl
  | cons x xs ih =>
    have hrest := ih fun y hy => h y (List.mem_cons_of_mem _ hy)
    rw [after_cons, before_cons, List.filterMap_append, hrest, ← List.singleton_append,
      List.filterMap_append]
    congr 1
    cases hc : x.code with
    | none => rw [result_of_none hc]
    | some code =>
      obtain ⟨⟨i, hi⟩, -, hemit⟩ := h x List.mem_cons_self code hc
      have hnone : ∀ y ∈ code, y.returns? = none := fun y hy =>
        Insn.returns?_of_assigning (Insn.assigning_of_emitted (hemit y hy))
      rw [result_of_some hc, hi, List.filterMap_eq_nil_iff.2 hnone]
      rfl

namespace Expansion

/-! ### Accepted code -/

/-- Code that the checks accept for a method of a descriptor, with room for four slots more. -/
def Accepts (p : Pool) (d : String) (c : Code) : Prop :=
  ∃ b limit reached, Body.ofCode c = .ok b ∧ checkReturns b.insns d = .ok () ∧
    b.Flows p limit reached ∧ limit.toNat + 4 ≤ 65535

/-- The stack stays empty in the code of a new initializer. -/
theorem flows_bareCode :
    (Body.decodedAs bareCode [(0, .op Opcode.voidReturn)]).Flows p 0 fun i d => i = 0 ∧ d = 0 := by
  refine ⟨⟨?_, ?_⟩, ⟨rfl, rfl⟩, ?_⟩
  · rintro i d d' ⟨-, rfl⟩ ⟨-, rfl⟩
    rfl
  · rintro i d ⟨rfl, rfl⟩
    exact ⟨.op Opcode.voidReturn, 0, [], rfl, rfl, UInt16.le_refl _, by simp⟩
  · intro h hh
    cases hh

/-- The checks accept the code of a new initializer. -/
theorem accepts_bareCode : Accepts p initializerDescriptor bareCode := by
  have hreads : Insn.Reads (.start bareCode.bytes) [(0, .op Opcode.voidReturn)] :=
    Insn.decode_eq_ok.1 (by decide +kernel)
  have hb := Body.ofCode_eq_ok.2 ⟨_, hreads, fun o ho => (List.not_mem_nil ho).elim, rfl⟩
  exact ⟨_, 0, _, hb, by decide +kernel, flows_bareCode, by decide⟩

/-- The returns and the depths of an edit of accepted code. -/
theorem Accepts.edit {decoded : List (Nat × Insn)} {pre : List Insn} {xs : List Splice}
    {cs : List DeferredConstant} {e₁ e₂ : Expander} (h : Accepts p d c)
    (hedit : b.EditOf c decoded pre xs) (ha : Assigns catalog lookup owner q cs pre)
    (hr : e₁.Ready lookup) (hp : p ≤ e₁.pool) (hq : e₂.pool ≤ q)
    (hx : Expander.Expands catalog lookup e₁ xs e₂) :
    checkReturns b.insns d = .ok () ∧ ∃ limit reached, b.Flows q limit reached := by
  obtain ⟨old, limit, reached, hold, hreturns, hflows, hroom⟩ := h
  obtain ⟨decoded', hreads, -, rfl⟩ := Body.ofCode_eq_ok.1 hold
  obtain rfl : decoded' = decoded := by
    have hd := Insn.decode_eq_ok.2 hreads
    rw [Insn.decode_eq_ok.2 hedit.reads] at hd
    exact (Except.ok.inj hd).symm
  have hlimit : (UInt16.ofNat (limit.toNat + 4)).toNat = limit.toNat + 4 :=
    UInt16.toNat_ofNat_of_lt' (Nat.lt_succ_of_le hroom)
  -- the code in place of a load needs up to four slots more than the load did
  have hdeep : Body.Deepens p q limit (.ofNat (limit.toNat + 4)) pre xs reached
      (Body.decodedAs c decoded') b := by
    refine hedit.deepens ha hx hr hp hq hflows ?_ (fun _ => by omega) fun k x d _ _ hd => ?_
    · rw [UInt16.le_iff_toNat_le, hlimit]
      exact Nat.le_add_right _ _
    · rw [hlimit]
      exact Nat.add_le_add_right (UInt16.le_iff_toNat_le.1 (hflows.respects.le_limit hd)) 4
  refine ⟨?_, _, _, hdeep.flows_reached⟩
  rw [← hreturns]
  refine ClassFile.checkReturns_congr ?_
  rw [hedit.insns, List.filterMap_append, Splice.filterMap_returns?_after hedit.loads,
    hedit.before, List.filterMap_eq_nil_iff.2 fun i hi => Insn.returns?_of_assigning
      (ha.assigning i hi), List.nil_append]

/-! ### Methods -/

/-- A method that the checks accept, with room in its code, and with code if it is a type
initializer. -/
structure Approved (p : Pool) (m : Member) : Prop where
  name : ∃ t, p.utf8? m.name = some t
  descriptor : ∃ t, p.utf8? m.descriptor = some t
  code : ∀ c, m.code? = some c → bodiless m = false ∧
    m.attributes.filterMap Attribute.code? = [c] ∧
      ∀ d, p.utf8? m.descriptor = some d → Accepts p d c
  initializer : p.isInitializer m = true → ∃ c, m.code? = some c

/-- A new body that the checks of the method accept once it is laid out. -/
structure Approvable (q : Pool) (m : Member) (b : Body) : Prop where
  name : ∃ t, q.utf8? m.name = some t
  returns : ∃ d, q.utf8? m.descriptor = some d ∧ checkReturns b.insns d = .ok ()
  bodied : bodiless m = false
  single : (m.attributes.filterMap Attribute.code?).length ≤ 1
  edit : ∃ c decoded pre xs, b.EditOf c decoded pre xs ∧ ∀ i ∈ pre, i.assigning
  flows : ∃ limit reached, b.Flows q limit reached

theorem Approvable.mono (h : q ≤ q') (hb : Approvable q m b) : Approvable q' m b := by
  obtain ⟨⟨t, ht⟩, ⟨d, hd, hreturns⟩, hbodied, hsingle, hedit, limit, reached, hflows⟩ := hb
  exact ⟨⟨t, Pool.utf8?_mono h ht⟩, ⟨d, Pool.utf8?_mono h hd, hreturns⟩, hbodied, hsingle, hedit,
    limit, reached, hflows.mono h⟩

/-- The new body of a method that is accepted, or that is new. -/
theorem Reworked.approvable (hb : Reworked catalog lookup owner p q m b)
    (hm : IsNew q m ∨ Approved p m) : Approvable q m b := by
  obtain @⟨c, decoded, pre, xs, cs, e₁, e₂, hc, hedit, ha, hr, hp, hq, hx⟩ := hb
  have hpq := Pool.le_trans hp (Pool.le_trans (hx.grown hr).1.le hq)
  have hassigning : ∃ c decoded pre xs, b.EditOf c decoded pre xs ∧ ∀ i ∈ pre, i.assigning :=
    ⟨c, decoded, pre, xs, hedit, ha.assigning⟩
  rcases hc with hc | ⟨hn, rfl⟩
  · rcases hm with hn | hm
    · rw [Member.code?, hn.attributes] at hc
      cases hc
    · obtain ⟨hbodied, hsingle, hacc⟩ := hm.code c hc
      obtain ⟨t, ht⟩ := hm.name
      obtain ⟨d, hd⟩ := hm.descriptor
      obtain ⟨hreturns, hflows⟩ := (hacc d hd).edit hedit ha hr hp hq hx
      exact ⟨⟨t, Pool.utf8?_mono hpq ht⟩, ⟨d, Pool.utf8?_mono hpq hd, hreturns⟩, hbodied,
        by simp [hsingle], hassigning, hflows⟩
  · obtain ⟨hreturns, hflows⟩ := accepts_bareCode.edit hedit ha hr hp hq hx
    refine ⟨⟨_, hn.name⟩, ⟨_, hn.descriptor, hreturns⟩, ?_, ?_, hassigning, hflows⟩
    · rw [bodiless, hn.access]
      decide
    · simp [hn.attributes]

theorem Approvable.layOut_failsWith {signature : String} (h : Approvable q m b) :
    FailsWith ExpansionError.forRoom (layOut className signature q b) := by
  obtain ⟨c, decoded, pre, xs, hedit, hpre⟩ := h.edit
  obtain ⟨limit, reached, hflows⟩ := h.flows
  exact Expansion.layOut_failsWith hedit hpre hflows

/-- The checks accept a method with its new body laid out. -/
theorem Approvable.checkMethod_eq_ok {cls : ClassFile} (h : Approvable p m b)
    (hlaid : Laid className p cls.pool m b m') : cls.checkMethod m' = .ok () := by
  obtain ⟨r, signature, c', hp, hr, hlayout, hrecoded⟩ := hlaid
  obtain ⟨t, ht⟩ := (h.mono (Pool.le_trans hp hr)).name
  obtain ⟨d, hd, hreturns⟩ := (h.mono (Pool.le_trans hp hr)).returns
  obtain ⟨c, decoded, pre, xs, hedit, hpre⟩ := h.edit
  obtain ⟨b', f, hb', hf, reached, hflows⟩ := exists_renames_of_layOut hedit hpre hlayout
  refine ClassFile.checkMethod_eq_ok.2 ⟨⟨t, by rw [hrecoded.name, ht]⟩, d,
    by rw [hrecoded.descriptor, hd], .inr ⟨?_, c', hrecoded.single h.single, ?_⟩⟩
  · rw [bodiless, hrecoded.access]
    exact h.bodied
  · refine ClassFile.checkCode_eq_ok.2 ⟨b', hb', ?_, reached, hflows.renames hf hr⟩
    rw [← hreturns]
    refine ClassFile.checkReturns_congr ?_
    rw [hf.insns, List.filterMap_map]
    exact List.filterMap_congr fun i _ => Insn.returns?_relabel

end Expansion

end ClassTemplates
