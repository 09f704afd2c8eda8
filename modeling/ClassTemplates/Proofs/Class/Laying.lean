import ClassTemplates.Proofs.Body.Failures
import ClassTemplates.Proofs.Class.Finishing
import ClassTemplates.Proofs.Depth.Edits

/-!
# Laying out new bodies

A new body is laid out without the attributes that are not relocated. Without them it is an edit of
the code without them, so its layout fails for want of room only, and its code can be taken apart.

## Main definitions

- `ExpansionError.forRoom` — the failures for want of room

## Main results

- `Body.EditOf.withoutCarried` — an edit without carried attributes
- `Expansion.layOut_failsWith` — why an edit with depths cannot be laid out
- `Expansion.exists_renames_of_layOut` — the body of the code that is laid out
-/

namespace ClassTemplates

/-- The constants do not fit the pool, the code is too long, or a branch does not reach. -/
def ExpansionError.forRoom : ExpansionError → Prop
  | .pool .outOfSpace => True
  | .layout fault => fault.forRoom
  | _ => False

/-! ### Carried attributes -/

/-- The attribute is not relocated. -/
def Attribute.isCarried (a : Attribute) : Bool :=
  (Body.carried? (Body.attributeOfCode a)).isSome

/-- The code without the attributes that are not relocated. -/
def Code.withoutCarried (c : Code) : Code :=
  { c with attributes := c.attributes.filter fun a => !a.isCarried }

theorem Attribute.references_eq_nil {a : Attribute} (h : a.isCarried = true) :
    Code.attributeReferences a = [] := by
  obtain ⟨name, content⟩ := a
  cases content <;> first | rfl | cases h

theorem Code.references_withoutCarried {c : Code} {decoded : List (Nat × Insn)} :
    c.withoutCarried.references decoded = c.references decoded := by
  have hflat (as : List Attribute) :
      (as.filter fun a => !a.isCarried).flatMap attributeReferences =
        as.flatMap attributeReferences := by
    induction as with
    | nil => rfl
    | cons a as ih =>
      rw [List.filter_cons, List.flatMap_cons]
      cases h : a.isCarried with
      | true => simp [ih, Attribute.references_eq_nil h]
      | false => simp [ih]
  rw [references, references, withoutCarried, hflat]

/-- Without carried attributes, an edit is one of the code without them. -/
theorem Body.EditOf.withoutCarried {c : Code} {decoded : List (Nat × Insn)} {pre : List Insn}
    {xs : List Splice} {b : Body} (h : b.EditOf c decoded pre xs) :
    b.withoutCarried.EditOf c.withoutCarried decoded pre xs where
  reads := h.reads
  places := by
    rw [Code.references_withoutCarried]
    exact h.places
  before := by
    rw [h.before, decodedAs, decodedAs, Code.references_withoutCarried]
    rfl
  loads := h.loads
  insns := h.insns
  handlers := h.handlers
  attributes := by
    have hfilter : (c.attributes.map attributeOfCode).filter (fun a => (carried? a).isNone) =
        (c.attributes.filter fun a => !a.isCarried).map attributeOfCode := by
      rw [List.filter_map]
      congr 1
      refine List.filter_congr fun a _ => ?_
      simp [Attribute.isCarried]
    rw [← h.attributes] at hfilter
    exact hfilter
  maxLocals := h.maxLocals
  maxStack := h.maxStack

namespace Expansion

variable {className signature : String} {p q : Pool} {b : Body} {c c' : Code} {limit : UInt16}
  {decoded : List (Nat × Insn)} {pre : List Insn} {xs : List Splice}
  {reached : Nat → UInt16 → Prop}

theorem layOut_eq_ok :
    layOut className signature p b = .ok c ↔ ∃ summary, b.analyze p = .ok summary ∧
      b.withoutCarried.toCode (max b.maxStack summary.maxDepth) = .ok c := by
  have hanalyze : b.withoutCarried.analyze p = b.analyze p := rfl
  unfold layOut
  simp only [bind_eq_ok, mapError_eq_ok, hanalyze]
  rfl

/-- The declared depth takes no part in the layout. -/
theorem toCode_eq_map {maxStack : UInt16} :
    b.toCode maxStack = (b.toCode 0).map fun c => { c with maxStack := maxStack } := by
  rw [Layout.toCode_eq, Layout.toCode_eq]
  split
  · rfl
  · simp only [bind, Except.bind, pure, Except.pure]
    split
    · rfl
    · split
      · rfl
      · split <;> rfl

/-- A body that has depths and a byte form is laid out in these bytes. -/
theorem exists_layOut_eq (hflows : b.Flows p limit reached)
    (hc : b.withoutCarried.toCode 0 = .ok c) :
    ∃ n, layOut className signature p b = .ok { c with maxStack := n } := by
  obtain ⟨summary, hsummary, -⟩ := Body.analyze_eq_ok.2 ⟨reached, hflows⟩
  refine ⟨max b.maxStack summary.maxDepth, layOut_eq_ok.2 ⟨summary, hsummary, ?_⟩⟩
  rw [toCode_eq_map, hc]
  rfl

/-- An edit that has depths cannot be laid out for want of room only. -/
theorem layOut_failsWith (h : b.EditOf c decoded pre xs) (hpre : ∀ i ∈ pre, i.assigning)
    (hflows : b.Flows p limit reached) :
    FailsWith ExpansionError.forRoom (layOut className signature p b) := by
  obtain ⟨summary, hsummary, -⟩ := Body.analyze_eq_ok.2 ⟨reached, hflows⟩
  have hanalyze : b.withoutCarried.analyze p = .ok summary := hsummary
  unfold layOut
  simp only [hanalyze]
  refine failsWith_ok.bind fun s _ => ?_
  refine (h.withoutCarried.toCode_failsWith fun i hi => ?_).mapError fun fault hfault => hfault
  exact (Insn.wellShaped_of_assigning (hpre i hi)).2.1

/-- The code of an edit that is laid out is deep enough, and gives the edit with other labels. -/
theorem exists_renames_of_layOut (h : b.EditOf c decoded pre xs)
    (hpre : ∀ i ∈ pre, i.assigning) (hc : layOut className signature p b = .ok c') :
    ∃ b' f, Body.ofCode c' = .ok b' ∧ b.Renames f b' ∧
      ∃ reached, b.Flows p c'.maxStack reached := by
  obtain ⟨summary, hsummary, hcode⟩ := layOut_eq_ok.1 hc
  obtain ⟨b', f, hb', hf⟩ := h.withoutCarried.renames hpre hcode
  refine ⟨b', f, hb', ⟨hf.injective, hf.insns, hf.handlers⟩, Body.analyze_eq_ok.1
    ⟨summary, hsummary, ?_⟩⟩
  rw [(h.withoutCarried.relocates hcode).1]
  exact (Depth.max_le.1 (UInt16.le_refl _)).2

end Expansion

end ClassTemplates
