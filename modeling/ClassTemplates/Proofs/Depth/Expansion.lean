import ClassTemplates.Proofs.Depth.Steps
import ClassTemplates.Proofs.Expansion.Initializer

/-!
# How deep expansions go

The code of an expansion runs straight through and leaves one value on the stack, four slots above
what was there at most. An assignment leaves the stack as it was. Where there is a bound token, all
four slots are taken: by the builder and by what the lookup method is called with.

## Main results

- `Builds.straight`, `Assigns.straight` — how deep the code goes
- `Builds.exists_deepest`, `Assigns.exists_deepest` — where it is as deep as that
-/

namespace ClassTemplates

open Depth (Straight)

variable {catalog : Catalog} {lookup : LookupMethod} {owner text : String} {p : Pool}
  {limit d : UInt16} {code rest : List Insn} {n : Nat}

/-! ### Effects -/

theorem Effect.ofInsn?_ldc {i : UInt16} (h : p.stringValue? i = some text) :
    Effect.ofInsn? p (.ldc i) = some ⟨0, 1⟩ := by
  obtain ⟨j, hc, -⟩ := Pool.stringValue?_eq_some.1 h
  rw [Effect.ofInsn?, Effect.ofConstant?, hc]

theorem Effect.ofInsn?_invoke {opcode : UInt8} {i arguments result : UInt16} {m : MemberRef}
    (hm : p.member? i = some m)
    (hslots : Descriptor.methodSlots m.descriptor = some (arguments, result)) :
    Effect.ofInsn? p (.invoke opcode i) =
      some ⟨if opcode = Opcode.invokestatic then arguments else arguments + 1, result⟩ := by
  simp [Effect.ofInsn?, Effect.methodSlots?, hm, hslots]

/-- A call of a member in front of straight code. -/
theorem Depth.Straight.cons_invoke {opcode : UInt8} {i arguments result : UInt16} {m : MemberRef}
    {a b : Nat} (hm : p.member? i = some m)
    (hslots : Descriptor.methodSlots m.descriptor = some (arguments, result))
    (ha : (if opcode = Opcode.invokestatic then arguments else arguments + 1).toNat = a)
    (hb : result.toNat = b) (hna : n + a ≤ limit.toNat) (hnb : n + b ≤ limit.toNat)
    (h : Straight p limit (.ofNat (n + b)) rest d) :
    Straight p limit (.ofNat (n + a)) (.invoke opcode i :: rest) d :=
  .cons_ofNat (Effect.ofInsn?_invoke hm hslots) ha hb (fun _ _ _ _ => rfl) hna hnb h

/-- A load of a text in front of straight code. -/
theorem Loads.straight_cons {x : Insn} (hx : Loads p text x) (hn : n + 1 ≤ limit.toNat)
    (h : Straight p limit (.ofNat (n + 1)) rest d) : Straight p limit (.ofNat n) (x :: rest) d := by
  obtain ⟨i, rfl, ht⟩ := hx
  exact .cons_ofNat (a := 0) (Effect.ofInsn?_ldc ht) rfl rfl (fun _ _ _ _ => rfl)
    (Nat.le_of_succ_le hn) hn h

theorem Depth.Straight.nil_ofNat (h : n ≤ limit.toNat) :
    Straight p limit (.ofNat n) [] (.ofNat n) := by
  refine .nil ?_
  have hn : n ≤ 65535 := Nat.le_trans h (Nat.le_of_lt_succ limit.toNat_lt)
  rwa [UInt16.le_iff_toNat_le, UInt16.toNat_ofNat_of_lt' (Nat.lt_succ_of_le hn)]

/-! ### Expansions -/

theorem slots_lookup : Descriptor.methodSlots LookupMethod.descriptor = some (3, 1) := by
  decide +kernel

theorem slots_append :
    Descriptor.methodSlots "(Ljava/lang/String;)Ljava/lang/StringBuilder;" = some (1, 1) := by
  decide +kernel

theorem slots_toText : Descriptor.methodSlots "()Ljava/lang/String;" = some (0, 1) := by
  decide +kernel

theorem slots_init : Descriptor.methodSlots "()V" = some (0, 0) := by
  decide +kernel

theorem Pushes.straight {m : BuilderMembers} {s : Segment} (hm : m.Resolves lookup p)
    (h : Pushes m p s code) (hn : n + 3 ≤ limit.toNat) :
    Straight p limit (.ofNat n) code (.ofNat (n + 1)) := by
  cases h with
  | literal hx | unbound hx => exact hx.straight_cons (by omega) (.nil_ofNat (by omega))
  | bound hx hy hz =>
    refine hx.straight_cons (by omega) (hy.straight_cons (by omega) (hz.straight_cons hn ?_))
    exact .cons_invoke (a := 3) (b := 1) hm.lookup slots_lookup rfl rfl hn (by omega)
      (.nil_ofNat (by omega))

theorem Appends.straight {m : BuilderMembers} {ss : List Segment} (hm : m.Resolves lookup p)
    (h : Appends m p ss code) (hn : n + 4 ≤ limit.toNat) :
    Straight p limit (.ofNat (n + 1)) code (.ofNat (n + 1)) := by
  induction h with
  | nil => exact .nil_ofNat (by omega)
  | cons hs _ ih =>
    refine (hs.straight hm (by omega)).append ?_
    exact .cons_invoke (a := 2) (b := 1) hm.append slots_append rfl rfl (by omega) (by omega) ih

/-- An expansion starts with the builder, which is there twice for its constructor. -/
theorem Expander.straight_start {m : BuilderMembers} (hm : m.Resolves lookup p)
    (hn : n + 2 ≤ limit.toNat) :
    Straight p limit (.ofNat n) (start m).toList (.ofNat (n + 1)) := by
  refine .cons_ofNat (a := 0) (b := 1) rfl rfl rfl (fun _ _ _ _ => rfl) (by omega) (by omega) ?_
  refine .cons_ofNat (a := 1) (b := 2) rfl rfl rfl (fun _ _ _ _ => rfl) (by omega) (by omega) ?_
  exact .cons_invoke (n := n + 1) (a := 1) (b := 0) hm.init slots_init rfl rfl (by omega)
    (by omega) (.nil_ofNat (by omega))

/-- The code of an expansion leaves one value on the stack, and goes no deeper than four slots. -/
theorem Builds.straight {ss : List Segment} (h : Builds lookup p ss code)
    (hn : n + 4 ≤ limit.toNat) : Straight p limit (.ofNat n) code (.ofNat (n + 1)) := by
  obtain ⟨m, middle, hm, ha, rfl⟩ := h
  refine ((Expander.straight_start hm (by omega)).append (ha.straight hm hn)).append ?_
  exact .cons_invoke (a := 1) (b := 1) hm.toText slots_toText rfl rfl (by omega) (by omega)
    (.nil_ofNat (by omega))

/-- In front of the first call of the lookup method the builder and three texts are on the stack. -/
theorem Builds.exists_deepest {ss : List Segment} (h : Builds lookup p ss code)
    (hs : ss.any Segment.isBound = true) (hn : n + 4 ≤ limit.toNat) :
    ∃ i < code.length, Straight p limit (.ofNat n) (code.take i) (.ofNat (n + 4)) := by
  obtain ⟨m, middle, hm, ha, rfl⟩ := h
  obtain ⟨ss₁, xs₁, ys, b, x, y, z, rfl, happ, hx, hy, hz⟩ := ha.exists_bound hs
  have htexts : Straight p limit (.ofNat (n + 1)) [x, y, z] (.ofNat (n + 4)) :=
    hx.straight_cons (by omega) (hy.straight_cons (by omega)
      (hz.straight_cons hn (.nil_ofNat hn)))
  have hfront : Straight p limit (.ofNat n) ((Expander.start m).toList ++ xs₁ ++ [x, y, z])
      (.ofNat (n + 4)) :=
    ((Expander.straight_start hm (by omega)).append (happ.straight hm hn)).append htexts
  generalize hsplit : (Expander.start m).toList ++ xs₁ ++ [x, y, z] = front at hfront
  have hcode : (Expander.start m).toList ++ (xs₁ ++ [x, y, z] ++ ys) ++
      [.invoke Opcode.invokevirtual m.toText] =
        front ++ (ys ++ [.invoke Opcode.invokevirtual m.toText]) := by
    simp only [← hsplit, List.append_assoc]
  refine ⟨front.length, ?_, ?_⟩
  · rw [hcode, List.length_append]
    exact Nat.lt_add_of_pos_right (by simp)
  · rwa [hcode, List.take_left]

theorem Gives.straight (h : Gives catalog lookup p text code) (hn : n + 4 ≤ limit.toNat) :
    Straight p limit (.ofNat n) code (.ofNat (n + 1)) := by
  rcases h with h | ⟨-, x, rfl, hx⟩
  · exact h.straight hn
  · exact hx.straight_cons (by omega) (.nil_ofNat (by omega))

theorem Effect.ofInsn?_assignment {i : UInt16} {name : String}
    (hm : p.member? i = some ⟨owner, name, Initializer.stringDescriptor⟩) :
    Effect.ofInsn? p (.field Opcode.putstatic i) = some ⟨1, 0⟩ := by
  have hslots : Descriptor.fieldSlots Initializer.stringDescriptor = some 1 := by decide +kernel
  simp only [Effect.ofInsn?, hm, hslots, Option.bind_eq_bind, Option.bind_some]
  rfl

/-- Assignments leave the stack as it was. -/
theorem Assigns.straight {cs : List DeferredConstant} (h : Assigns catalog lookup owner p cs code)
    (hn : n + 4 ≤ limit.toNat) : Straight p limit (.ofNat n) code (.ofNat n) := by
  induction h with
  | nil => exact .nil_ofNat (by omega)
  | cons hg hi _ ih =>
    refine (hg.straight hn).append ?_
    exact .cons_ofNat (b := 0) (Effect.ofInsn?_assignment hi) rfl rfl (fun _ _ _ _ => rfl)
      (by omega) (by omega) ih

/-- The first of the assignments of texts with bound tokens takes four slots. -/
theorem Assigns.exists_deepest {cs : List DeferredConstant}
    (h : Assigns catalog lookup owner p cs code)
    (hb : ∀ c ∈ cs, catalog.bindsAny c.text = true) (hcode : code ≠ [])
    (hn : n + 4 ≤ limit.toNat) :
    ∃ i < code.length, Straight p limit (.ofNat n) (code.take i) (.ofNat (n + 4)) := by
  cases h with
  | nil => exact absurd rfl hcode
  | @cons c rest xs ys j hg _ _ =>
    have hbound := hb c List.mem_cons_self
    rcases hg with hbuilds | ⟨hnot, -⟩
    · obtain ⟨i, hi, hdeep⟩ := hbuilds.exists_deepest hbound hn
      refine ⟨i, ?_, ?_⟩
      · rw [List.length_append]
        exact Nat.lt_add_right _ hi
      · rwa [List.take_append_of_le_length (Nat.le_of_lt hi)]
    · rw [hnot] at hbound
      cases hbound

end ClassTemplates
