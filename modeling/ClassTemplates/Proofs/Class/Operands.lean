import ClassTemplates.Proofs.Class.Approval
import ClassTemplates.Proofs.Depth.Reaching

/-!
# The constants that instructions name

The checks look at the constant that an instruction names as far as the effect of the instruction
depends on it. So a constant that is loaded is there, a field or method is some member whose
descriptor gives the slots, and a call site is one. Nothing more is asked for: with any constants
that have the same effect in the places of those it names, a method passes the checks as well. The
effect of a load of two slots, of an allocation, a cast or a type test depends on no constant, so
there any index will do.

## Main definitions

- `Insn.Grounded` — what is asked of the constant that an instruction names
- `Insn.withConstant` — the instruction with another constant
- `Insn.Interchangeable`, `Body.Interchangeable` — other constants with the same effect

## Main results

- `Insn.exists_ofInsn?_iff` — an instruction has an effect exactly if it is grounded
- `Body.Interchangeable.flows` — depths stay the same with other constants
- `ClassFile.operands_of_verify` — the constants that the instructions of a class name
-/

namespace ClassTemplates

/-! ### Instructions -/

namespace Insn

/-- What the effect of an instruction depends on is in the pool: a constant to load, a member or a
call site whose descriptor gives the slots. -/
def Grounded (p : Pool) : Insn → Prop
  | ldc i => ∃ c, p.get? i = some c ∧ c ≠ .secondSlot
  | field _ i => ∃ m size, p.member? i = some m ∧ Descriptor.fieldSlots m.descriptor = some size
  | invoke _ i | invokeInterface i _ =>
    ∃ m slots, p.member? i = some m ∧ Descriptor.methodSlots m.descriptor = some slots
  | invokeDynamic i => ∃ bootstrap j name descriptor slots,
      p.get? i = some (.invokeDynamic bootstrap j) ∧
        p.nameAndType? j = some (name, descriptor) ∧
          Descriptor.methodSlots descriptor = some slots
  | _ => True

/-- The instruction with another constant in the place of the one it names. -/
def withConstant (index : UInt16) : Insn → Insn
  | ldc _ => ldc index
  | ldc2 _ => ldc2 index
  | field opcode _ => field opcode index
  | invoke opcode _ => invoke opcode index
  | invokeInterface _ count => invokeInterface index count
  | invokeDynamic _ => invokeDynamic index
  | type opcode _ => type opcode index
  | multiNewArray _ dimensions => multiNewArray index dimensions
  | insn => insn

/-- The effect of the instruction does not depend on the constant it names. -/
def isBlind : Insn → Bool
  | ldc2 _ | type _ _ | multiNewArray _ _ => true
  | _ => false

/-- The second instruction is the first one with some constant that gives it the same effect. -/
def Interchangeable (p : Pool) (insn insn' : Insn) : Prop :=
  (∃ index, insn' = insn.withConstant index) ∧ Effect.ofInsn? p insn' = Effect.ofInsn? p insn

variable {p : Pool} {insn insn' : Insn}

theorem exists_methodSlots?_iff {i : UInt16} : (∃ slots, Effect.methodSlots? p i = some slots) ↔
    ∃ m slots, p.member? i = some m ∧ Descriptor.methodSlots m.descriptor = some slots := by
  simp only [Effect.methodSlots?, Option.bind_eq_bind, Option.bind_eq_some_iff]
  exact ⟨fun ⟨slots, m, hm⟩ => ⟨m, slots, hm⟩, fun ⟨m, slots, hm⟩ => ⟨slots, m, hm⟩⟩

/-- The effect of an instruction is known exactly if what it depends on is in the pool. -/
theorem exists_ofInsn?_iff : (∃ e, Effect.ofInsn? p insn = some e) ↔ insn.Grounded p := by
  cases insn with
  | ldc i =>
    show (∃ e, Effect.ofConstant? p i = some e) ↔ ∃ c, p.get? i = some c ∧ c ≠ .secondSlot
    unfold Effect.ofConstant?
    cases p.get? i with
    | none => simp
    | some c => cases c <;> simp
  | field opcode i =>
    simp only [Effect.ofInsn?, Grounded, Option.bind_eq_bind, Option.bind_eq_some_iff]
    constructor
    · rintro ⟨e, m, hm, size, hsize, -⟩
      exact ⟨m, size, hm, hsize⟩
    · rintro ⟨m, size, hm, hsize⟩
      exact ⟨_, m, hm, size, hsize, rfl⟩
  | invoke opcode i | invokeInterface i count =>
    simp only [Effect.ofInsn?, Grounded, Option.bind_eq_bind, Option.bind_eq_some_iff,
      ← exists_methodSlots?_iff]
    constructor
    · rintro ⟨e, slots, hslots, -⟩
      exact ⟨slots, hslots⟩
    · rintro ⟨slots, hslots⟩
      exact ⟨_, slots, hslots, rfl⟩
  | invokeDynamic i =>
    simp only [Effect.ofInsn?, Grounded, Option.bind_eq_bind, Option.bind_eq_some_iff]
    constructor
    · rintro ⟨e, slots, hslots, -⟩
      unfold Effect.callSiteSlots? at hslots
      split at hslots
      · rename_i bootstrap j hc
        obtain ⟨⟨name, descriptor⟩, hx, hslots⟩ := Option.bind_eq_some_iff.1 hslots
        exact ⟨bootstrap, j, name, descriptor, slots, hc, hx, hslots⟩
      · cases hslots
    · rintro ⟨bootstrap, j, name, descriptor, slots, hc, hx, hslots⟩
      refine ⟨_, slots, ?_, rfl⟩
      rw [Effect.callSiteSlots?, hc]
      exact Option.bind_eq_some_iff.2 ⟨_, hx, hslots⟩
  | _ => exact ⟨fun _ => trivial, fun _ => ⟨_, rfl⟩⟩

/-- Where the effect does not depend on it, any constant will do. -/
theorem interchangeable_of_isBlind (h : insn.isBlind = true) (index : UInt16) :
    insn.Interchangeable p (insn.withConstant index) := by
  refine ⟨⟨index, rfl⟩, ?_⟩
  cases insn <;> first | rfl | cases h

theorem Interchangeable.refl (insn : Insn) : insn.Interchangeable p insn :=
  ⟨⟨insn.constantIndex, by cases insn <;> rfl⟩, rfl⟩

theorem Interchangeable.placed?_eq (h : insn.Interchangeable p insn') :
    insn'.placed? = insn.placed? := by
  obtain ⟨⟨index, rfl⟩, -⟩ := h
  cases insn <;> rfl

theorem Interchangeable.returns?_eq (h : insn.Interchangeable p insn') :
    insn'.returns? = insn.returns? := by
  obtain ⟨⟨index, rfl⟩, -⟩ := h
  cases insn <;> rfl

/-- Control goes on as before, as long as the instruction has an effect. -/
theorem Interchangeable.step (h : insn.Interchangeable p insn')
    {placements : Std.HashMap Label Nat} {i : Nat} {d : UInt16}
    {out : UInt16 × List Depth.Arrival} (hstep : Depth.step p placements insn i d = .ok out) :
    Depth.step p placements insn' i d = .ok out := by
  obtain ⟨⟨index, rfl⟩, heffect⟩ := h
  have hsucc (after : UInt16) : Depth.successors placements (insn.withConstant index) i d after =
      Depth.successors placements insn i d after := by
    cases insn <;> rfl
  obtain ⟨e, he, hpops, hdeeper, hnext⟩ := Depth.step_eq_ok.1 hstep
  exact Depth.step_eq_ok.2 ⟨e, heffect.trans he, hpops, hdeeper, (hsucc _).trans hnext⟩

end Insn

/-! ### Bodies -/

namespace Body

/-- The second body is the first one with constants that give its instructions the same effects.
What handlers catch does not matter. -/
structure Interchangeable (p : Pool) (b b' : Body) : Prop where
  insns : List.Forall₂ (Insn.Interchangeable p) b.insns b'.insns
  handlers : b'.handlers.map (·.target) = b.handlers.map (·.target)

variable {p : Pool} {b b' : Body} {limit : UInt16} {reached : Nat → UInt16 → Prop}

theorem lastPlace?_of_interchangeable {insns insns' : List Insn}
    (h : List.Forall₂ (Insn.Interchangeable p) insns insns') (l : Label) :
    lastPlace? insns' l = lastPlace? insns l := by
  induction h with
  | nil => rfl
  | cons hx _ ih => rw [lastPlace?, lastPlace?, ih, hx.placed?_eq]

theorem placementsOnto_of_interchangeable {insns insns' : List Insn}
    (h : List.Forall₂ (Insn.Interchangeable p) insns insns') (found : Std.HashMap Label Nat)
    (i : Nat) : placementsOnto found i insns' = placementsOnto found i insns := by
  induction h generalizing found i with
  | nil => rfl
  | cons hx _ ih => rw [placementsOnto, placementsOnto, ih, hx.placed?_eq]

/-- Depths of a body are depths of the same body with other constants. -/
theorem Interchangeable.flows (h : b.Interchangeable p b') (hflows : b.Flows p limit reached) :
    b'.Flows p limit reached := by
  have hplacements : b'.placements = b.placements := placementsOnto_of_interchangeable h.insns _ _
  refine ⟨⟨hflows.respects.unique, fun i d hd => ?_⟩, hflows.entry, fun g' hg' => ?_⟩
  · obtain ⟨insn, deeper, next, hi, hstep, hle, hnext⟩ := hflows.respects.step i d hd
    rw [List.getElem?_toArray] at hi
    obtain ⟨insn', hi', hx⟩ : ∃ insn', b'.insns[i]? = some insn' ∧
        insn.Interchangeable p insn' := by
      obtain ⟨hlt, rfl⟩ := List.getElem?_eq_some_iff.1 hi
      have hlt' : i < b'.insns.length := h.insns.length_eq ▸ hlt
      exact ⟨_, List.getElem?_eq_getElem hlt', h.insns.get hlt hlt'⟩
    refine ⟨insn', deeper, next, ?_, ?_, hle, hnext⟩
    · rw [List.getElem?_toArray, hi']
    · rw [hplacements]
      exact hx.step hstep
  · obtain ⟨g, hg, htarget⟩ := List.mem_map.1 (h.handlers ▸ List.mem_map_of_mem hg')
    rw [lastPlace?_of_interchangeable h.insns, ← htarget]
    exact hflows.handlers g hg

theorem filterMap_returns?_of_interchangeable {insns insns' : List Insn}
    (h : List.Forall₂ (Insn.Interchangeable p) insns insns') :
    insns'.filterMap Insn.returns? = insns.filterMap Insn.returns? := by
  induction h with
  | nil => rfl
  | cons hx _ ih => rw [List.filterMap_cons, List.filterMap_cons, hx.returns?_eq, ih]

end Body

/-! ### Classes -/

namespace ClassFile

open Expansion (firstCode?_replaceCode)

variable {cls : ClassFile} {m : Member} {c c' : Code} {d : String} {k : Nat}

/-- Code with other constants that have the same effects passes the same checks. -/
theorem checkCode_of_interchangeable {b b' : Body} (h : cls.checkCode d c = .ok ())
    (hb : Body.ofCode c = .ok b) (hb' : Body.ofCode c' = .ok b')
    (hmax : c'.maxStack = c.maxStack) (hx : b.Interchangeable cls.pool b') :
    cls.checkCode d c' = .ok () := by
  obtain ⟨b₀, hb₀, hreturns, reached, hflows⟩ := checkCode_eq_ok.1 h
  cases hb.symm.trans hb₀
  refine checkCode_eq_ok.2 ⟨b', hb', ?_, reached, ?_⟩
  · rwa [checkReturns_congr (Body.filterMap_returns?_of_interchangeable hx.insns)]
  · rw [hmax]
    exact hx.flows hflows

/-- A class has as many type initializers when a method has other code. -/
theorem countP_isInitializer_set {methods : List Member} {p : Pool} (hk : methods[k]? = some m) :
    (methods.set k (m.withCode c')).countP p.isInitializer = methods.countP p.isInitializer := by
  obtain ⟨hlt, rfl⟩ := List.getElem?_eq_some_iff.1 hk
  have hsame : p.isInitializer (methods[k].withCode c') = p.isInitializer methods[k] := rfl
  rw [List.countP_set hlt, hsame]
  by_cases hinit : p.isInitializer methods[k] = true
  · have hpos := List.countP_pos_iff.2 ⟨_, List.getElem_mem hlt, hinit⟩
    rw [if_pos hinit, Nat.sub_add_cancel hpos]
  · rw [if_neg hinit, Nat.sub_zero, Nat.add_zero]

/-- A method of a class that passes the checks passes with other code that does. -/
theorem checkMethod_withCode (h : cls.verify = .ok ()) (hm : m ∈ cls.methods)
    (hc : m.code? = some c)
    (hcode : ∀ d, cls.checkCode d c = .ok () → cls.checkCode d c' = .ok ()) :
    cls.checkMethod (m.withCode c') = .ok () := by
  obtain ⟨hname, -⟩ := checkMethod_eq_ok.1 ((verify_eq_ok.1 h).2 m hm)
  obtain ⟨hbodied, hsingle, d, hd, hcheck⟩ := checkCode_of_verify h hm hc
  have hreplaced : (m.withCode c').attributes.filterMap Attribute.code? = [c'] :=
    (firstCode?_replaceCode hc).2 (by rw [hsingle]; exact Nat.le_refl 1)
  exact checkMethod_eq_ok.2 ⟨hname, d, hd, .inr ⟨hbodied, c', hreplaced, hcode d hcheck⟩⟩

/-- In a class that passes the checks, every instruction that is reached is grounded: what it loads,
accesses or calls is in the pool. The checks ask for nothing more: with any constants that give its
instructions the same effects in the places of those that they name, a method passes as well. -/
theorem operands_of_verify (h : cls.verify = .ok ()) (hk : cls.methods[k]? = some m)
    (hc : m.code? = some c) :
    ∃ b, Body.ofCode c = .ok b ∧
      (∀ i insn, b.Reaches i → b.insns[i]? = some insn → insn.Grounded cls.pool) ∧
      ∀ c' b', Body.ofCode c' = .ok b' → c'.maxStack = c.maxStack →
        b.Interchangeable cls.pool b' →
        ({ cls with methods := cls.methods.set k (m.withCode c') } : ClassFile).verify =
          .ok () := by
  obtain ⟨houtline, hmethods⟩ := verify_eq_ok.1 h
  have hm := List.mem_of_getElem? hk
  obtain ⟨-, -, d, -, hcheck⟩ := checkCode_of_verify h hm hc
  obtain ⟨b, hb, -, reached, hflows⟩ := checkCode_eq_ok.1 hcheck
  refine ⟨b, hb, fun i insn hreach hi => ?_, fun c' b' hb' hmax hx => ?_⟩
  · exact Insn.exists_ofInsn?_iff.1 (hflows.exists_ofInsn? hreach hi)
  · obtain ⟨hpool, hthis, hsuper, hcount⟩ := verifyOutline_eq_ok.1 houtline
    refine verify_eq_ok.2 ⟨verifyOutline_eq_ok.2 ⟨hpool, hthis, hsuper, ?_⟩, fun m' hm' => ?_⟩
    · exact (countP_isInitializer_set hk).trans_le hcount
    · rcases List.mem_or_eq_of_mem_set hm' with hm' | rfl
      · exact hmethods m' hm'
      · show cls.checkMethod (m.withCode c') = .ok ()
        exact checkMethod_withCode h hm hc fun d hd =>
          checkCode_of_interchangeable hd hb hb' hmax hx

/-! ### A class that loads a long constant -/

/-- Code that loads a constant of two slots, drops it and returns. -/
def wideCode (index : UInt16) : Code :=
  ⟨2, 0, Opcode.ldc2Wide :: BigEndian.word16 index ++ [0x58, Opcode.voidReturn], [], []⟩

/-- The instructions of the code. -/
abbrev wideInsns (index : UInt16) : List (Nat × Insn) :=
  [(0, .ldc2 index), (3, .op 0x58), (4, .op Opcode.voidReturn)]

/-- A class with a long constant as entry 8, and with that code in its one method. -/
def wideClass (index : UInt16) : ClassFile :=
  { ClassFile.empty with
    pool := ⟨#[.utf8 "A", .class 1, .utf8 "java/lang/Object", .class 3, .utf8 "Code", .utf8 "m",
      .utf8 "()V", .long 0, .secondSlot]⟩
    thisClass := 2
    superClass := 4
    methods := [⟨Access.isStatic, 6, 7, [⟨5, .code (wideCode index)⟩]⟩] }

theorem ofCode_wideCode (index : UInt16)
    (h : Insn.decode (wideCode index).bytes = .ok (wideInsns index)) :
    Body.ofCode (wideCode index) = .ok (Body.decodedAs (wideCode index) (wideInsns index)) :=
  Body.ofCode_eq_ok.2 ⟨_, Insn.decode_eq_ok.1 h, fun _ ho => (List.not_mem_nil ho).elim, rfl⟩

theorem operands_of_verify_wide :
    (wideClass 8).verify = .ok () ∧ (wideClass 99).verify = .ok () ∧
      (wideClass 99).pool.get? 99 = none := by
  have hbody := ofCode_wideCode 8 (by decide +kernel)
  have hbody' := ofCode_wideCode 99 (by decide +kernel)
  have hflows : (Body.decodedAs (wideCode 8) (wideInsns 8)).Flows (wideClass 8).pool 2
      fun i d => i < 3 ∧ d = if i = 1 then 2 else 0 := by
    refine ⟨⟨?_, ?_⟩, ⟨by decide, rfl⟩, fun h hh => (List.not_mem_nil hh).elim⟩
    · rintro i d d' ⟨-, rfl⟩ ⟨-, rfl⟩
      rfl
    · rintro i d ⟨hi, rfl⟩
      match i, hi with
      | 0, _ => exact ⟨.ldc2 8, 2, [⟨1, 2⟩], rfl, rfl, UInt16.le_refl _, by simp⟩
      | 1, _ => exact ⟨.op 0x58, 2, [⟨2, 0⟩], rfl, rfl, UInt16.le_refl _, by simp⟩
      | 2, _ => exact ⟨.op Opcode.voidReturn, 0, [], rfl, rfl, by decide, by simp⟩
  have hcheck : (wideClass 8).checkMethod
      ⟨Access.isStatic, 6, 7, [⟨5, .code (wideCode 8)⟩]⟩ = .ok () :=
    checkMethod_eq_ok.2 ⟨⟨"m", rfl⟩, "()V", rfl, .inr ⟨by decide, wideCode 8, rfl,
      checkCode_eq_ok.2 ⟨_, hbody, by decide +kernel, _, hflows⟩⟩⟩
  have hverify : (wideClass 8).verify = .ok () :=
    verify_eq_ok.2 ⟨by decide +kernel, List.forall_mem_singleton.2 hcheck⟩
  obtain ⟨b, hb, -, hother⟩ := operands_of_verify (k := 0) hverify rfl rfl
  cases hbody.symm.trans hb
  refine ⟨hverify, hother (wideCode 99) _ hbody' rfl ⟨.cons ?_ (.cons ?_ (.cons ?_ .nil)), rfl⟩,
    rfl⟩
  · exact Insn.interchangeable_of_isBlind rfl 99
  · exact .refl _
  · exact .refl _

end ClassFile

end ClassTemplates
