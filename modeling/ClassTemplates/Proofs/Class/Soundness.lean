import ClassTemplates.Proofs.Body.Decoded
import ClassTemplates.Proofs.Class.WellFormed
import ClassTemplates.Proofs.Depth.Exact

/-!
# What the checks say about running code

A path through a method is counted here as a machine would, with depths that have no largest value.
Along every path of a method that was checked, each instruction finds what it takes off the stack,
control stays inside the code, and returns are those of the result type. The analysis counts in
words and stays at the largest one, so it keeps the stack to the declared depth only if that is
smaller.

## Main definitions

- `Body.Starts`, `Body.Moves` — the steps of paths, with depths that have no bound
- `Body.SoundAt` — what holds of an instruction on a path
- `ClassFile.pushClass` — a class whose one method pushes long constants

## Main results

- `Body.Levels.of_path`, `eq_of_path` — the depths on a path and those of the analysis
- `ClassFile.verify_sound` — the paths through a class that was checked
- `ClassFile.exists_path_above` — a path that is deeper than declared
-/

namespace ClassTemplates

open Relation (ReflTransGen)

/-! ### Paths -/

namespace Body

/-- Paths start at the entry with an empty stack, and at the handlers with what was thrown. -/
inductive Starts (b : Body) : Nat × Int → Prop
  | entry : Starts b (0, 0)
  | handler {h : Handler Label} {i : Nat} : h ∈ b.handlers →
      lastPlace? b.insns h.target = some i → Starts b (i, 1)

/-- One step of a path: along an edge, with the effect of the instruction. Behind a subroutine the
depth is that in front of the call. -/
inductive Moves (b : Body) (pool : Pool) : Nat × Int → Nat × Int → Prop
  | edge {i j : Nat} {kept : Bool} {e : Effect} {d : Int} : b.effect? pool i = some e →
      b.Edge i j kept →
      Moves b pool (i, d) (j, if kept then d else d - e.pops.toNat + e.pushes.toNat)

/-- What holds of an instruction on a path: there is one, it finds what it takes, it returns by
`returns` only, and the stack is not deeper than `maxStack` around it unless that is the largest
word. -/
structure SoundAt (b : Body) (pool : Pool) (maxStack : UInt16) (returns : UInt8) (c : Nat × Int) :
    Prop where
  inside : c.1 < b.insns.length
  enough : ∃ e, b.effect? pool c.1 = some e ∧ (e.pops.toNat : Int) ≤ c.2 ∧
    (maxStack < 65535 →
      c.2 ≤ maxStack.toNat ∧ c.2 - e.pops.toNat + e.pushes.toNat ≤ maxStack.toNat)
  returns_eq : ∀ insn opcode, b.insns[c.1]? = some insn → insn.returns? = some opcode →
    opcode = returns

variable {b : Body} {pool : Pool} {depth : Nat → UInt16} {s c : Nat × Int}

/-- The depth behind an instruction that finds what it takes is as counted, or the largest word. -/
theorem toNat_after {e : Effect} {d : UInt16} :
    (e.after d).toNat = min 65535 (d.toNat - e.pops.toNat + e.pushes.toNat) := by
  rw [Effect.after]
  exact UInt16.toNat_ofNat_of_lt' (Nat.lt_of_le_of_lt (Nat.min_le_left _ _) (by decide))

/-- Along an edge the depth stays, or changes by the effect of the instruction as long as the sum is
a word. -/
theorem Levels.toNat_of_edge (hlevels : b.Levels pool depth) {i j : Nat} {kept : Bool} {e : Effect}
    (hreach : b.Reaches i) (he : b.effect? pool i = some e) (hedge : b.Edge i j kept) :
    e.pops.toNat ≤ (depth i).toNat ∧ (depth j).toNat = if kept then (depth i).toNat
      else min 65535 ((depth i).toNat - e.pops.toNat + e.pushes.toNat) := by
  obtain ⟨e', he', hpops⟩ := hlevels.enough i hreach
  cases he.symm.trans he'
  refine ⟨UInt16.le_iff_toNat_le.1 hpops, ?_⟩
  rw [hlevels.agrees i j kept e hreach hedge he]
  cases kept with
  | true => rfl
  | false => exact toNat_after

/-- On every path the stack is at least as deep as the analysis says. -/
theorem Levels.of_path (hlevels : b.Levels pool depth) (hs : b.Starts s)
    (hpath : ReflTransGen (b.Moves pool) s c) :
    b.Reaches c.1 ∧ ((depth c.1).toNat : Int) ≤ c.2 := by
  -- by induction on the path; a sum that saturates is below the true one
  induction hpath with
  | refl =>
    cases hs with
    | entry => exact ⟨.entry, by simp [hlevels.entry]⟩
    | handler hmem hi => exact ⟨.handler hmem hi, by simp [hlevels.handlers _ hmem _ hi]⟩
  | tail _ hmove ih =>
    cases hmove with
    | @edge i j kept e d he hedge =>
      obtain ⟨hreach, hle⟩ := ih
      refine ⟨hreach.step hedge, ?_⟩
      obtain ⟨hpops, hnext⟩ := hlevels.toNat_of_edge (i := i) hreach he hedge
      simp only at hle
      cases kept with
      | true =>
        rw [if_pos rfl] at hnext
        rwa [hnext]
      | false =>
        simp only [Bool.false_eq_true, if_false] at hnext ⊢
        omega

/-- As long as the analysis stays below the largest word, its depths are those of the paths. -/
theorem Levels.eq_of_path (hlevels : b.Levels pool depth)
    (hbelow : ∀ i e, b.Reaches i → b.effect? pool i = some e → e.after (depth i) < 65535)
    (hs : b.Starts s) (hpath : ReflTransGen (b.Moves pool) s c) :
    c.2 = (depth c.1).toNat := by
  -- by induction on the path; below the bound the sum does not saturate
  induction hpath with
  | refl =>
    cases hs with
    | entry => simp [hlevels.entry]
    | handler hmem hi => simp [hlevels.handlers _ hmem _ hi]
  | tail hpath hmove ih =>
    cases hmove with
    | @edge i j kept e d he hedge =>
      obtain ⟨hreach, -⟩ := hlevels.of_path hs hpath
      obtain ⟨hpops, hnext⟩ := hlevels.toNat_of_edge (i := i) hreach he hedge
      have hlt := hbelow i e hreach he
      rw [UInt16.lt_iff_toNat_lt, toNat_after] at hlt
      simp only at ih
      cases kept with
      | true =>
        rw [if_pos rfl] at hnext
        rwa [hnext]
      | false =>
        have h65535 : UInt16.toNat 65535 = 65535 := rfl
        simp only [Bool.false_eq_true, if_false] at hnext ⊢
        omega

/-- The paths through a body whose depths do not exceed `maxStack`. -/
theorem Levels.soundAt {maxStack : UInt16} {returns : UInt8} {summary : DepthSummary}
    {known : List (Option UInt16)} (hlevels : b.Levels pool depth)
    (hsummary : b.Summarizes pool depth summary known) (hmax : summary.maxDepth ≤ maxStack)
    (hreturns : ∀ opcode ∈ b.insns.filterMap Insn.returns?, opcode = returns)
    (hs : b.Starts s) (hpath : ReflTransGen (b.Moves pool) s c) :
    b.SoundAt pool maxStack returns c := by
  obtain ⟨hreach, hle⟩ := hlevels.of_path hs hpath
  obtain ⟨e, he, hpops⟩ := hlevels.enough c.1 hreach
  rw [UInt16.le_iff_toNat_le] at hpops
  refine ⟨hlevels.inside c.1 hreach, ⟨e, he, by omega, fun hsmall => ?_⟩, ?_⟩
  · have hbelow : ∀ i e, b.Reaches i → b.effect? pool i = some e → e.after (depth i) < 65535 :=
      fun i e hi hi' => UInt16.lt_of_le_of_lt
        (UInt16.le_trans (hsummary.bounds i e hi hi').2 hmax) hsmall
    have hdepth := hlevels.eq_of_path hbelow hs hpath
    obtain ⟨hfront, hbehind⟩ := hsummary.bounds c.1 e hreach he
    have hfront := UInt16.le_iff_toNat_le.1 (UInt16.le_trans hfront hmax)
    have hbehind := UInt16.le_iff_toNat_le.1 (UInt16.le_trans hbehind hmax)
    have hlt := UInt16.lt_iff_toNat_lt.1 (hbelow c.1 e hreach he)
    have h65535 : UInt16.toNat 65535 = 65535 := rfl
    rw [toNat_after] at hbehind hlt
    omega
  · intro insn opcode hget hop
    exact hreturns opcode (List.mem_filterMap.2 ⟨insn, List.mem_of_getElem? hget, hop⟩)

end Body

/-! ### Classes -/

namespace ClassFile

variable {cls : ClassFile} {m : Member} {code : Code}

/-- On every path through the code of a class that was checked, each instruction finds what it takes
off the stack, control stays inside the code, and every return is that of the result type. The stack
keeps to the declared depth, unless that is the largest word. -/
theorem verify_sound (h : cls.verify = .ok ()) (hm : m ∈ cls.methods)
    (hcode : m.code? = some code) :
    ∃ b d kind, Body.ofCode code = .ok b ∧ cls.pool.utf8? m.descriptor = some d ∧
      ReturnKind.ofDescriptor? d = some kind ∧
      ∀ s c, b.Starts s → ReflTransGen (b.Moves cls.pool) s c →
        b.SoundAt cls.pool code.maxStack kind.opcode c := by
  obtain ⟨-, d, hd, hbody⟩ := checkMethod_eq_ok.1 ((verify_eq_ok.1 h).2 m hm)
  rw [Member.code?, Attribute.firstCode?, ← List.head?_filterMap] at hcode
  rcases hbody with ⟨-, hnone⟩ | ⟨-, code', hsome, hcheck⟩
  · rw [hnone] at hcode
    cases hcode
  · rw [hsome] at hcode
    cases hcode
    obtain ⟨b, hb, hreturns, hflows⟩ := checkCode_eq_ok.1 hcheck
    obtain ⟨kind, hkind, hall⟩ := checkReturns_eq_ok.1 hreturns
    obtain ⟨summary, hsummary, hmax⟩ := Body.analyze_eq_ok.2 hflows
    obtain ⟨⟨_, known⟩, hout, rfl⟩ := map_eq_ok.1 hsummary
    obtain ⟨depth, hlevels, hreport⟩ := Body.exists_levels hout
    exact ⟨b, d, kind, hb, hd, hkind, fun s c hs hpath =>
      hlevels.soundAt hreport hmax hall hs hpath⟩

/-! ### A class that pushes -/

/-- Code that pushes `n` long constants and returns. -/
def pushCode (n : Nat) (maxStack : UInt16) : Code :=
  ⟨maxStack, 0, List.replicate n 0x09 ++ [Opcode.voidReturn], [], []⟩

/-- A class with that code in its one method. -/
def pushClass (n : Nat) (maxStack : UInt16) : ClassFile :=
  { ClassFile.empty with
    pool := ⟨#[.utf8 "A", .class 1, .utf8 "java/lang/Object", .class 3, .utf8 "Code", .utf8 "m",
      .utf8 "()V"]⟩
    thisClass := 2
    superClass := 4
    methods := [⟨Access.isStatic, 6, 7, [⟨5, .code (pushCode n maxStack)⟩]⟩] }

/-- The instructions of the code with their offsets, from an offset on. -/
def pushInsns (offset : Nat) : Nat → List (Nat × Insn)
  | 0 => [(offset, .op Opcode.voidReturn)]
  | n + 1 => (offset, .op 0x09) :: pushInsns (offset + 1) n

/-- The body of the code. -/
abbrev pushBody (n : Nat) (maxStack : UInt16) : Body :=
  Body.decodedAs (pushCode n maxStack) (pushInsns 0 n)

variable {n i offset : Nat} {maxStack : UInt16}

theorem reads_pushInsns :
    Insn.Reads ⟨List.replicate n 0x09 ++ [Opcode.voidReturn], offset⟩ (pushInsns offset n) := by
  induction n generalizing offset with
  | zero => exact .cons rfl .nil
  | succ n ih => exact .cons rfl ih

theorem references_pushCode : (pushCode n maxStack).references (pushInsns offset n) = [] := by
  have htargets : (pushInsns offset n).flatMap (fun x => x.2.targets.map (·.id)) = [] := by
    induction n generalizing offset with
    | zero => rfl
    | succ n ih => exact ih
  simp [Code.references, htargets, pushCode]

theorem ofCode_pushCode : Body.ofCode (pushCode n maxStack) = .ok (pushBody n maxStack) := by
  refine Body.ofCode_eq_ok.2 ⟨_, reads_pushInsns, fun o ho => ?_, rfl⟩
  rw [references_pushCode] at ho
  cases ho

theorem insns_pushBody :
    (pushBody n maxStack).insns = List.replicate n (.op 0x09) ++ [.op Opcode.voidReturn] := by
  have hplace (offset stop : Nat) :
      Body.placeLabels (fun _ => false) (pushInsns offset n) stop =
        List.replicate n (.op 0x09) ++ [.op Opcode.voidReturn] := by
    induction n generalizing offset with
    | zero => rfl
    | succ n ih =>
      rw [pushInsns, Splice.placeLabels_cons, ih]
      rfl
  have hused : ((pushCode n maxStack).references (pushInsns 0 n)).contains = fun _ => false := by
    rw [references_pushCode]
    rfl
  show Body.placeLabels ((pushCode n maxStack).references (pushInsns 0 n)).contains _ _ = _
  rw [hused, hplace]

theorem getElem?_pushBody (maxStack : UInt16) (h : i < n) :
    (pushBody n maxStack).insns[i]? = some (.op 0x09) := by
  rw [insns_pushBody, List.getElem?_append_left (by simpa using h), List.getElem?_replicate,
    if_pos h]

theorem getElem?_pushBody_last (n : Nat) (maxStack : UInt16) :
    (pushBody n maxStack).insns[n]? = some (.op Opcode.voidReturn) := by
  rw [insns_pushBody, List.getElem?_append_right (by simp)]
  simp

/-- The depth is twice the number of pushes, or the largest word. -/
theorem flows_pushBody (pool : Pool) (h : min 65535 (2 * n) ≤ maxStack.toNat) :
    (pushBody n maxStack).Flows pool maxStack fun i d => i ≤ n ∧ d.toNat = min 65535 (2 * i) := by
  refine ⟨⟨?_, ?_⟩, ⟨Nat.zero_le n, rfl⟩, fun h hh => (List.not_mem_nil hh).elim⟩
  · rintro i d d' ⟨-, hd⟩ ⟨-, hd'⟩
    exact UInt16.toNat_inj.1 (hd.trans hd'.symm)
  · rintro i d ⟨hi, hd⟩
    rcases Nat.lt_or_eq_of_le hi with hlt | rfl
    · have hafter : (Effect.after ⟨0, 2⟩ d).toNat = min 65535 (2 * (i + 1)) := by
        rw [Body.toNat_after, hd]
        show min 65535 (min 65535 (2 * i) - 0 + 2) = _
        omega
      have hget := getElem?_pushBody maxStack hlt
      refine ⟨.op 0x09, max d (Effect.after ⟨0, 2⟩ d), [⟨i + 1, Effect.after ⟨0, 2⟩ d⟩], ?_, rfl,
        ?_, ?_⟩
      · rw [List.getElem?_toArray, hget]
      · rw [Depth.max_le, UInt16.le_iff_toNat_le, UInt16.le_iff_toNat_le, hd, hafter]
        omega
      · exact List.forall_mem_singleton.2 ⟨hlt, hafter⟩
    · have hget := getElem?_pushBody_last i maxStack
      have hafter : Effect.after ⟨0, 0⟩ d = d := by
        apply UInt16.toNat_inj.1
        rw [Body.toNat_after, hd]
        show min 65535 (min 65535 (2 * i) - 0 + 0) = _
        omega
      refine ⟨.op Opcode.voidReturn, max d (Effect.after ⟨0, 0⟩ d), [], ?_, rfl, ?_, by simp⟩
      · rw [List.getElem?_toArray, hget]
      · rw [Depth.max_le, UInt16.le_iff_toNat_le, UInt16.le_iff_toNat_le, hafter, hd]
        exact ⟨h, h⟩

/-- The class passes its checks if the analysis does not count more than is declared. -/
theorem verify_pushClass (h : min 65535 (2 * n) ≤ maxStack.toNat) :
    (pushClass n maxStack).verify = .ok () := by
  have hreturns : checkReturns (pushBody n maxStack).insns "()V" = .ok () := by
    refine checkReturns_eq_ok.2 ⟨.void, by decide +kernel, fun opcode hmem => ?_⟩
    obtain ⟨insn, hinsn, hop⟩ := List.mem_filterMap.1 hmem
    rw [insns_pushBody] at hinsn
    rcases List.mem_append.1 hinsn with hpush | hreturn
    · rw [List.eq_of_mem_replicate hpush] at hop
      cases hop
    · rw [List.mem_singleton.1 hreturn] at hop
      cases hop
      rfl
  have hbody : (Access.has Access.isStatic Access.isAbstract ||
      Access.has Access.isStatic Access.isNative) = false := by decide
  refine verify_eq_ok.2 ⟨rfl, List.forall_mem_singleton.2 ?_⟩
  exact checkMethod_eq_ok.2 ⟨⟨"m", rfl⟩, "()V", rfl, .inr ⟨hbody, pushCode n maxStack, rfl,
    checkCode_eq_ok.2 ⟨_, ofCode_pushCode, hreturns, _, flows_pushBody _ h⟩⟩⟩

/-- The path through the pushes, with the depths that it has. -/
theorem path_pushBody (pool : Pool) (h : i ≤ n) :
    ReflTransGen ((pushBody n maxStack).Moves pool) (0, 0) (i, 2 * i) := by
  induction i with
  | zero => exact .refl
  | succ i ih =>
    have hget := getElem?_pushBody maxStack h
    have heffect : (pushBody n maxStack).effect? pool i = some ⟨0, 2⟩ := by
      rw [Body.effect?, hget]
      rfl
    have hmove := Body.Moves.edge (d := 2 * i) heffect (.next hget rfl)
    have hdepth : (2 * i - UInt16.toNat 0 + UInt16.toNat 2 : Int) = 2 * (i + 1 : Nat) := by
      have h0 : UInt16.toNat 0 = 0 := rfl
      have h2 : UInt16.toNat 2 = 2 := rfl
      omega
    simp only [Bool.false_eq_true, if_false, hdepth] at hmove
    exact (ih (Nat.le_of_succ_le h)).tail hmove

/-- A class that declares the largest depth passes its checks, and a path through it is deeper. -/
theorem exists_path_above : (pushClass 32768 65535).verify = .ok () ∧
    ∃ b s c, Body.ofCode (pushCode 32768 65535) = .ok b ∧ b.Starts s ∧
      ReflTransGen (b.Moves (pushClass 32768 65535).pool) s c ∧
      ((pushCode 32768 65535).maxStack.toNat : Int) < c.2 :=
  ⟨verify_pushClass (by decide), _, _, _, ofCode_pushCode, .entry,
    path_pushBody _ (Nat.le_refl 32768), by decide⟩

theorem verify_sound_push : (pushClass 1 2).verify = .ok () ∧
    ∃ b d kind, Body.ofCode (pushCode 1 2) = .ok b ∧ (pushClass 1 2).pool.utf8? 7 = some d ∧
      ReturnKind.ofDescriptor? d = some kind ∧
      ∀ s c, b.Starts s → ReflTransGen (b.Moves (pushClass 1 2).pool) s c →
        b.SoundAt (pushClass 1 2).pool 2 kind.opcode c :=
  ⟨verify_pushClass (by decide), verify_sound (verify_pushClass (by decide))
    (m := ⟨Access.isStatic, 6, 7, [⟨5, .code (pushCode 1 2)⟩]⟩) List.mem_cons_self rfl⟩

end ClassFile

end ClassTemplates
