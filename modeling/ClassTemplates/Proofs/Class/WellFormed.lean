import ClassTemplates.Proofs.Depth.Flow
import ClassTemplates.Proofs.Pool.Additions
import ClassTemplates.Verify.Class

/-!
# What well-formed classes are

The checks of a class, as the facts that they establish. Facts about a pool stay true when sound
constants are added to it.

## Main results

- `ClassFile.verifyOutline_eq_ok`, `verify_eq_ok` — the checks of a class
- `ClassFile.checkMethod_eq_ok`, `checkCode_eq_ok` — the checks of a method and of its code
- `ClassFile.poolFault?_grown` — a pool without faults that has grown has none
-/

namespace ClassTemplates

namespace ClassFile

variable {cls : ClassFile} {m : Member} {c : Code} {d : String}

theorem verifyOutline_eq_ok :
    cls.verifyOutline = .ok () ↔ cls.poolFault? = none ∧ cls.namesClass cls.thisClass = true ∧
      cls.superClassOk = true ∧ cls.initializerCount ≤ 1 := by
  unfold verifyOutline
  cases cls.poolFault? with
  | some fault => simp
  | none =>
    cases cls.namesClass cls.thisClass <;> cases cls.superClassOk <;>
      by_cases hcount : cls.initializerCount > 1 <;> (simp [hcount]; try omega)

theorem verify_eq_ok :
    cls.verify = .ok () ↔ cls.verifyOutline = .ok () ∧ ∀ m ∈ cls.methods, cls.checkMethod m = .ok ()
    := by
  unfold verify
  rw [bind_eq_ok]
  simp only [forM_eq_ok, verifyMethod, mapError_eq_ok]
  constructor
  · rintro ⟨u, ho, hm⟩
    exact ⟨ho, hm⟩
  · rintro ⟨ho, hm⟩
    exact ⟨(), ho, hm⟩

theorem checkText_eq_ok {i : UInt16} :
    cls.checkText i = .ok () ↔ ∃ t, cls.pool.utf8? i = some t := by
  simp only [Pool.utf8?_eq_some]
  unfold checkText
  split
  · rename_i t h
    simp [h]
  · rename_i h
    simp [h]
  · rename_i c hne h
    rw [h]
    constructor
    · intro h
      cases h
    · rintro ⟨t, ht⟩
      cases ht
      exact absurd rfl (hne t)

theorem checkCode_eq_ok :
    cls.checkCode d c = .ok () ↔ ∃ b, Body.ofCode c = .ok b ∧ checkReturns b.insns d = .ok () ∧
      ∃ reached, b.Flows cls.pool c.maxStack reached := by
  unfold checkCode
  simp only [bind_eq_ok, mapError_eq_ok, Body.checkDepth]
  constructor
  · rintro ⟨b, hb, u, hreturns, summary, ⟨summary', hsummary, hdepth⟩, -⟩
    refine ⟨b, hb, hreturns, Body.analyze_eq_ok.1 ⟨summary', hsummary, ?_⟩⟩
    split at hdepth
    · cases hdepth
    · rename_i hle
      exact UInt16.not_lt.1 hle
  · rintro ⟨b, hb, hreturns, hflows⟩
    obtain ⟨summary, hsummary, hle⟩ := Body.analyze_eq_ok.2 hflows
    refine ⟨b, hb, (), hreturns, summary, ⟨summary, hsummary, ?_⟩, rfl⟩
    rw [if_neg (UInt16.not_lt.2 hle)]
    rfl

/-- The returns of a method are those for its result type. -/
theorem checkReturns_eq_ok {insns : List Insn} :
    checkReturns insns d = .ok () ↔ ∃ kind, ReturnKind.ofDescriptor? d = some kind ∧
      ∀ opcode ∈ insns.filterMap Insn.returns?, opcode = kind.opcode := by
  unfold checkReturns
  cases ReturnKind.ofDescriptor? d with
  | none => simp
  | some kind =>
    dsimp only
    cases hfind : (insns.filterMap Insn.returns?).find? (· != kind.opcode) with
    | none =>
      refine ⟨fun _ => ⟨kind, rfl, fun opcode hmem => ?_⟩, fun _ => rfl⟩
      simpa using List.find?_eq_none.1 hfind opcode hmem
    | some found =>
      constructor
      · intro h
        cases h
      · rintro ⟨_, ⟨⟩, hall⟩
        have hne := List.find?_some hfind
        rw [hall found (List.mem_of_find?_eq_some hfind)] at hne
        simp at hne

/-- The method is abstract or native. -/
def bodiless (m : Member) : Bool :=
  Access.has m.access Access.isAbstract || Access.has m.access Access.isNative

theorem checkMethod_eq_ok :
    cls.checkMethod m = .ok () ↔ (∃ t, cls.pool.utf8? m.name = some t) ∧
      ∃ d, cls.pool.utf8? m.descriptor = some d ∧
        (bodiless m = true ∧ m.attributes.filterMap Attribute.code? = [] ∨
          bodiless m = false ∧ ∃ c, m.attributes.filterMap Attribute.code? = [c] ∧
            cls.checkCode d c = .ok ()) := by
  unfold checkMethod
  rw [bind_eq_ok]
  simp only [bind_eq_ok]
  constructor
  · rintro ⟨_, hname, _, htext, h⟩
    obtain ⟨d, hd⟩ := checkText_eq_ok.1 htext
    refine ⟨checkText_eq_ok.1 hname, d, hd, ?_⟩
    simp only [hd, ← bodiless.eq_1, bind_eq_ok, Except.ok.injEq, exists_eq_left'] at h
    cases hb : bodiless m <;>
      rcases hc : m.attributes.filterMap Attribute.code? with _ | ⟨c, _ | ⟨c', cs⟩⟩ <;>
      simp_all
  · rintro ⟨hname, d, hd, h⟩
    refine ⟨(), checkText_eq_ok.2 hname, (), checkText_eq_ok.2 ⟨d, hd⟩, ?_⟩
    simp only [hd, ← bodiless.eq_1]
    rcases h with ⟨hb, hc⟩ | ⟨hb, c, hc, h⟩
    · simp only [hb, hc]
      rfl
    · simp only [hb, hc]
      exact h

/-- The code of a method of a class that the checks accept. -/
theorem checkCode_of_verify (h : cls.verify = .ok ()) (hm : m ∈ cls.methods)
    (hc : m.code? = some c) :
    bodiless m = false ∧ m.attributes.filterMap Attribute.code? = [c] ∧
      ∃ d, cls.pool.utf8? m.descriptor = some d ∧ cls.checkCode d c = .ok () := by
  obtain ⟨-, d, hd, hcode⟩ := checkMethod_eq_ok.1 ((verify_eq_ok.1 h).2 m hm)
  have hhead : (m.attributes.filterMap Attribute.code?).head? = some c := by
    rw [List.head?_filterMap]
    exact hc
  rcases hcode with ⟨-, hnone⟩ | ⟨hbodied, c', hsingle, hcheck⟩
  · rw [hnone] at hhead
    cases hhead
  · rw [hsingle] at hhead
    cases hhead
    exact ⟨hbodied, hsingle, d, hd, hcheck⟩

/-! ### Pools -/

/-- What is needed for a constant is there. -/
def Resolved (cls : ClassFile) (k : Constant) : Prop :=
  (k.needsBootstrap = true → cls.hasBootstrapMethods = true) ∧
    ∀ x ∈ k.references, cls.pool.Has x.1 x.2

theorem referenceFault?_eq_none {p : Pool} {owner target : UInt16} {kind : ConstantKind} :
    p.referenceFault? owner target kind = none ↔ p.Has target kind := by
  unfold Pool.referenceFault? Pool.Has
  cases p.get? target <;> simp

theorem constantFault?_eq_none {owner : UInt16} {k : Constant} :
    cls.constantFault? owner k = none ↔ cls.Resolved k := by
  unfold constantFault? Resolved
  rw [ite_eq_iff]
  simp only [List.findSome?_eq_none_iff, referenceFault?_eq_none, Prod.forall]
  cases k.needsBootstrap <;> cases cls.hasBootstrapMethods <;> simp

theorem exists_entry {p : Pool} {k : Constant} (h : k ∈ p.slots.toList) (hk : k ≠ .secondSlot) :
    ∃ i, (i, k) ∈ p.entries := by
  obtain ⟨j, hj⟩ := List.mem_iff_getElem?.1 h
  refine ⟨.ofNat (1 + j), List.mem_filterMap.2 ⟨(k, 1 + j), ?_, if_neg hk⟩⟩
  exact List.mk_add_mem_zipIdx_iff_getElem?.2 hj

theorem mem_of_mem_entries {p : Pool} {i : UInt16} {k : Constant} (h : (i, k) ∈ p.entries) :
    k ∈ p.slots.toList := by
  obtain ⟨⟨k', j⟩, hmem, hk⟩ := List.mem_filterMap.1 h
  obtain ⟨-, hk⟩ := Option.ite_none_left_eq_some.1 hk
  cases hk
  exact List.fst_mem_of_mem_zipIdx hmem

theorem poolFault?_eq_none :
    cls.poolFault? = none ↔ cls.pool.slots.size < 65535 ∧ ∀ k ∈ cls.pool.slots.toList,
      cls.Resolved k := by
  have hentries : (∀ x ∈ cls.pool.entries, cls.constantFault? x.1 x.2 = none) ↔
      ∀ k ∈ cls.pool.slots.toList, cls.Resolved k := by
    simp only [constantFault?_eq_none]
    constructor
    · intro h k hk
      by_cases hsecond : k = .secondSlot
      · subst hsecond
        refine ⟨fun hb => ?_, fun x hx => ?_⟩
        · cases hb
        · cases hx
      · obtain ⟨i, hi⟩ := exists_entry hk hsecond
        exact h _ hi
    · rintro h ⟨i, k⟩ hx
      exact h k (mem_of_mem_entries hx)
  rw [← hentries, poolFault?, ite_eq_iff, List.findSome?_eq_none_iff]
  simp

theorem bounded_of_poolFault? (h : cls.poolFault? = none) : cls.pool.Bounded := by
  have hsize := (poolFault?_eq_none.1 h).1
  unfold Pool.Bounded Pool.maxSlots
  omega

/-- What the constants of a pool without faults refer to lies inside of it. -/
theorem closed_of_poolFault? (h : cls.poolFault? = none) : cls.pool.Closed := by
  intro k hk x hx
  obtain ⟨c, hc, -⟩ := ((poolFault?_eq_none.1 h).2 k hk).2 x hx
  exact Pool.inside_of_get? hc

/-! ### Grown pools -/

variable {cls' : ClassFile}

theorem hasBootstrapMethods_mono (h : cls.pool ≤ cls'.pool)
    (hattributes : cls'.attributes = cls.attributes) (hb : cls.hasBootstrapMethods = true) :
    cls'.hasBootstrapMethods = true := by
  obtain ⟨a, ha, hpayload⟩ := List.any_eq_true.1 hb
  refine List.any_eq_true.2 ⟨a, hattributes ▸ ha, ?_⟩
  unfold bootstrapPayload? at hpayload ⊢
  split
  · rename_i bytes hcontent
    rw [hcontent] at hpayload
    by_cases hname : cls.pool.utf8? a.name = some bootstrapName
    · simp [Pool.utf8?_mono h hname]
    · simp [hname] at hpayload
  · rename_i hne
    split at hpayload
    · rename_i bytes hcontent
      exact absurd hcontent (hne bytes)
    · cases hpayload

/-- A pool without faults to which sound constants were added has none. -/
theorem poolFault?_grown (h : cls.pool.GrownTo cls'.pool)
    (hattributes : cls'.attributes = cls.attributes) (hp : cls.poolFault? = none) :
    cls'.poolFault? = none := by
  obtain ⟨-, hold⟩ := poolFault?_eq_none.1 hp
  have hbounded := h.bounded
  refine poolFault?_eq_none.2 ⟨?_, fun k hk => ?_⟩
  · unfold Pool.Bounded Pool.maxSlots at hbounded
    omega
  · obtain ⟨added, hadded⟩ := h.le
    rw [← hadded] at hk
    rcases List.mem_append.1 hk with hk | hk
    · obtain ⟨hb, href⟩ := hold k hk
      exact ⟨fun hn => hasBootstrapMethods_mono h.le hattributes (hb hn), fun x hx =>
        (href x hx).mono h.le⟩
    · obtain ⟨hb, href⟩ := h.sound k (by simpa [← hadded] using hk)
      refine ⟨fun hn => ?_, href⟩
      rw [hb] at hn
      cases hn

theorem namesClass_mono (h : cls.pool ≤ cls'.pool) {i : UInt16} (hi : cls.namesClass i = true) :
    cls'.namesClass i = true := by
  unfold namesClass at hi ⊢
  split at hi
  · rename_i j hj
    rw [Pool.get?_mono h hj]
  · cases hi

theorem superClassOk_mono (h : cls.pool ≤ cls'.pool) (haccess : cls'.access = cls.access)
    (hsuper : cls'.superClass = cls.superClass) (hc : cls.superClassOk = true) :
    cls'.superClassOk = true := by
  unfold superClassOk at hc ⊢
  rw [haccess, hsuper]
  exact Bool.or_eq_true_iff.2 ((Bool.or_eq_true_iff.1 hc).imp_right (namesClass_mono h))

end ClassFile

/-- Whether a method with a name and a descriptor is a type initializer stays. -/
theorem Pool.isInitializer_eq {p q : Pool} {m : Member} (h : p ≤ q)
    (hname : ∃ t, p.utf8? m.name = some t) (hdescriptor : ∃ t, p.utf8? m.descriptor = some t) :
    q.isInitializer m = p.isInitializer m := by
  obtain ⟨name, hname⟩ := hname
  obtain ⟨descriptor, hdescriptor⟩ := hdescriptor
  unfold isInitializer
  rw [hname, hdescriptor, utf8?_mono h hname, utf8?_mono h hdescriptor]

end ClassTemplates
