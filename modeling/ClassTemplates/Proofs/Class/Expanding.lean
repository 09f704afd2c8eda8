import ClassTemplates.Proofs.Class.Verifiability

/-!
# The steps of an expansion

For a class that the checks accept, steps of an expansion that succeed lead to an expanded class:
what the steps make of the class is all that has to be worked out. Two small classes show it. The
constant of one is deferred to an initializer that jumps to its own start, and that of the other to
an initializer that loads the same text, so that the load is replaced too.

## Main definitions

- `ClassFile.loopClass` — a class with a constant and an initializer that loops
- `ClassFile.loadingClass` — a class with a constant and an initializer that loads it

## Main results

- `ClassFile.Expandable.expand_eq` — the outcome of the expansion, from the outcomes of its steps
- `ClassFile.Expandable.expand_of_toCode` — a class with one method
- `ClassFile.exists_expand_loopClass`, `exists_expand_loadingClass` — the expansions of the classes
-/

namespace ClassTemplates

namespace ClassFile

open Expansion

variable {catalog : Catalog} {lookup : LookupMethod} {cls : ClassFile}

/-- The steps of an expansion, for a class that the checks accept, lead to an expanded class. -/
theorem Expandable.expand_eq {className : String} {fields : List Member}
    {cs : List DeferredConstant} {progress : Progress} {injection : Option Injection}
    {edits : Edits} {change : Option InitializerChange} {done : Finished} {e e₁ e₂ e₃ : Expander}
    {i : Initializer} (hcls : cls.Expandable) (hbounded : cls.pool.Bounded)
    (htoken : cls.pool.hasToken = true) (hname : cls.name? = some className)
    (hfields : deferFields catalog cls.pool className cls.fields = .ok (fields, cs))
    (hvisit : visitMethods catalog lookup ⟨#[], 0, cs.foldl Initializer.defer .new⟩
      (.ofPool cls.pool) cls.methods = .ok (progress, e))
    (hfinal : progress.initializer.finalize catalog lookup className e = (.ok injection, i, e₁))
    (hinject : applyInjection className progress.edits e₁ injection = .ok ((edits, change), e₂))
    (hany : (edits.any fun edit => edit.2.isSome) = true)
    (hdone : finishMethods className ⟨#[], #[]⟩ e₂ edits.toList = .ok (done, e₃)) :
    cls.expand catalog lookup = .ok (.expanded
      { cls with pool := e₃.pool, fields := fields, methods := done.methods.toList }
      ⟨className, progress.loads, cs.length, done.changed.toList.map (·.2), change,
        e₃.stats⟩) := by
  have he : (Expander.ofPool cls.pool).Ready lookup := Expander.ready_ofPool hbounded
  have hprepared := (surveyed_of_visitMethods he hvisit).prepared he hfinal hinject
  have hlift : lift ((progress.initializer.finalize catalog lookup className e).1,
      (progress.initializer.finalize catalog lookup className e).2.2) = .ok (injection, e₁) := by
    rw [hfinal]
    rfl
  rw [expand, if_pos htoken, hname]
  show ofNamed catalog lookup cls className = _
  rw [ofNamed_eq]
  exact bind_eq_ok.2 ⟨_, hfields, bind_eq_ok.2 ⟨_, hvisit, bind_eq_ok.2 ⟨_, hlift, bind_eq_ok.2
    ⟨_, hinject, hprepared.finish_expanded hcls he rfl hany hdone⟩⟩⟩⟩

/-- A class with one method is expanded if the new body of the method has a byte form. -/
theorem Expandable.expand_of_toCode {className : String} {fields : List Member}
    {cs : List DeferredConstant} {progress : Progress} {injection : Option Injection}
    {change : Option InitializerChange} {e e₁ e₂ : Expander} {i : Initializer} {m : Member}
    {b : Body} {c c' : Code} (hcls : cls.Expandable) (hbounded : cls.pool.Bounded)
    (htoken : cls.pool.hasToken = true) (hname : cls.name? = some className)
    (hfields : deferFields catalog cls.pool className cls.fields = .ok (fields, cs))
    (hvisit : visitMethods catalog lookup ⟨#[], 0, cs.foldl Initializer.defer .new⟩
      (.ofPool cls.pool) cls.methods = .ok (progress, e))
    (hfinal : progress.initializer.finalize catalog lookup className e = (.ok injection, i, e₁))
    (hinject : applyInjection className progress.edits e₁ injection =
      .ok ((#[(m, some b)], change), e₂))
    (hc : m.code? = some c) (hcode : b.withoutCarried.toCode 0 = .ok c') :
    ∃ n, cls.expand catalog lookup = .ok (.expanded
      { cls with
        pool := e₂.pool
        fields := fields
        methods := [m.withCode { c' with maxStack := n }] }
      ⟨className, progress.loads, cs.length, [e₂.pool.signature m], change, e₂.stats⟩) := by
  have he : (Expander.ofPool cls.pool).Ready lookup := Expander.ready_ofPool hbounded
  have hprepared := (surveyed_of_visitMethods he hvisit).prepared he hfinal hinject
  obtain ⟨limit, reached, hflows⟩ := (hprepared.approvable hcls m b List.mem_cons_self).flows
  obtain ⟨n, hlayout⟩ : ∃ n, layOut className (e₂.pool.signature m) e₂.pool b =
      .ok { c' with maxStack := n } := exists_layOut_eq hflows hcode
  have hset : lift ((Expander.onPool (setCode m { c' with maxStack := n })).run e₂) =
      .ok (m.withCode { c' with maxStack := n }, e₂) := by
    rw [setCode, hc]
    rfl
  have hone : finishMethod className m b e₂ =
      .ok ((m.withCode { c' with maxStack := n }, e₂.pool.signature m), e₂) :=
    bind_eq_ok.2 ⟨_, hlayout, bind_eq_ok.2 ⟨_, hset, rfl⟩⟩
  have hdone : finishMethods className ⟨#[], #[]⟩ e₂ [(m, some b)] =
      .ok (⟨#[m.withCode { c' with maxStack := n }], #[(0, e₂.pool.signature m)]⟩, e₂) := by
    rw [finishMethods, hone]
    rfl
  exact ⟨n, hcls.expand_eq hbounded htoken hname hfields hvisit hfinal hinject (by simp) hdone⟩

/-- A type initializer that is the one method of a class is found; the constant is left to it. -/
theorem visitMethods_initializer {m : Member} {count : Nat} {body : Option Body} {e e' : Expander}
    (c : DeferredConstant) (hinit : e.pool.isInitializer m = true)
    (h : expandMethod catalog lookup m e = .ok ((count, body), e')) :
    visitMethods catalog lookup ⟨#[], 0, [c].foldl Initializer.defer .new⟩ e [m] =
      .ok (⟨#[(m, body)], count, ⟨.found 0, #[c]⟩⟩, e') := by
  have hone : visitMethod catalog lookup ⟨#[], 0, [c].foldl Initializer.defer .new⟩ m e =
      .ok (⟨#[(m, body)], 0 + count, ⟨.found 0, #[c]⟩⟩, e') := by
    rw [visitMethod, hinit, h]
    rfl
  rw [visitMethods, hone, Nat.zero_add]
  rfl

/-! ### A class with an initializer that loops -/

/-- A binding for the one token of the class. -/
def loopCatalog : Catalog := ⟨#[⟨"app", "key", "\x60BuildConfig#m#v\x60"⟩]⟩

/-- A lookup method that the class does not call. -/
def loopLookup : LookupMethod := ⟨"Config", "get"⟩

/-- A constant that has to be deferred. -/
def loopField : Member := ⟨0x18, 5, 6, [⟨12, .constantValue 8⟩]⟩

/-- A jump to itself. -/
def loopCode : Code := ⟨0, 0, [0xa7, 0, 0], [], []⟩

/-- A type initializer that jumps to its own first instruction. -/
def loopInitializer : Member := ⟨Access.isStatic, 9, 10, [⟨11, .code loopCode⟩]⟩

/-- A class with both. -/
def loopClass : ClassFile :=
  { ClassFile.empty with
    pool := ⟨#[.utf8 "A", .class 1, .utf8 "java/lang/Object", .class 3, .utf8 "text",
      .utf8 "Ljava/lang/String;", .utf8 "\x60BuildConfig#m#v\x60", .string 7, .utf8 "<clinit>",
      .utf8 "()V", .utf8 "Code", .utf8 "ConstantValue"]⟩
    thisClass := 2
    superClass := 4
    fields := [loopField]
    methods := [loopInitializer] }

/-- What the pool of the class grows by. -/
def loopConstants : List Constant :=
  [.utf8 "java/lang/StringBuilder", .class 13, .utf8 "<init>", .nameAndType 15 10,
    .methodRef 14 16, .utf8 "append",
    .utf8 "(Ljava/lang/String;)Ljava/lang/StringBuilder;", .nameAndType 18 19, .methodRef 14 20,
    .utf8 "toString", .utf8 "()Ljava/lang/String;", .nameAndType 22 23, .methodRef 14 24,
    .utf8 "Config", .class 26, .utf8 "get",
    .utf8 "(Ljava/lang/String;Ljava/lang/String;Ljava/lang/String;)Ljava/lang/String;",
    .nameAndType 28 29, .methodRef 27 30, .utf8 "app", .string 32, .utf8 "key", .string 34,
    .nameAndType 5 6, .fieldRef 2 36]

/-- The class with the constant deferred and `c` as the code of its initializer. -/
def loopExpanded (c : Code) : ClassFile :=
  { loopClass with
    pool := ⟨loopClass.pool.slots ++ loopConstants.toArray⟩
    fields := [loopField.withoutConstant]
    methods := [loopInitializer.withCode c] }

/-- The one instruction of the initializer. -/
abbrev loopInsns : List (Nat × Insn) := [(0, .jump Opcode.goto ⟨0⟩)]

theorem decode_loopCode : Insn.decode loopCode.bytes = .ok loopInsns := by
  decide +kernel

theorem ofCode_loopCode : Body.ofCode loopCode = .ok (Body.decodedAs loopCode loopInsns) :=
  Body.ofCode_eq_ok.2 ⟨_, Insn.decode_eq_ok.1 decode_loopCode,
    fun o ho => .inl (by simpa [Code.references, Insn.targets, loopCode] using ho), rfl⟩

/-- The stack stays empty around the loop. -/
theorem flows_loopCode :
    (Body.decodedAs loopCode loopInsns).Flows loopClass.pool 0 fun i d => i < 2 ∧ d = 0 := by
  refine ⟨⟨?_, ?_⟩, ⟨by decide, rfl⟩, fun h hh => (List.not_mem_nil hh).elim⟩
  · rintro i d d' ⟨-, rfl⟩ ⟨-, rfl⟩
    rfl
  · have hplace : Depth.place (Body.decodedAs loopCode loopInsns).placements ⟨0⟩ = .ok 0 := by
      rw [Depth.place_eq_some, Body.getElem?_placements]
      decide +kernel
    rintro i d ⟨hi, rfl⟩
    match i, hi with
    | 0, _ => exact ⟨.label ⟨0⟩, 0, [⟨1, 0⟩], rfl, rfl, UInt16.le_refl _, by simp⟩
    | 1, _ =>
      refine ⟨.jump Opcode.goto ⟨0⟩, 0, [⟨0, 0⟩], rfl, ?_, UInt16.le_refl _, by simp⟩
      simp only [Depth.step, Depth.successors, hplace]
      rfl

theorem loopClass_expandable : loopClass.Expandable := by
  have hcheck : loopClass.checkMethod loopInitializer = .ok () :=
    checkMethod_eq_ok.2 ⟨⟨"<clinit>", rfl⟩, "()V", rfl, .inr ⟨by decide, loopCode, rfl,
      checkCode_eq_ok.2 ⟨_, ofCode_loopCode, by decide +kernel, _, flows_loopCode⟩⟩⟩
  refine ⟨verify_eq_ok.2 ⟨by decide +kernel, List.forall_mem_singleton.2 hcheck⟩, ⟨"A", rfl⟩,
    List.forall_mem_singleton.2 ⟨"text", rfl⟩,
    List.forall_mem_singleton.2 fun _ => ⟨loopCode, rfl⟩, List.forall_mem_singleton.2 ?_⟩
  rintro c ⟨⟩ b hb summary hsummary
  cases ofCode_loopCode.symm.trans hb
  exact UInt16.le_trans (flows_loopCode.maxDepth_le hsummary) (by decide)

theorem templateOf?_loopField : templateOf? loopCatalog loopClass.pool loopField =
    some "\x60BuildConfig#m#v\x60" := by
  decide +kernel

theorem loopClass_bounded : loopClass.pool.Bounded := by
  unfold Pool.Bounded
  decide

theorem deferFields_loopClass : deferFields loopCatalog loopClass.pool "A" loopClass.fields =
    .ok ([loopField.withoutConstant], [⟨"text", "\x60BuildConfig#m#v\x60"⟩]) := by
  have hfield : deferField loopCatalog loopClass.pool "A" loopField =
      .ok (loopField.withoutConstant, some ⟨"text", "\x60BuildConfig#m#v\x60"⟩) := by
    rw [deferField, templateOf?_loopField]
    rfl
  exact bind_eq_ok.2 ⟨_, mapM_eq_ok.2 (.cons hfield .nil), rfl⟩

/-- The class can be expanded, and its constant is deferred. -/
theorem exists_expand_loopClass :
    ∃ c summary,
      loopClass.expand loopCatalog loopLookup = .ok (.expanded (loopExpanded c) summary) ∧
      summary.deferred = 1 ∧ c.bytes.length = 28 ∧ c.handlers = [] ∧ c.attributes = [] := by
  let body := Body.decodedAs loopCode loopInsns
  let constant : DeferredConstant := ⟨"text", "\x60BuildConfig#m#v\x60"⟩
  let start : Progress := ⟨#[], 0, [constant].foldl Initializer.defer .new⟩
  let visited : Progress := ⟨#[(loopInitializer, none)], 0, ⟨.found 0, #[constant]⟩⟩
  let e₀ : Expander := .ofPool loopClass.pool
  have hmethod : expandMethod loopCatalog loopLookup loopInitializer e₀ = .ok ((0, none), e₀) :=
    bind_eq_ok.2 ⟨body, bodyOf_eq_ok ofCode_loopCode, rfl⟩
  have hvisit : visitMethods loopCatalog loopLookup start e₀ loopClass.methods =
      .ok (visited, e₀) :=
    visitMethods_initializer constant (by decide +kernel) hmethod
  let final := visited.initializer.finalize loopCatalog loopLookup "A" e₀
  let insns : List Insn := [.type 187 14, .op 89, .invoke 183 17, .ldc 33, .ldc 35, .ldc 8,
    .invoke 184 31, .invoke 182 21, .invoke 182 25, .field 179 37]
  have hfinal : final.1 = .ok (some (.prepend 0 insns)) := by decide +kernel
  let e := final.2.2
  have hinject : applyInjection "A" visited.edits e (some (.prepend 0 insns)) =
      .ok ((#[(loopInitializer, some (body.prepend insns))], some .extended), e) :=
    bind_eq_ok.2 ⟨_, bind_eq_ok.2 ⟨body, bodyOf_eq_ok ofCode_loopCode, rfl⟩, rfl⟩
  obtain ⟨c, hc, hsizes⟩ : ∃ c, (body.prepend insns).withoutCarried.toCode 0 = .ok c ∧
      (c.bytes.length, c.handlers.length, c.attributes.length) = (28, 0, 0) := by
    have hmap : ((body.prepend insns).withoutCarried.toCode 0).map (fun c : Code =>
        (c.bytes.length, c.handlers.length, c.attributes.length)) = .ok (28, 0, 0) := by
      rw [Layout.toCode_eq]
      decide +kernel
    exact map_eq_ok.1 hmap
  simp only [Prod.mk.injEq, List.length_eq_zero_iff] at hsizes
  have hpool : e.pool = ⟨loopClass.pool.slots ++ loopConstants.toArray⟩ := by decide +kernel
  obtain ⟨n, hexpand⟩ := loopClass_expandable.expand_of_toCode loopClass_bounded
    (by decide +kernel) rfl deferFields_loopClass hvisit (Prod.ext hfinal rfl) hinject rfl hc
  rw [hpool] at hexpand
  exact ⟨_, _, hexpand, rfl, hsizes⟩

/-! ### A class with a constant and a load -/

/-- Code that loads a number and the token, and drops both. -/
def loadingCode : Code :=
  ⟨2, 0, [0x03, 0x12, 8, 0x58, 0xb1], [], []⟩

def loadingInitializer : Member :=
  loopInitializer.withCode loadingCode

/-- A class that has the token as a constant and loads it. -/
def loadingClass : ClassFile :=
  { loopClass with methods := [loadingInitializer] }

/-- The instructions of the code. -/
abbrev loadingInsns : List (Nat × Insn) :=
  [(0, .op 0x03), (1, .ldc 8), (3, .op 0x58), (4, .op 0xb1)]

theorem decode_loadingCode : Insn.decode loadingCode.bytes = .ok loadingInsns := by
  decide +kernel

theorem ofCode_loadingCode :
    Body.ofCode loadingCode = .ok (Body.decodedAs loadingCode loadingInsns) :=
  Body.ofCode_eq_ok.2 ⟨_, Insn.decode_eq_ok.1 decode_loadingCode,
    fun _ ho => (List.not_mem_nil ho).elim, rfl⟩

/-- The number is below the load. -/
theorem flows_loadingCode : (Body.decodedAs loadingCode loadingInsns).Flows loadingClass.pool 2
    fun i d => i = 0 ∧ d = 0 ∨ i = 1 ∧ d = 1 ∨ i = 2 ∧ d = 2 ∨ i = 3 ∧ d = 0 := by
  refine ⟨⟨?_, ?_⟩, .inl ⟨rfl, rfl⟩, fun h hh => (List.not_mem_nil hh).elim⟩
  · rintro i d d' (⟨rfl, rfl⟩ | ⟨rfl, rfl⟩ | ⟨rfl, rfl⟩ | ⟨rfl, rfl⟩)
        (⟨hi, rfl⟩ | ⟨hi, rfl⟩ | ⟨hi, rfl⟩ | ⟨hi, rfl⟩) <;>
      first | rfl | cases hi
  · rintro i d (⟨rfl, rfl⟩ | ⟨rfl, rfl⟩ | ⟨rfl, rfl⟩ | ⟨rfl, rfl⟩)
    · exact ⟨.op 0x03, 1, [⟨1, 1⟩], rfl, rfl, by decide, by simp⟩
    · exact ⟨.ldc 8, 2, [⟨2, 2⟩], rfl, rfl, UInt16.le_refl _, by simp⟩
    · exact ⟨.op 0x58, 2, [⟨3, 0⟩], rfl, rfl, UInt16.le_refl _, by simp⟩
    · exact ⟨.op 0xb1, 0, [], rfl, rfl, by decide, by simp⟩

theorem loadingClass_expandable : loadingClass.Expandable := by
  have hcheck : loadingClass.checkMethod loadingInitializer = .ok () :=
    checkMethod_eq_ok.2 ⟨⟨"<clinit>", rfl⟩, "()V", rfl, .inr ⟨by decide, loadingCode, rfl,
      checkCode_eq_ok.2 ⟨_, ofCode_loadingCode, by decide +kernel, _, flows_loadingCode⟩⟩⟩
  refine ⟨verify_eq_ok.2 ⟨by decide +kernel, List.forall_mem_singleton.2 hcheck⟩, ⟨"A", rfl⟩,
    List.forall_mem_singleton.2 ⟨"text", rfl⟩,
    List.forall_mem_singleton.2 fun _ => ⟨loadingCode, rfl⟩, List.forall_mem_singleton.2 ?_⟩
  rintro c ⟨⟩ b hb summary hsummary
  cases ofCode_loadingCode.symm.trans hb
  exact UInt16.le_trans (flows_loadingCode.maxDepth_le hsummary) (by decide)

/-- The class can be expanded: its constant is deferred, and its load is replaced. -/
theorem exists_expand_loadingClass :
    ∃ cls' c summary, loadingClass.expand loopCatalog loopLookup = .ok (.expanded cls' summary) ∧
      cls'.methods = [loadingInitializer.withCode c] ∧ c.bytes.length = 50 ∧
      summary.loads = 1 ∧ summary.deferred = 1 := by
  let body := Body.decodedAs loadingCode loadingInsns
  let code : List Insn := [.type 187 14, .op 89, .invoke 183 17, .ldc 33, .ldc 35, .ldc 8,
    .invoke 184 31, .invoke 182 21, .invoke 182 25]
  let expanded : Body := { body with insns := .op 0x03 :: code ++ [.op 0x58, .op 0xb1] }
  let constant : DeferredConstant := ⟨"text", "\x60BuildConfig#m#v\x60"⟩
  let start : Progress := ⟨#[], 0, [constant].foldl Initializer.defer .new⟩
  let visited : Progress := ⟨#[(loadingInitializer, some expanded)], 1, ⟨.found 0, #[constant]⟩⟩
  let e₀ : Expander := .ofPool loadingClass.pool
  let e₁ : Expander := ((Expander.expandBody loopCatalog loopLookup body).run e₀).2
  have hrun : (Expander.expandBody loopCatalog loopLookup body).run e₀ =
      (.ok (1, expanded), e₁) := by
    have hok : ((Expander.expandBody loopCatalog loopLookup body).run e₀).1.map
        (fun x => (x.1, x.2.insns)) = .ok (1, expanded.insns) := by decide +kernel
    obtain ⟨⟨n, b⟩, hb, hpair⟩ := map_eq_ok.1 hok
    obtain ⟨rfl, hinsns⟩ := Prod.mk.inj hpair
    obtain ⟨xs, -, -, rfl, -⟩ := Expander.expandBody_eq_ok (Prod.ext hb rfl)
    have hafter : Splice.after xs = expanded.insns := hinsns
    rw [hafter] at hb
    exact Prod.ext hb rfl
  have hmethod : expandMethod loopCatalog loopLookup loadingInitializer e₀ =
      .ok ((1, some expanded), e₁) :=
    bind_eq_ok.2 ⟨body, bodyOf_eq_ok ofCode_loadingCode,
      bind_eq_ok.2 ⟨_, lift_eq_ok.2 hrun, rfl⟩⟩
  have hvisit : visitMethods loopCatalog loopLookup start e₀ loadingClass.methods =
      .ok (visited, e₁) :=
    visitMethods_initializer constant (by decide +kernel) hmethod
  let final := visited.initializer.finalize loopCatalog loopLookup "A" e₁
  let insns : List Insn := code ++ [.field 179 37]
  have hfinal : final.1 = .ok (some (.prepend 0 insns)) := by decide +kernel
  have hinject : applyInjection "A" visited.edits final.2.2 (some (.prepend 0 insns)) =
      .ok ((#[(loadingInitializer, some (expanded.prepend insns))], some .extended), final.2.2) :=
    rfl
  obtain ⟨c, hc, hlength⟩ : ∃ c, (expanded.prepend insns).withoutCarried.toCode 0 = .ok c ∧
      c.bytes.length = 50 := by
    have hmap : ((expanded.prepend insns).withoutCarried.toCode 0).map (·.bytes.length) =
        .ok 50 := by
      rw [Layout.toCode_eq]
      decide +kernel
    exact map_eq_ok.1 hmap
  obtain ⟨n, hexpand⟩ := loadingClass_expandable.expand_of_toCode loopClass_bounded
    (by decide +kernel) rfl deferFields_loopClass hvisit (Prod.ext hfinal rfl) hinject rfl hc
  exact ⟨_, _, _, hexpand, rfl, hlength, rfl, rfl⟩

end ClassFile

end ClassTemplates
