import ClassTemplates.Proofs.Class.Approval
import ClassTemplates.Proofs.Class.Running

/-!
# Expansion of well-formed classes

A class that the checks accept can be expanded, as long as there is room for what is added: the
expanded class is accepted again. The one condition on its code is that every body leaves four slots
of the stack unused.

## Main definitions

- `ClassFile.Expandable` — a class that the checks accept, with names and room

## Main results

- `Expansion.visitMethods_failsWith`, `finishMethods_failsWith` — the steps of an expansion
- `ClassFile.Expandable.ok_or_forRoom` — the outcome of the expansion
-/

namespace ClassTemplates

/-- A class that the checks accept, whose name and whose fields' names are texts, whose type
initializer has code if there is one, and whose bodies leave four slots of the stack unused. -/
structure ClassFile.Expandable (cls : ClassFile) : Prop where
  verified : cls.verify = .ok ()
  name : ∃ className, cls.name? = some className
  fieldNames : ∀ f ∈ cls.fields, ∃ t, cls.pool.utf8? f.name = some t
  initializer : ∀ m ∈ cls.methods, cls.pool.isInitializer m = true → ∃ c, m.code? = some c
  depth : ∀ m ∈ cls.methods, ∀ c, m.code? = some c → ∀ b, Body.ofCode c = .ok b →
    ∀ summary, b.analyze cls.pool = .ok summary → summary.maxDepth ≤ 65531

namespace Expansion

variable {catalog : Catalog} {lookup : LookupMethod} {className owner : String} {p q : Pool}
  {m : Member} {e : Expander} {cls : ClassFile}

/-! ### Accepted methods -/

theorem approved_of_expandable (h : cls.Expandable) (hm : m ∈ cls.methods) :
    Approved cls.pool m := by
  obtain ⟨-, hmethods⟩ := ClassFile.verify_eq_ok.1 h.verified
  obtain ⟨hname, d, hd, -⟩ := ClassFile.checkMethod_eq_ok.1 (hmethods m hm)
  refine ⟨hname, ⟨d, hd⟩, fun c hc => ?_, h.initializer m hm⟩
  obtain ⟨hbodied, hsingle, d, hd, hcheck⟩ := ClassFile.checkCode_of_verify h.verified hm hc
  refine ⟨hbodied, hsingle, fun d' hd' => ?_⟩
  rw [hd] at hd'
  cases hd'
  obtain ⟨b, hb, hreturns, hflows⟩ := ClassFile.checkCode_eq_ok.1 hcheck
  obtain ⟨summary, hsummary, -⟩ := Body.analyze_eq_ok.2 hflows
  obtain ⟨reached, hflows⟩ := Body.analyze_eq_ok.1 ⟨summary, hsummary, UInt16.le_refl _⟩
  have hroom := UInt16.le_iff_toNat_le.1 (h.depth m hm c hc b hb summary hsummary)
  exact ⟨b, summary.maxDepth, reached, hb, hreturns, hflows, Nat.add_le_add_right hroom 4⟩

theorem Approved.exists_body (h : Approved p m) {c : Code} (hc : m.code? = some c) :
    ∃ b, Body.ofCode c = .ok b := by
  obtain ⟨d, hd⟩ := h.descriptor
  obtain ⟨b, limit, reached, hb, -⟩ := (h.code c hc).2.2 d hd
  exact ⟨b, hb⟩

/-! ### Steps -/

theorem lift_failsWith {α : Type} {x : Except PoolError α × Expander} :
    FailsWith ExpansionError.forRoom (lift x) := by
  obtain ⟨⟨⟩ | a, f⟩ := x
  · rintro fault ⟨⟩
    trivial
  · exact failsWith_ok

theorem bodyOf_eq_ok {c : Code} {b : Body} (h : Body.ofCode c = .ok b) : bodyOf c = .ok b :=
  mapError_eq_ok.2 h

theorem expandMethod_failsWith (h : Approved p m) :
    FailsWith ExpansionError.forRoom (expandMethod catalog lookup m e) := by
  unfold expandMethod
  split
  · exact failsWith_ok
  · rename_i c hc
    obtain ⟨b, hb⟩ := h.exists_body hc
    rw [bodyOf_eq_ok hb]
    exact failsWith_ok.bind fun b _ => lift_failsWith.bind fun x _ => failsWith_ok

theorem visitMethod_failsWith {progress : Progress} (h : Approved p m) :
    FailsWith ExpansionError.forRoom (visitMethod catalog lookup progress m e) := by
  obtain ⟨edits, loads, i⟩ := progress
  unfold visitMethod
  simp only
  split
  · exact failsWith_ok
  · intro fault hfault
    split at hfault
    · rename_i hx
      cases hfault
      exact expandMethod_failsWith h _ hx
    · cases hfault

/-- The methods of a class are visited as long as there is room. -/
theorem visitMethods_failsWith {progress : Progress} {ms : List Member}
    (h : ∀ m ∈ ms, Approved p m) :
    FailsWith ExpansionError.forRoom (visitMethods catalog lookup progress e ms) := by
  induction ms generalizing progress e with
  | nil => exact failsWith_ok
  | cons m ms ih =>
    rw [List.forall_mem_cons] at h
    intro fault hfault
    rw [visitMethods] at hfault
    split at hfault
    · rename_i hx
      cases hfault
      exact visitMethod_failsWith h.1 _ hx
    · exact ih h.2 _ hfault

theorem deferFields_failsWith {fields : List Member}
    (h : ∀ f ∈ fields, ∃ t, p.utf8? f.name = some t) :
    FailsWith ExpansionError.forRoom (deferFields catalog p className fields) := by
  refine (FailsWith.mapM fun f hf => ?_).bind fun results _ => failsWith_ok
  obtain ⟨t, ht⟩ := h f hf
  unfold deferField
  split
  · exact failsWith_ok
  · rw [ht]
    exact failsWith_ok

/-- The instructions in front of a type initializer are put there. -/
theorem prependAt_failsWith {edits : Edits} {k : Nat} {insns : List Insn}
    (h : ∀ m body, edits[k]? = some (m, body) → ∃ c b, m.code? = some c ∧ Body.ofCode c = .ok b) :
    FailsWith ExpansionError.forRoom (prependAt className edits k insns) := by
  unfold prependAt
  split
  · exact failsWith_ok
  · exact failsWith_ok
  · rename_i m hk
    obtain ⟨c, b, hc, hb⟩ := h m none hk
    simp only [hc, bodyOf_eq_ok hb]
    exact failsWith_ok.bind fun b _ => failsWith_ok

/-- A method that is a type initializer in some larger pool is one. -/
theorem Approved.isInitializer (h : Approved p m) (hq : p ≤ q)
    (hm : q.isInitializer m = true) : p.isInitializer m = true := by
  rwa [Pool.isInitializer_eq hq h.name h.descriptor] at hm

theorem finishMethod_failsWith {b : Body} (h : Approvable e.pool m b) :
    FailsWith ExpansionError.forRoom (finishMethod className m b e) :=
  h.layOut_failsWith.bind fun _ _ => lift_failsWith.bind fun _ _ => failsWith_ok

/-- New bodies are laid out as long as there is room. -/
theorem finishMethods_failsWith {done : Finished} {edits : List (Member × Option Body)}
    (he : e.Ready lookup) (h : ∀ m b, (m, some b) ∈ edits → Approvable e.pool m b) :
    FailsWith ExpansionError.forRoom (finishMethods className done e edits) := by
  induction edits generalizing done e with
  | nil => exact failsWith_ok
  | cons edit edits ih =>
    obtain ⟨m, body⟩ := edit
    have hrest (m' : Member) (b' : Body) (hmem : (m', some b') ∈ edits) :
        Approvable e.pool m' b' := h m' b' (List.mem_cons_of_mem _ hmem)
    cases body with
    | none => exact ih he hrest
    | some b =>
      intro fault hfault
      rw [finishMethods] at hfault
      split at hfault
      · rename_i hx
        cases hfault
        exact finishMethod_failsWith (h m b List.mem_cons_self) _ hx
      · rename_i m' signature e₁ hx
        obtain ⟨hg, hr, -⟩ := finishMethod_eq_ok he hx
        exact ih hr (fun m' b' hmem => (hrest m' b' hmem).mono hg.le) _ hfault

/-! ### The expanded class -/

/-- New bodies of accepted methods are acceptable. -/
theorem Injected.approvable {isOpen : Bool} {edits edits' : List (Member × Option Body)}
    (h : Injected catalog lookup owner p q isOpen edits edits')
    (hm : ∀ x ∈ edits, Approved p x.1) :
    ∀ m b, (m, some b) ∈ edits' → Approvable q m b := by
  obtain ⟨front, new, rfl, hfront, hnew⟩ := h
  intro m b hmem
  rcases List.mem_append.1 hmem with hmem | hmem
  · obtain ⟨x, hx, hsame, -, hreworked⟩ := exists_left_of_forall₂ hfront hmem
    refine (hreworked b rfl).approvable (.inr ?_)
    rw [show m = x.1 from hsame]
    exact hm x hx
  · rcases hnew with rfl | ⟨-, m', b', rfl, hisNew, hreworked⟩
    · cases hmem
    · cases List.mem_singleton.1 hmem
      exact hreworked.approvable (.inl hisNew)

/-- What is true of one old method at most, and of none if there is a new one, is true of one method
at most. -/
theorem Injected.countP_le {P : Member → Bool} {isOpen : Bool}
    {edits edits' : List (Member × Option Body)}
    (h : Injected catalog lookup owner p q isOpen edits edits')
    (hcount : (edits.map (·.1)).countP P ≤ 1)
    (hopen : isOpen = true → (edits.map (·.1)).countP P = 0) :
    (edits'.map (·.1)).countP P ≤ 1 := by
  obtain ⟨front, new, rfl, hfront, hnew⟩ := h
  have hsame : front.map (·.1) = edits.map (·.1) :=
    map_eq_map_of_forall₂ hfront fun x y hxy => hxy.1
  rw [List.map_append, List.countP_append, hsame]
  rcases hnew with rfl | ⟨ho, m, b, rfl, -, -⟩
  · exact hcount
  · rw [hopen ho, Nat.zero_add]
    exact List.countP_le_length

/-! ### A whole class -/

variable {isOpen : Bool} {edits edits' : List (Member × Option Body)} {e' : Expander}
  {fields : List Member} {summary : ExpansionSummary} {cs : List DeferredConstant}
  {progress : Progress}

theorem Surveyed.applyInjection_failsWith {i : Initializer} {injection : Option Injection}
    {e₁ : Expander} (h : Surveyed catalog lookup cls progress e) (hcls : cls.Expandable)
    (hfinal : progress.initializer.finalize catalog lookup className e = (.ok injection, i, e₁)) :
    FailsWith ExpansionError.forRoom (applyInjection className progress.edits e₁ injection) := by
  obtain ⟨-, -, hcases⟩ := Initializer.finalize_eq_ok h.waiting h.ready hfinal
  rcases hcases with ⟨-, rfl, -⟩ | ⟨code, -, rfl⟩
  · exact failsWith_ok
  · rcases h.waiting with hs | ⟨k, hs⟩
    · rw [hs]
      exact lift_failsWith.bind fun x _ => failsWith_ok
    · rw [hs]
      obtain ⟨m, body, r, hk, hle, -, hinit, -⟩ := h.found k hs
      have hm : m ∈ cls.methods := by
        rw [← h.methods]
        exact List.mem_map_of_mem (List.mem_of_getElem? hk)
      have happroved := approved_of_expandable hcls hm
      refine (prependAt_failsWith fun m' body' hk' => ?_).bind fun edits' _ => failsWith_ok
      rw [← Array.getElem?_toList, hk] at hk'
      cases hk'
      obtain ⟨c, hc⟩ := happroved.initializer (happroved.isInitializer hle hinit)
      obtain ⟨b, hb⟩ := happroved.exists_body hc
      exact ⟨c, b, hc, hb⟩

theorem Prepared.approvable (h : Prepared catalog lookup cls className isOpen edits edits' e e')
    (hcls : cls.Expandable) : ∀ m b, (m, some b) ∈ edits' → Approvable e'.pool m b := by
  refine h.injected.approvable fun x hx => approved_of_expandable hcls ?_
  rw [← h.methods]
  exact List.mem_map_of_mem hx

/-- There is one type initializer at most, in every larger pool. -/
theorem Prepared.countP_le (h : Prepared catalog lookup cls className isOpen edits edits' e e')
    (hcls : cls.Expandable) (he : (Expander.ofPool cls.pool).Ready lookup) {r : Pool}
    (hr : cls.pool ≤ r) : (edits'.map (·.1)).countP r.isInitializer ≤ 1 := by
  obtain ⟨houtline, -⟩ := ClassFile.verify_eq_ok.1 hcls.verified
  obtain ⟨-, -, -, hcount⟩ := ClassFile.verifyOutline_eq_ok.1 houtline
  have hsame (r : Pool) (hr : cls.pool ≤ r) (m : Member) (hm : m ∈ cls.methods) :
      r.isInitializer m = cls.pool.isInitializer m := by
    have happroved := approved_of_expandable hcls hm
    exact Pool.isInitializer_eq hr happroved.name happroved.descriptor
  refine h.injected.countP_le ?_ fun ho => ?_
  · rw [h.methods, List.countP_congr fun m hm => by rw [hsame r hr m hm]]
    exact hcount
  · rw [h.methods, List.countP_eq_zero]
    intro m hm
    rw [← h.methods] at hm
    obtain ⟨x, hx, rfl⟩ := List.mem_map.1 hm
    obtain ⟨r', hr', -, hinit⟩ := h.visits.not_isInitializer he ho x hx
    rw [h.methods] at hm
    rw [hsame r hr _ hm, ← hsame r' hr' _ hm, hinit]
    decide

/-- The checks accept the class with its new bodies laid out. -/
theorem Prepared.verifyMethods_eq_ok
    (h : Prepared catalog lookup cls className isOpen edits edits' e e') (hcls : cls.Expandable)
    (he : (Expander.ofPool cls.pool).Ready lookup) {done : Finished} {e₂ : Expander}
    (hdone : finishMethods className ⟨#[], #[]⟩ e' edits' = .ok (done, e₂)) :
    ClassFile.verifyMethods
      { cls with pool := e₂.pool, fields := fields, methods := done.methods.toList }
      (done.changed.toList.map (·.1)) = .ok () := by
  obtain ⟨hg, -, ms, hms, hall, hchanged⟩ := finishMethods_eq_ok h.ready hdone
  obtain rfl : done.methods.toList = ms := by simpa using hms
  obtain ⟨houtline, -⟩ := ClassFile.verify_eq_ok.1 hcls.verified
  obtain ⟨hpool, hthis, hsuper, -⟩ := ClassFile.verifyOutline_eq_ok.1 houtline
  have hgrown := h.grown.trans hg
  -- the outline is checked again in the grown pool, and so is every method that changed
  refine bind_eq_ok.2 ⟨(), ClassFile.verifyOutline_eq_ok.2 ⟨?_, ?_, ?_, ?_⟩, forM_eq_ok.2 ?_⟩
  · exact ClassFile.poolFault?_grown hgrown rfl hpool
  · exact ClassFile.namesClass_mono hgrown.le hthis
  · exact ClassFile.superClassOk_mono hgrown.le rfl rfl hsuper
  · have hcount := h.countP_le hcls he hgrown.le
    have hsame : done.methods.toList.map e₂.pool.isInitializer =
        edits'.map fun x => e₂.pool.isInitializer x.1 := by
      refine map_eq_map_of_forall₂ hall fun x m' hx => ?_
      rcases hx with ⟨-, rfl⟩ | ⟨b, -, hlaid⟩
      · rfl
      · exact hlaid.isInitializer
    have hid := congrArg (List.countP id) hsame
    rw [List.countP_map, List.countP_map] at hid
    rw [List.countP_map] at hcount
    exact hid.trans_le hcount
  · intro m' hm'
    obtain ⟨k, hk, hget⟩ := List.mem_filterMap.1 hm'
    obtain ⟨x, hx, rfl⟩ := List.mem_map.1 hk
    rcases hchanged x hx with hx | ⟨j, m, b, hj, hedit⟩
    · cases hx
    · obtain rfl : x.1 = j := by simpa using hj
      have hzip : ((m, some b), m') ∈ edits'.zip done.methods.toList :=
        List.mem_of_getElem? (List.getElem?_zip_eq_some.2 ⟨hedit, hget⟩)
      rcases List.forall₂_zip hall hzip with ⟨hnone, -⟩ | ⟨b', hb', hlaid⟩
      · cases hnone
      · cases hb'
        have happrovable := h.approvable hcls m b (List.mem_of_getElem? hedit)
        exact mapError_eq_ok.2 (happrovable.checkMethod_eq_ok hlaid)

/-- A class with new bodies that can be laid out is expanded. -/
theorem Prepared.finish_expanded {edits' : Edits} {done : Finished} {e₂ : Expander}
    (h : Prepared catalog lookup cls className isOpen edits edits'.toList e e')
    (hcls : cls.Expandable) (he : (Expander.ofPool cls.pool).Ready lookup)
    (hname : summary.className = className)
    (hany : (edits'.any fun edit => edit.2.isSome) = true)
    (hdone : finishMethods className ⟨#[], #[]⟩ e' edits'.toList = .ok (done, e₂)) :
    finish { cls with fields := fields } summary edits' e' = .ok (.expanded
      { cls with pool := e₂.pool, fields := fields, methods := done.methods.toList }
      { summary with methods := done.changed.toList.map (·.2), stats := e₂.stats }) := by
  subst hname
  unfold finish
  rw [if_pos hany]
  exact bind_eq_ok.2 ⟨(done, e₂), hdone,
    bind_eq_ok.2 ⟨(), mapError_eq_ok.2 (h.verifyMethods_eq_ok hcls he hdone), rfl⟩⟩

theorem Prepared.finish_failsWith {edits' : Edits}
    (h : Prepared catalog lookup cls className isOpen edits edits'.toList e e')
    (hcls : cls.Expandable) (he : (Expander.ofPool cls.pool).Ready lookup)
    (hname : summary.className = className) :
    FailsWith ExpansionError.forRoom (finish { cls with fields := fields } summary edits' e') := by
  subst hname
  unfold finish
  split
  · refine (finishMethods_failsWith h.ready (h.approvable hcls)).bind fun x hdone => ?_
    obtain ⟨done, e₂⟩ := x
    simp only [h.verifyMethods_eq_ok hcls he hdone]
    exact failsWith_ok.bind fun _ _ => failsWith_ok
  · exact failsWith_ok

theorem ofNamed_failsWith (hcls : cls.Expandable) :
    FailsWith ExpansionError.forRoom (ofNamed catalog lookup cls className) := by
  obtain ⟨houtline, -⟩ := ClassFile.verify_eq_ok.1 hcls.verified
  obtain ⟨hpool, -⟩ := ClassFile.verifyOutline_eq_ok.1 houtline
  have he : (Expander.ofPool cls.pool).Ready lookup :=
    Expander.ready_ofPool (ClassFile.bounded_of_poolFault? hpool)
  rw [ofNamed_eq]
  refine (deferFields_failsWith hcls.fieldNames).bind fun deferred _ => ?_
  refine (visitMethods_failsWith fun m hm => approved_of_expandable hcls hm).bind
    fun visited hvisit => lift_failsWith.bind fun injection hlift => ?_
  have hsurveyed := surveyed_of_visitMethods he hvisit
  obtain ⟨hresult, hrest⟩ := Prod.mk.inj (lift_eq_ok.1 hlift)
  have hfinal : visited.1.initializer.finalize catalog lookup className visited.2 =
      (.ok injection.1, _, injection.2) := Prod.ext hresult (Prod.ext rfl hrest)
  refine (hsurveyed.applyInjection_failsWith hcls hfinal).bind fun injected hinject => ?_
  exact (hsurveyed.prepared he hfinal hinject).finish_failsWith hcls he rfl

end Expansion

/-- The expansion of a class that the checks accept succeeds, or fails for want of room: in the
pool, in the code of a method, or for the distance of a branch. -/
theorem ClassFile.Expandable.ok_or_forRoom {cls : ClassFile} (h : cls.Expandable)
    (catalog : Catalog) (lookup : LookupMethod) :
    (∃ x, cls.expand catalog lookup = .ok x) ∨
      cls.expand catalog lookup = .error (.pool .outOfSpace) ∨
      (∃ size, cls.expand catalog lookup = .error (.layout (.codeTooLarge size))) ∨
      ∃ a b, cls.expand catalog lookup = .error (.layout (.branchTooFar a b)) := by
  obtain ⟨className, hname⟩ := h.name
  have hfails : FailsWith ExpansionError.forRoom (cls.expand catalog lookup) := by
    unfold expand
    split
    · rw [hname]
      exact Expansion.ofNamed_failsWith h
    · exact failsWith_ok
  cases hx : cls.expand catalog lookup with
  | ok x => exact .inl ⟨x, rfl⟩
  | error fault =>
    have hroom := hfails fault hx
    cases fault with
    | pool cause =>
      cases cause
      exact .inr (.inl rfl)
    | layout cause =>
      cases cause with
      | codeTooLarge size => exact .inr (.inr (.inl ⟨size, rfl⟩))
      | branchTooFar a b => exact .inr (.inr (.inr ⟨a, b, rfl⟩))
      | unboundLabel | frameOrder => cases hroom
    | _ => cases hroom

theorem ClassFile.Expandable.ok_or_forRoom_load :
    ∃ cls : ClassFile, cls.pool.hasToken = true ∧ cls.Expandable ∧
      ((∃ x, cls.expand ⟨#[⟨"app", "key", "\x60BuildConfig#m#v\x60"⟩]⟩ ⟨"Config", "get"⟩ = .ok x) ∨
        cls.expand ⟨#[⟨"app", "key", "\x60BuildConfig#m#v\x60"⟩]⟩ ⟨"Config", "get"⟩ =
          .error (.pool .outOfSpace) ∨
        (∃ size, cls.expand ⟨#[⟨"app", "key", "\x60BuildConfig#m#v\x60"⟩]⟩ ⟨"Config", "get"⟩ =
          .error (.layout (.codeTooLarge size))) ∨
        ∃ a b, cls.expand ⟨#[⟨"app", "key", "\x60BuildConfig#m#v\x60"⟩]⟩ ⟨"Config", "get"⟩ =
          .error (.layout (.branchTooFar a b))) := by
  let code : Code := ⟨1, 0, [0x12, 9, 0xb0], [], []⟩
  let m : Member := ⟨Access.isStatic, 5, 6, [⟨7, .code code⟩]⟩
  let cls : ClassFile :=
    { ClassFile.empty with
      pool := ⟨#[.utf8 "A", .class 1, .utf8 "java/lang/Object", .class 3, .utf8 "text",
        .utf8 "()Ljava/lang/String;", .utf8 "Code", .utf8 "\x60BuildConfig#m#v\x60", .string 8]⟩
      thisClass := 2
      superClass := 4
      methods := [m] }
  have hdecode : Insn.decode code.bytes = .ok [(0, .ldc 9), (2, .op 0xb0)] := by decide +kernel
  have hb := Body.ofCode_eq_ok.2 ⟨_, Insn.decode_eq_ok.1 hdecode,
    fun o ho => (List.not_mem_nil ho).elim, rfl⟩
  -- one slot behind the load
  have hflows : (Body.decodedAs code [(0, .ldc 9), (2, .op 0xb0)]).Flows cls.pool 1
      fun i d => i = 0 ∧ d = 0 ∨ i = 1 ∧ d = 1 := by
    refine ⟨⟨?_, ?_⟩, .inl ⟨rfl, rfl⟩, fun h hh => (List.not_mem_nil hh).elim⟩
    · rintro i d d' (⟨rfl, rfl⟩ | ⟨rfl, rfl⟩) (⟨hi, rfl⟩ | ⟨hi, rfl⟩) <;> first | rfl | cases hi
    · rintro i d (⟨rfl, rfl⟩ | ⟨rfl, rfl⟩)
      · refine ⟨.ldc 9, 1, [⟨1, 1⟩], rfl, rfl, UInt16.le_refl _, ?_⟩
        simp
      · exact ⟨.op 0xb0, 1, [], rfl, rfl, UInt16.le_refl _, by simp⟩
  have hcheck : cls.checkMethod m = .ok () :=
    ClassFile.checkMethod_eq_ok.2 ⟨⟨"text", rfl⟩, "()Ljava/lang/String;", rfl, .inr
      ⟨by decide, code, rfl, ClassFile.checkCode_eq_ok.2 ⟨_, hb, by decide +kernel, _, hflows⟩⟩⟩
  have hcls : cls.Expandable := by
    refine ⟨ClassFile.verify_eq_ok.2 ⟨by decide +kernel, ?_⟩, ⟨"A", rfl⟩, ?_, ?_, ?_⟩
    · exact List.forall_mem_cons.2 ⟨hcheck, fun m' hm' => (List.not_mem_nil hm').elim⟩
    · exact fun f hf => (List.not_mem_nil hf).elim
    · intro m' hm' _
      obtain rfl := List.mem_singleton.1 hm'
      exact ⟨code, rfl⟩
    · intro m' hm' c hc b hb' summary hsummary
      obtain rfl := List.mem_singleton.1 hm'
      cases hc
      cases hb.symm.trans hb'
      exact UInt16.le_trans (hflows.maxDepth_le hsummary) (by decide)
  exact ⟨cls, by decide +kernel, hcls, hcls.ok_or_forRoom _ _⟩

end ClassTemplates
