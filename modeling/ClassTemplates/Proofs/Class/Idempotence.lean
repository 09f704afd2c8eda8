import ClassTemplates.Proofs.Class.Appending
import ClassTemplates.Proofs.Class.Expanding
import ClassTemplates.Proofs.Expansion.Settled

/-!
# Expanding a class again

The expansion of an expanded class leaves it as it is. Its fields have no constant that would be
deferred, and no load in its methods is eligible, so there is nothing to assign and nothing to lay
out. The first expansion must not change what the indices of the class mean, so they have to lie
inside of its pool.

## Main definitions

- `ClassFile.Closed` — a class whose indices lie inside of its pool
- `Expansion.Still` — methods of which none has to be expanded

## Main results

- `Expansion.Reworked.settled` — a new body has no eligible loads
- `Expansion.ofNamed_of_still` — a class that nothing has to be done to
- `ClassFile.expand_expanded` — the expansion of an expanded class
-/

namespace ClassTemplates

open Expander (Settled)

/-- The indices that expansions look at lie inside of the pool: those of constants, of the
descriptors and constant values of fields, of the names and descriptors of methods, and of
instructions. -/
structure ClassFile.Closed (cls : ClassFile) : Prop where
  pool : cls.pool.Closed
  fields : ∀ f ∈ cls.fields, cls.pool.Inside f.descriptor ∧
    ∀ i, f.constantIndex? = some i → cls.pool.Inside i
  methods : ∀ m ∈ cls.methods, cls.pool.Inside m.name ∧ cls.pool.Inside m.descriptor
  insns : ∀ m ∈ cls.methods, ∀ c, m.code? = some c → ∀ decoded,
    Insn.decode c.bytes = .ok decoded → ∀ x ∈ decoded, cls.pool.Inside x.2.constantIndex

theorem ClassFile.loopClass_closed : loopClass.Closed := by
  refine ⟨?_, List.forall_mem_singleton.2 ⟨?_, ?_⟩, List.forall_mem_singleton.2 ⟨?_, ?_⟩,
    List.forall_mem_singleton.2 ?_⟩
  · have hinside : (loopClass.pool.slots.toList.all fun c => c.references.all fun r =>
        decide (r.1.toNat ≤ loopClass.pool.slots.size)) = true := by decide
    simp only [List.all_eq_true, decide_eq_true_eq] at hinside
    exact hinside
  · unfold Pool.Inside
    decide
  · rintro i ⟨⟩
    unfold Pool.Inside
    decide
  · unfold Pool.Inside
    decide
  · unfold Pool.Inside
    decide
  · rintro c ⟨⟩ decoded hdecoded
    rw [decode_loopCode] at hdecoded
    cases hdecoded
    exact List.forall_mem_singleton.2 (Nat.zero_le _)

namespace Expansion

variable {catalog : Catalog} {lookup : LookupMethod} {className owner : String} {p q : Pool}
  {m m' f f' : Member} {e e' : Expander} {cls : ClassFile} {fields fields' : List Member}

/-! ### Fields -/

theorem templateOf?_withoutConstant : templateOf? catalog p f.withoutConstant = none := by
  have hindex : f.withoutConstant.constantIndex? = none := by
    rw [Member.constantIndex?, List.findSome?_eq_none_iff]
    intro a ha
    simpa using (List.mem_filter.1 ha).2
  simp [templateOf?, hindex]

/-- A field whose constant is not deferred has none that is deferred in a larger pool. -/
theorem templateOf?_eq_of_inside (h : p ≤ q) (hp : p.Closed) (hd : p.Inside f.descriptor)
    (hi : ∀ i, f.constantIndex? = some i → p.Inside i) :
    templateOf? catalog q f = templateOf? catalog p f := by
  unfold templateOf?
  rw [Pool.utf8?_eq_of_inside h hd]
  cases hc : f.constantIndex? with
  | none => rfl
  | some i =>
    simp only [Option.bind_eq_bind, Option.bind_some]
    rw [Pool.stringValue?_eq_of_inside h hp (hi i hc)]

theorem deferFields_eq_ok {cs : List DeferredConstant}
    (h : deferFields catalog p className fields = .ok (fields', cs)) :
    List.Forall₂ (fun f f' => templateOf? catalog p f = none ∧ f' = f ∨ f' = f.withoutConstant)
      fields fields' := by
  obtain ⟨results, hresults, h⟩ := bind_eq_ok.1 h
  cases h
  rw [List.forall₂_map_right_iff]
  refine forall₂_of_mapM_eq_ok hresults fun f _ x hx => ?_
  unfold deferField at hx
  split at hx
  · rename_i hnone
    cases hx
    exact .inl ⟨hnone, rfl⟩
  · split at hx
    · cases hx
    · cases hx
      exact .inr rfl

/-- Fields without constants to defer stay as they are. -/
theorem deferFields_of_templateOf? (h : ∀ f ∈ fields, templateOf? catalog p f = none) :
    deferFields catalog p className fields = .ok (fields, []) := by
  refine bind_eq_ok.2 ⟨fields.map fun f => (f, none), mapM_eq_ok_map fun f hf => ?_, ?_⟩
  · rw [deferField, h f hf]
  · have hfirst : (fun x : Member × Option DeferredConstant => x.1) ∘ (fun f => (f, none)) = id :=
      rfl
    simp [pure, Except.pure, List.filterMap_map, hfirst]

/-! ### Methods -/

/-- Instructions with labels among them stay inside of a pool if they do so alone. -/
theorem inside_placeLabels {decoded : List (Nat × Insn)} {used : Nat → Bool} {stop : Nat}
    (hi : ∀ x ∈ decoded, p.Inside x.2.constantIndex) :
    ∀ insn ∈ Body.placeLabels used decoded stop, p.Inside insn.constantIndex := by
  intro insn hinsn
  rcases Splice.mem_placeLabels hinsn with hlabel | ⟨x, hx, rfl⟩
  · obtain ⟨l, rfl⟩ := Insn.exists_of_isLabel hlabel
    exact Nat.zero_le _
  · exact hi x hx

/-- The instructions that an edit starts from stay inside of a pool if those of the code do. -/
theorem inside_before {b : Body} {c : Code} {decoded : List (Nat × Insn)} {pre : List Insn}
    {xs : List Splice} (h : b.EditOf c decoded pre xs)
    (hi : ∀ x ∈ decoded, p.Inside x.2.constantIndex) :
    ∀ insn ∈ Splice.before xs, p.Inside insn.constantIndex := by
  rw [h.before]
  exact inside_placeLabels hi

/-- A new body of a method whose indices lie inside of a closed pool has no eligible loads. -/
theorem Reworked.settled {b : Body} (hb : Reworked catalog lookup owner p q m b)
    (hcatalog : catalog.Plain) (hp : p.Closed)
    (hi : ∀ c, m.code? = some c → ∀ decoded, Insn.decode c.bytes = .ok decoded →
      ∀ x ∈ decoded, p.Inside x.2.constantIndex) :
    Settled catalog lookup q b.insns := by
  obtain @⟨c, decoded, pre, xs, cs, e₁, e₂, hc, hedit, ha, hr, hle, hq, hx⟩ := hb
  have hdecode : Insn.decode c.bytes = .ok decoded := Insn.decode_eq_ok.2 hedit.reads
  have hdecoded : ∀ x ∈ decoded, p.Inside x.2.constantIndex := by
    rcases hc with hc | ⟨-, rfl⟩
    · exact hi c hc decoded hdecode
    · have hbare : Insn.decode bareCode.bytes = .ok [(0, .op Opcode.voidReturn)] := by
        decide +kernel
      rw [hdecode] at hbare
      cases hbare
      exact List.forall_mem_singleton.2 (Nat.zero_le _)
  have hbefore := inside_before hedit hdecoded
  rw [hedit.insns]
  exact ha.settled_append hcatalog (hx.settled_after hcatalog hr hp hle hbefore hq)

/-- Nothing in the method is expanded. -/
def Quiet (catalog : Catalog) (lookup : LookupMethod) (q : Pool) (m : Member) : Prop :=
  ∀ e : Expander, e.pool = q → expandMethod catalog lookup m e = .ok ((0, none), e)

theorem quiet_of_code?_eq_none (h : m.code? = none) : Quiet catalog lookup q m := by
  intro e _
  rw [expandMethod, h]

theorem quiet_of_settled {c : Code} {b : Body} (hc : m.code? = some c) (hb : Body.ofCode c = .ok b)
    (h : Settled catalog lookup q b.insns) : Quiet catalog lookup q m := by
  rintro e rfl
  have hbody : bodyOf c = .ok b := mapError_eq_ok.2 hb
  rw [expandMethod, hc]
  refine bind_eq_ok.2 ⟨b, hbody, bind_eq_ok.2 ⟨((0, b), e), ?_, rfl⟩⟩
  rw [lift_eq_ok]
  exact Expander.expandBody_of_settled h

/-- The indices of a method that expansions look at lie inside of a pool. -/
structure Kept (p : Pool) (m : Member) : Prop where
  name : p.Inside m.name
  descriptor : p.Inside m.descriptor
  insns : ∀ c, m.code? = some c → ∀ decoded, Insn.decode c.bytes = .ok decoded →
    ∀ x ∈ decoded, p.Inside x.2.constantIndex

/-- A method that was visited and stays has nothing left to expand. -/
theorem Visited.quiet (h : Visited catalog lookup p q m none) (hcatalog : catalog.Plain)
    (hp : p.Closed) (hm : Kept p m) {r : Pool} (hq : q ≤ r) : Quiet catalog lookup r m := by
  cases hc : m.code? with
  | none => exact quiet_of_code?_eq_none hc
  | some c =>
    obtain ⟨e₁, e₂, n, -, -, -, hx⟩ := id h
    rcases expandMethod_eq_ok hx with ⟨hnone, -⟩ | ⟨b₁, ⟨c', b, hc', hb, -⟩, -⟩
    · rw [hnone] at hc
      cases hc
    · rw [hc] at hc'
      cases hc'
      have hreworked : Reworked catalog lookup "" p r m (b.prepend []) :=
        h.reworked_of_none hc hb hq .nil
      exact quiet_of_settled hc hb (hreworked.settled hcatalog hp hm.insns)

/-- A method with its new body laid out has nothing left to expand. -/
theorem Reworked.quiet {b : Body} (hb : Reworked catalog lookup owner p q m b)
    (hcatalog : catalog.Plain) (hp : p.Closed) (hm : ∀ c, m.code? = some c → ∀ decoded,
      Insn.decode c.bytes = .ok decoded → ∀ x ∈ decoded, p.Inside x.2.constantIndex)
    {r : Pool} (hlaid : Laid className q r m b m') : Quiet catalog lookup r m' := by
  obtain ⟨s, signature, c', hqs, hsr, hlayout, hrecoded⟩ := hlaid
  have hsettled := (hb.mono (Pool.le_trans hqs hsr)).settled hcatalog hp hm
  obtain @⟨c, decoded, pre, xs, cs, e₁, e₂, -, hedit, ha, -⟩ := hb
  obtain ⟨b', f, hb', hf, -⟩ := exists_renames_of_layOut hedit ha.assigning hlayout
  refine quiet_of_settled hrecoded.code hb' ?_
  rw [hf.insns]
  exact Expander.settled_relabel hsettled

/-! ### Visiting again -/

/-- Nothing in the methods is expanded, type initializers behind the first left aside. The flag
tells that none has been found yet. -/
inductive Still (catalog : Catalog) (lookup : LookupMethod) (q : Pool) : Bool → List Member → Prop
  | nil {o : Bool} : Still catalog lookup q o []
  | cons {o : Bool} {m : Member} {ms : List Member} :
      q.isInitializer m = true ∧ o = false ∨ Quiet catalog lookup q m →
      Still catalog lookup q (o && !q.isInitializer m) ms → Still catalog lookup q o (m :: ms)

theorem deferred_found {i : Initializer} {k : Nat} : (i.found k).deferred = i.deferred := by
  unfold Initializer.found
  split <;> rfl

/-- A method in which nothing is expanded is visited without effect. -/
theorem visitMethod_of_quiet {progress : Progress}
    (h : e.pool.isInitializer m = true ∧ progress.initializer.isOpen = false ∨
      Quiet catalog lookup e.pool m) :
    ∃ progress', visitMethod catalog lookup progress m e = .ok (progress', e) ∧
      progress'.edits = progress.edits.push (m, none) ∧
      progress'.initializer.deferred = progress.initializer.deferred ∧
      progress'.initializer.isOpen =
        (progress.initializer.isOpen && !e.pool.isInitializer m) := by
  obtain ⟨edits, loads, i⟩ := progress
  unfold visitMethod
  simp only
  by_cases hpass : (e.pool.isInitializer m && !i.isOpen) = true
  · obtain ⟨hinit, ho⟩ := Bool.and_eq_true_iff.1 hpass
    have ho : i.isOpen = false := by simpa using ho
    rw [if_pos hpass]
    exact ⟨_, rfl, rfl, rfl, by simp [ho]⟩
  · have hquiet : Quiet catalog lookup e.pool m := by
      refine h.resolve_left fun hinit => hpass ?_
      rw [hinit.1, hinit.2]
      rfl
    rw [if_neg hpass, hquiet e rfl]
    refine ⟨_, rfl, rfl, ?_, ?_⟩
    · cases e.pool.isInitializer m with
      | true => exact deferred_found
      | false => rfl
    · cases e.pool.isInitializer m with
      | true => simp [Initializer.isOpen_found]
      | false => simp

/-- Visiting such methods changes nothing. -/
theorem visitMethods_of_still {progress : Progress} {o : Bool} {ms : List Member}
    (h : Still catalog lookup e.pool o ms) (ho : progress.initializer.isOpen = o) :
    ∃ progress', visitMethods catalog lookup progress e ms = .ok (progress', e) ∧
      progress'.edits.toList = progress.edits.toList ++ ms.map (fun m => (m, none)) ∧
      progress'.initializer.deferred = progress.initializer.deferred := by
  induction h generalizing progress with
  | nil => exact ⟨progress, rfl, by simp, rfl⟩
  | @cons o m ms hm _ ih =>
    subst ho
    obtain ⟨progress₁, hvisit, hedits, hdeferred, hopen⟩ := visitMethod_of_quiet hm
    obtain ⟨progress', hrest, hedits', hdeferred'⟩ := ih hopen
    refine ⟨progress', ?_, ?_, hdeferred'.trans hdeferred⟩
    · rw [visitMethods, hvisit]
      exact hrest
    · rw [hedits', hedits]
      simp

/-- After the first expansion nothing in the methods is expanded. -/
theorem Visits.still {o o' : Bool} {edits : List (Member × Option Body)} {ms tail : List Member}
    (h : Visits catalog lookup o e edits o' e') (he : e.Ready lookup) (hp : p ≤ e.pool)
    (hall : List.Forall₂ (fun x m' => (∀ r, p ≤ r → r.isInitializer x.1 = q.isInitializer m') ∧
      (Visited catalog lookup p e'.pool x.1 x.2 → Quiet catalog lookup q m')) edits ms)
    (htail : Still catalog lookup q o' tail) : Still catalog lookup q o (ms ++ tail) := by
  induction h generalizing ms with
  | nil =>
    cases hall
    exact htail
  | @passed o' e e' m edits hinit _ ih =>
    cases hall with
    | cons hx hall =>
      rw [hx.1 _ hp] at hinit
      exact .cons (.inl ⟨hinit, rfl⟩) (ih he hp hall htail)
  | @visited o o' e e₁ e' m n body edits _ hexpand hvisits ih =>
    cases hall with
    | cons hx hall =>
      obtain ⟨hg, hr⟩ := expandMethod_grown he hexpand
      have hrest := ih hr (Pool.le_trans hp hg.le) hall htail
      rw [hx.1 _ hp] at hrest
      exact .cons (.inr (hx.2 ⟨e, e₁, n, he, hp, (hvisits.grown hr).1.le, hexpand⟩)) hrest

/-! ### A class that nothing has to be done to -/

theorem finalize_of_deferred {i : Initializer} (h : i.deferred = #[]) :
    ∃ i', i.finalize catalog lookup className e = (.ok none, i', e) := by
  unfold Initializer.finalize
  split
  · exact ⟨i, rfl⟩
  · rw [h]
    exact ⟨_, rfl⟩

/-- Such a class stays as it is. -/
theorem ofNamed_of_still (hfields : ∀ f ∈ cls.fields, templateOf? catalog cls.pool f = none)
    (hmethods : Still catalog lookup cls.pool true cls.methods) :
    ofNamed catalog lookup cls className = .ok (.unchanged cls) := by
  let start : Progress := ⟨#[], 0, .new⟩
  let e : Expander := .ofPool cls.pool
  obtain ⟨progress, hvisit, hedits, hdeferred⟩ : ∃ progress,
      visitMethods catalog lookup start e cls.methods = .ok (progress, e) ∧
      progress.edits.toList = [] ++ cls.methods.map (fun m => (m, none)) ∧
      progress.initializer.deferred = #[] := visitMethods_of_still hmethods rfl
  obtain ⟨i, hfinal⟩ :
      ∃ i, progress.initializer.finalize catalog lookup className e = (.ok none, i, e) :=
    finalize_of_deferred hdeferred
  have hnone : (progress.edits.any fun edit => edit.2.isSome) = false := by
    rw [← Array.any_toList, hedits, List.any_eq_false]
    simp
  have hkept : progress.edits.toList.map (·.1) = cls.methods := by
    rw [hedits, List.nil_append, List.map_map]
    exact List.map_id _
  rw [ofNamed_eq]
  refine bind_eq_ok.2 ⟨_, deferFields_of_templateOf? hfields, bind_eq_ok.2 ⟨_, hvisit, ?_⟩⟩
  simp only [hfinal]
  refine bind_eq_ok.2 ⟨(none, e), rfl, bind_eq_ok.2 ⟨_, rfl, ?_⟩⟩
  unfold finish
  simp only [hnone, hkept]
  rfl

/-! ### The expansion of an expanded class -/

theorem isInitializer_eq_of_kept (h : p ≤ q) (hm : Kept p m) :
    q.isInitializer m = p.isInitializer m := by
  unfold Pool.isInitializer
  rw [Pool.utf8?_eq_of_inside h hm.name, Pool.utf8?_eq_of_inside h hm.descriptor]

theorem kept_of_closed (hcls : cls.Closed) (hm : m ∈ cls.methods) : Kept cls.pool m :=
  ⟨(hcls.methods m hm).1, (hcls.methods m hm).2, hcls.insns m hm⟩

/-- After the first expansion nothing in the methods of a class is expanded. -/
theorem Prepared.still {isOpen : Bool} {edits edits' : List (Member × Option Body)}
    {ms : List Member} (h : Prepared catalog lookup cls className isOpen edits edits' e e')
    (hcatalog : catalog.Plain) (hcls : cls.Closed) (hq : e'.pool ≤ q)
    (hall : List.Forall₂ (fun x m' => (x.2 = none ∧ m' = x.1) ∨
      ∃ b, x.2 = some b ∧ Laid className e'.pool q x.1 b m') edits' ms) :
    Still catalog lookup q true ms := by
  have he : (Expander.ofPool cls.pool).Ready lookup :=
    Expander.ready_ofPool (h.grown.bounded.of_le h.grown.le)
  have hpq := Pool.le_trans h.grown.le hq
  obtain ⟨front, new, rfl, hfront, hnew⟩ := h.injected
  obtain ⟨old, tail, rfl, hold, htail⟩ := exists_append_of_forall₂ hall
  have hkept : ∀ x ∈ edits, Kept cls.pool x.1 := by
    intro x hx
    refine kept_of_closed hcls ?_
    rw [← h.methods]
    exact List.mem_map_of_mem hx
  -- the methods of the class first, then the initializer that may have been added
  refine h.visits.still he (Pool.le_refl _) ?_ ?_
  · refine forall₂_trans ((List.forall₂_and_left _ _).2 ⟨hkept, hfront⟩) hold ?_
    rintro ⟨m, body⟩ ⟨m₁, body'⟩ m' ⟨hm, hm₁, hnone, hreworked⟩ hm'
    obtain rfl : m₁ = m := hm₁
    have hsame : q.isInitializer m' = q.isInitializer m₁ := by
      rcases hm' with ⟨-, rfl⟩ | ⟨b, -, hlaid⟩
      · rfl
      · exact hlaid.isInitializer
    refine ⟨fun r hr => ?_, fun hvisited => ?_⟩
    · exact (isInitializer_eq_of_kept hr hm).trans
        ((isInitializer_eq_of_kept hpq hm).symm.trans hsame.symm)
    · rcases hm' with ⟨hbody', rfl⟩ | ⟨b, hb, hlaid⟩
      · have hbody : body = none := hnone hbody'
        subst hbody
        exact Visited.quiet hvisited hcatalog hcls.pool hm (Pool.le_trans h.le hq)
      · exact (hreworked b hb).quiet hcatalog hcls.pool hm.insns hlaid
  · rcases hnew with rfl | ⟨-, m, b, rfl, hisNew, hreworked⟩
    · cases htail
      exact .nil
    · cases htail with
      | cons hm' htail =>
        cases htail
        rcases hm' with ⟨hnone, -⟩ | ⟨b', hb', hlaid⟩
        · cases hnone
        · cases hb'
          refine .cons (.inr (hreworked.quiet hcatalog hcls.pool (fun c hc => ?_) hlaid)) .nil
          rw [Member.code?, hisNew.attributes] at hc
          cases hc

end Expansion

section

open Expansion

/-- If no module and no key of the catalog holds a bound token, the expansion of an expanded class
leaves it as it is. -/
theorem ClassFile.expand_expanded {cls cls' : ClassFile} {catalog : Catalog}
    {lookup : LookupMethod} {summary : ExpansionSummary} (hcls : cls.Closed)
    (hcatalog : catalog.Plain)
    (h : cls.expand catalog lookup = .ok (.expanded cls' summary)) :
    cls'.expand catalog lookup = .ok (.unchanged cls') := by
  have he : (Expander.ofPool cls.pool).Ready lookup :=
    Expander.ready_ofPool (bounded_of_expand h).1
  unfold expand at h
  split at h
  · split at h
    · cases h
    · rename_i className hname
      obtain ⟨fields, cs, isOpen, edits, edits', e, e', done, e₂, hfields, hprepared, hdone, rfl⟩ :=
        ofNamed_eq_ok he h
      obtain ⟨hg, -, ms, hms, hall, -⟩ := finishMethods_eq_ok hprepared.ready hdone
      obtain rfl : done.methods.toList = ms := by simpa using hms
      have hle : cls.pool ≤ e₂.pool := (hprepared.grown.trans hg).le
      have hname' : cls.pool.className? cls.thisClass = some className := hname
      unfold expand
      split
      · simp only [name?, Pool.className?_mono hle hname']
        -- no method is expanded again, and no field holds a template any more
        refine ofNamed_of_still ?_ (hprepared.still hcatalog hcls hg.le hall)
        intro f' hf'
        obtain ⟨f, hf, hkept⟩ :=
          exists_left_of_forall₂ (deferFields_eq_ok hfields) hf'
        rcases hkept with ⟨hnone, rfl⟩ | rfl
        · obtain ⟨hd, hi⟩ := hcls.fields f' hf
          rw [templateOf?_eq_of_inside hle hcls.pool hd hi, hnone]
        · exact templateOf?_withoutConstant
      · rfl
  · cases h

theorem ClassFile.expand_expanded_field :
    ∃ (cls cls' : ClassFile) (summary : ExpansionSummary), cls.Closed ∧
      cls.expand ⟨#[⟨"app", "key", "\x60BuildConfig#m#v\x60"⟩]⟩ ⟨"Config", "get"⟩ =
        .ok (.expanded cls' summary) ∧
      cls'.expand ⟨#[⟨"app", "key", "\x60BuildConfig#m#v\x60"⟩]⟩ ⟨"Config", "get"⟩ =
        .ok (.unchanged cls') := by
  obtain ⟨c, summary, h, -⟩ := exists_expand_loopClass
  have hplain : loopCatalog.Plain :=
    List.forall_mem_singleton.2 ⟨by decide +kernel, by decide +kernel⟩
  exact ⟨loopClass, loopExpanded c, summary, loopClass_closed, h,
    ClassFile.expand_expanded loopClass_closed hplain h⟩

end

end ClassTemplates
