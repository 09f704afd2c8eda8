import ClassTemplates.Proofs.Class.Changes
import ClassTemplates.Proofs.Expansion.Eligible

/-!
# Classes that stay as they are

The pass over a class fills a pool and strips fields before it is known whether anything changes.
All the same a class that is left unchanged is left exactly as it was, and this is so if and only if
it has neither a field nor a load to expand. Whether the pool holds a token at all is a shortcut to
the same answer.

## Main definitions

- `ClassFile.RepeatsInitializer` — a type initializer behind another one
- `ClassFile.HasTemplateField`, `HasEligibleLoad` — a class that something has to be done to

## Main results

- `Expansion.still_of_visitMethods` — visits without new bodies did nothing
- `Expansion.ofNamed_eq_unchanged_iff` — when the pass leaves a class as it is
- `ClassFile.expand_eq_unchanged_iff` — when the expansion does
-/

namespace ClassTemplates

/-! ### Methods -/

namespace Expansion

variable {catalog : Catalog} {lookup : LookupMethod} {className : String} {p q : Pool}
  {m : Member} {c : Code} {decoded : List (Nat × Insn)} {e e' : Expander} {cls cls' : ClassFile}
  {o : Bool} {ms : List Member} {progress progress' : Progress}

/-- A method in which no load is replaced has none to replace, and nothing was done for it. -/
theorem quiet_of_expandMethod {n : Nat}
    (h : expandMethod catalog lookup m e = .ok ((n, none), e')) :
    Quiet catalog lookup e.pool m ∧ e' = e := by
  rcases expandMethod_eq_ok h with ⟨hc, -, -, rfl⟩ | ⟨b₁, ⟨c, b, hc, hb, hx⟩, hnone⟩
  · exact ⟨quiet_of_code?_eq_none hc, rfl⟩
  · obtain rfl : n = 0 := by
      by_contra hne
      rw [if_neg hne] at hnone
      cases hnone
    obtain ⟨hsettled, rfl⟩ := Expander.settled_of_expandBody hx
    exact ⟨quiet_of_settled hc hb hsettled, rfl⟩

/-- Nothing in a method is expanded exactly if its code has no eligible load. -/
theorem quiet_iff {b : Body} (hc : m.code? = some c) (hb : Body.ofCode c = .ok b)
    (hd : Insn.decode c.bytes = .ok decoded) :
    Quiet catalog lookup p m ↔ ∀ k text, ¬ EligibleLoad catalog lookup p decoded k text := by
  obtain ⟨decoded', hreads, -, rfl⟩ := Body.ofCode_eq_ok.1 hb
  obtain rfl := Except.ok.inj ((Insn.decode_eq_ok.2 hreads).symm.trans hd)
  have hbody : Expander.Settled catalog lookup p (Body.decodedAs c decoded').insns ↔ _ :=
    Expander.settled_placeLabels hreads.wellShaped
  rw [← hbody]
  refine ⟨fun hquiet => ?_, fun hsettled => quiet_of_settled hc hb hsettled⟩
  have hrun := hquiet (.ofPool p) rfl
  rcases expandMethod_eq_ok hrun with ⟨hnone, -⟩ | ⟨b₁, ⟨c', b', hc', hb', hx⟩, -⟩
  · rw [hnone] at hc
    cases hc
  · rw [hc] at hc'
    cases hc'
    rw [hb] at hb'
    cases hb'
    exact (Expander.settled_of_expandBody hx).1

/-- Each method is quiet, or a type initializer behind another one. -/
theorem still_iff : Still catalog lookup q o ms ↔ ∀ (k : Nat) (m : Member), ms[k]? = some m →
    Quiet catalog lookup q m ∨ q.isInitializer m = true ∧
      (o = false ∨ ∃ j < k, ∃ m', ms[j]? = some m' ∧ q.isInitializer m' = true) := by
  induction ms generalizing o with
  | nil => exact iff_of_true .nil (by simp)
  | cons m ms ih =>
    constructor
    · intro h
      cases h with
      | cons hm hrest =>
        rintro (_ | k) m' hk
        · cases hk
          exact hm.symm.imp_right fun h => ⟨h.1, .inl h.2⟩
        · refine (ih.1 hrest k m' (by simpa using hk)).imp_right fun ⟨hinit, hbehind⟩ =>
            ⟨hinit, ?_⟩
          rcases hbehind with ho | ⟨j, hj, m'', hm'', hinit'⟩
          · rcases Bool.and_eq_false_iff.1 ho with ho | hinit'
            · exact .inl ho
            · exact .inr ⟨0, Nat.succ_pos k, m, rfl, by simpa using hinit'⟩
          · exact .inr ⟨j + 1, by omega, m'', by simpa using hm'', hinit'⟩
    · intro h
      refine .cons ?_ (ih.2 fun k m' hk => ?_)
      · refine (h 0 m rfl).symm.imp_left fun ⟨hinit, hbehind⟩ => ⟨hinit, ?_⟩
        exact hbehind.resolve_right fun ⟨j, hj, _⟩ => Nat.not_lt_zero j hj
      · refine (h (k + 1) m' (by simpa using hk)).imp_right fun ⟨hinit, hbehind⟩ => ⟨hinit, ?_⟩
        rcases hbehind with ho | ⟨_ | j, hj, m'', hm'', hinit'⟩
        · exact .inl (by simp [ho])
        · cases hm''
          exact .inl (by simp [hinit'])
        · exact .inr ⟨j, by omega, m'', by simpa using hm'', hinit'⟩

/-! ### The pass over the methods -/

/-- The type initializer has not been dealt with, and if it was found it is one of the methods. -/
structure Progress.Sound (progress : Progress) : Prop where
  waiting : progress.initializer.Waiting
  found : ∀ k, progress.initializer.state = .found k → k < progress.edits.size

theorem Progress.Sound.start {cs : List DeferredConstant} :
    Progress.Sound ⟨#[], 0, cs.foldl Initializer.defer .new⟩ := by
  have hstate : (cs.foldl Initializer.defer .new).state = .notStarted := state_foldl_defer
  refine ⟨.inl hstate, fun k hk => ?_⟩
  rw [hstate] at hk
  cases hk

theorem Progress.Sound.visitMethod (hp : progress.Sound)
    (h : visitMethod catalog lookup progress m e = .ok (progress', e')) : progress'.Sound := by
  obtain ⟨n, body, hedits, -, hinit, -⟩ := visitMethod_eq_ok h
  have hsize : progress'.edits.size = progress.edits.size + 1 := by
    rw [hedits, Array.size_push]
  rcases hinit with hinit | ⟨-, hinit⟩
  · exact ⟨hinit ▸ hp.waiting, fun k hk => hsize ▸ Nat.lt_succ_of_lt (hp.found k (hinit ▸ hk))⟩
  · rcases hp.waiting with hs | ⟨j, hs⟩
    · have hfound : progress'.initializer.state = .found progress.edits.size := by
        rw [hinit, Initializer.found, hs]
      refine ⟨.inr ⟨_, hfound⟩, fun k hk => ?_⟩
      rw [hfound] at hk
      cases hk
      omega
    · have hkept : progress'.initializer.state = .found j := by
        rw [hinit, Initializer.found, hs]
        exact hs
      refine ⟨.inr ⟨j, hkept⟩, fun k hk => ?_⟩
      rw [hkept] at hk
      cases hk
      exact hsize ▸ Nat.lt_succ_of_lt (hp.found j hs)

/-- Visits add an edit for each method and keep what is deferred. -/
theorem visitMethods_spec (hp : progress.Sound)
    (h : visitMethods catalog lookup progress e ms = .ok (progress', e')) :
    progress'.Sound ∧ progress'.initializer.deferred = progress.initializer.deferred ∧
      ∃ edits, edits.map (·.1) = ms ∧ progress'.edits.toList = progress.edits.toList ++ edits := by
  induction ms generalizing progress e with
  | nil =>
    cases h
    exact ⟨hp, rfl, [], rfl, by simp⟩
  | cons m ms ih =>
    rw [visitMethods] at h
    split at h
    · cases h
    · rename_i progress₁ e₁ hvisit
      obtain ⟨n, body, hedits, -, hinit, -⟩ := visitMethod_eq_ok hvisit
      have hdeferred : progress₁.initializer.deferred = progress.initializer.deferred := by
        rcases hinit with hinit | ⟨-, hinit⟩
        · rw [hinit]
        · rw [hinit, deferred_found]
      obtain ⟨hsound', hdeferred', edits, rfl, hlist⟩ := ih (hp.visitMethod hvisit) h
      exact ⟨hsound', hdeferred'.trans hdeferred, (m, body) :: edits, rfl, by simp [hlist, hedits]⟩

/-- Visits that give no method a new body did nothing, and found nothing to do. -/
theorem still_of_visitMethods
    (h : visitMethods catalog lookup progress e ms = .ok (progress', e'))
    (hnone : ∀ x ∈ progress'.edits.toList, x.2 = none) (hp : progress.Sound) :
    Still catalog lookup e.pool progress.initializer.isOpen ms ∧ e' = e := by
  induction ms generalizing progress e with
  | nil =>
    cases h
    exact ⟨.nil, rfl⟩
  | cons m ms ih =>
    rw [visitMethods] at h
    split at h
    · cases h
    · rename_i progress₁ e₁ hvisit
      obtain ⟨n, body, hedits, -, -, hopen, hcases⟩ := visitMethod_eq_ok hvisit
      have hsound := hp.visitMethod hvisit
      obtain ⟨-, -, edits, -, hlist⟩ := visitMethods_spec hsound h
      have hbody : body = none := hnone (m, body) (by simp [hlist, hedits])
      obtain ⟨hrest, rfl⟩ := ih h hsound
      rw [hopen] at hrest
      subst hbody
      rcases hcases with ⟨hinit, hclosed, -, -, rfl⟩ | ⟨-, hx⟩
      · exact ⟨.cons (.inl ⟨hinit, hclosed⟩) hrest, rfl⟩
      · obtain ⟨hquiet, rfl⟩ := quiet_of_expandMethod hx
        exact ⟨.cons (.inr hquiet) hrest, rfl⟩

/-! ### The pass over a class -/

/-- Assignments of deferred constants are put somewhere. -/
theorem exists_inject_of_finalize {i i' : Initializer} {injection : Option Injection}
    (hi : i.Waiting) (hdeferred : i.deferred ≠ #[])
    (h : i.finalize catalog lookup className e = (.ok injection, i', e')) :
    ∃ insns, injection = some (Initializer.inject i.state insns) := by
  cases Initializer.finalizes h with
  | ended hover => exact absurd hover (Initializer.waiting_iff.1 hi)
  | nothing _ hempty => exact absurd hempty hdeferred
  | made => exact ⟨_, rfl⟩

/-- With assignments put in, some method has a new body. -/
theorem exists_body_of_applyInjection {i : Initializer} {insns : List Insn} {edits edits' : Edits}
    {change : Option InitializerChange} (hi : i.Waiting)
    (hfound : ∀ k, i.state = .found k → k < edits.size)
    (h : applyInjection className edits e (some (Initializer.inject i.state insns)) =
      .ok ((edits', change), e')) : ∃ x ∈ edits'.toList, x.2.isSome = true := by
  rcases hi with hs | ⟨k, hs⟩
  · -- a new initializer has a body
    rw [hs] at h
    obtain ⟨⟨m, e₁⟩, -, h⟩ := bind_eq_ok.1 h
    cases h
    refine ⟨(m, some (Body.ofInsns 0 (insns ++ [.op Opcode.voidReturn]))), ?_, rfl⟩
    rw [Array.toList_push]
    exact List.mem_append_right _ List.mem_cons_self
  · rw [hs] at h
    obtain ⟨edits₁, hprepend, h⟩ := bind_eq_ok.1 h
    cases h
    have hk : k < edits.size := hfound k hs
    rcases prependAt_eq_ok hprepend with ⟨hnone, -⟩ | ⟨m, body, b, -, rfl, -⟩
    · rw [Array.getElem?_eq_getElem hk] at hnone
      cases hnone
    · refine ⟨(m, some (b.prepend insns)), ?_, rfl⟩
      rw [Array.toList_setIfInBounds]
      exact List.mem_of_getElem? (List.getElem?_set_self (by simpa using hk))

theorem finish_eq_unchanged {summary : ExpansionSummary} {edits : Edits}
    (h : finish cls summary edits e = .ok (.unchanged cls')) :
    (∀ x ∈ edits.toList, x.2 = none) ∧
      cls' = { cls with pool := e.pool, methods := edits.toList.map (·.1) } := by
  unfold finish at h
  split at h
  · obtain ⟨⟨done, e₁⟩, -, h⟩ := bind_eq_ok.1 h
    obtain ⟨u, -, h⟩ := bind_eq_ok.1 h
    cases h
  · rename_i hnone
    cases h
    refine ⟨fun x hx => ?_, rfl⟩
    rw [← Array.any_toList, Bool.not_eq_true, List.any_eq_false] at hnone
    simpa using hnone x hx

/-- Where no method has a new body in the end, no constant was deferred. -/
theorem Progress.Sound.deferred_eq (hp : progress.Sound) {i' : Initializer}
    {injection : Option Injection} {edits : Edits} {change : Option InitializerChange}
    {e₁ e₂ : Expander}
    (hfinal : progress.initializer.finalize catalog lookup className e = (.ok injection, i', e₁))
    (hinject : applyInjection className progress.edits e₁ injection = .ok ((edits, change), e₂))
    (hnone : ∀ x ∈ edits.toList, x.2 = none) : progress.initializer.deferred = #[] := by
  by_contra hne
  obtain ⟨insns, rfl⟩ := exists_inject_of_finalize hp.waiting hne hfinal
  obtain ⟨x, hx, hsome⟩ := exists_body_of_applyInjection hp.waiting hp.found hinject
  rw [hnone x hx] at hsome
  cases hsome

/-- Fields from which nothing is deferred hold no templates. -/
theorem templateOf?_of_deferFields {p : Pool} {fields fields' : List Member}
    (h : deferFields catalog p className fields = .ok (fields', [])) :
    ∀ f ∈ fields, templateOf? catalog p f = none := by
  intro f hf
  have hfilter := List.forall₂_nil_right_iff.1 (deferFields_spec h).2
  have hnot := List.filter_eq_nil_iff.1 hfilter f hf
  simpa using hnot

/-- The pass leaves a class as it is exactly if no field and no method has to be expanded. -/
theorem ofNamed_eq_unchanged_iff :
    ofNamed catalog lookup cls className = .ok (.unchanged cls') ↔ cls' = cls ∧
      (∀ f ∈ cls.fields, templateOf? catalog cls.pool f = none) ∧
      Still catalog lookup cls.pool true cls.methods := by
  constructor
  · intro h
    rw [ofNamed_eq] at h
    obtain ⟨⟨fields, cs⟩, hfields, h⟩ := bind_eq_ok.1 h
    obtain ⟨⟨progress, e⟩, hvisit, h⟩ := bind_eq_ok.1 h
    obtain ⟨⟨injection, e₁⟩, hfinal, h⟩ := bind_eq_ok.1 h
    obtain ⟨⟨⟨edits, change⟩, e₂⟩, hinject, hfinish⟩ := bind_eq_ok.1 h
    obtain ⟨hnone, hcls⟩ := finish_eq_unchanged hfinish
    simp only at hvisit hfinal hinject hcls
    obtain ⟨hresult, hpool⟩ := Prod.mk.inj (lift_eq_ok.1 hfinal)
    have hfinal : progress.initializer.finalize catalog lookup className e =
        (.ok injection, _, e₁) := Prod.ext hresult (Prod.ext rfl hpool)
    have hstart : Progress.Sound ⟨#[], 0, cs.foldl Initializer.defer .new⟩ := .start
    obtain ⟨hsound, hdeferred, edits₁, hmethods, hlist⟩ := visitMethods_spec hstart hvisit
    have hempty := hsound.deferred_eq hfinal hinject hnone
    have hcs : cs = [] := by
      have hlist : (cs.foldl Initializer.defer .new).deferred.toList = [] ++ cs :=
        deferred_foldl_defer
      rw [← hdeferred, hempty] at hlist
      exact hlist.symm
    subst hcs
    have hfields' := templateOf?_of_deferFields hfields
    obtain ⟨i, hfinal'⟩ : ∃ i, progress.initializer.finalize catalog lookup className e =
        (.ok none, i, e) := finalize_of_deferred hempty
    rw [hfinal'] at hfinal
    cases hfinal
    cases hinject
    -- nothing is put in, so a method has a new body only if the visit gave it one
    obtain ⟨hstill, rfl⟩ := still_of_visitMethods hvisit hnone hstart
    refine ⟨?_, hfields', hstill⟩
    rw [deferFields_of_templateOf? hfields'] at hfields
    cases hfields
    rw [List.nil_append] at hlist
    rw [hcls, hlist, hmethods]
    rfl
  · rintro ⟨rfl, hfields, hmethods⟩
    exact ofNamed_of_still hfields hmethods

end Expansion

/-! ### Classes -/

namespace ClassFile

open Expansion

variable {catalog : Catalog} {lookup : LookupMethod} {cls : ClassFile} {name : String}

/-- The method at an index is a type initializer behind another one. -/
def RepeatsInitializer (cls : ClassFile) (k : Nat) : Prop :=
  ∃ m, cls.methods[k]? = some m ∧ cls.pool.isInitializer m = true ∧
    ∃ j < k, ∃ m', cls.methods[j]? = some m' ∧ cls.pool.isInitializer m' = true

/-- Some field holds a template. -/
def HasTemplateField (catalog : Catalog) (cls : ClassFile) : Prop :=
  ∃ f ∈ cls.fields, ∃ text, f.HoldsTemplate catalog cls.pool text

/-- There is an eligible load in some method that is no repeated type initializer. -/
def HasEligibleLoad (catalog : Catalog) (lookup : LookupMethod) (cls : ClassFile) : Prop :=
  ∃ k m c decoded, cls.methods[k]? = some m ∧ ¬ cls.RepeatsInitializer k ∧ m.code? = some c ∧
    Insn.decode c.bytes = .ok decoded ∧
    ∃ j text, EligibleLoad catalog lookup cls.pool decoded j text

/-- Every method with code can be taken apart. -/
def Decodes (cls : ClassFile) : Prop :=
  ∀ m ∈ cls.methods, ∀ c, m.code? = some c → ∃ b, Body.ofCode c = .ok b

theorem not_hasTemplateField_iff : ¬ cls.HasTemplateField catalog ↔
    ∀ f ∈ cls.fields, templateOf? catalog cls.pool f = none := by
  simp only [HasTemplateField, not_exists, not_and, Option.eq_none_iff_forall_ne_some, ne_eq,
    templateOf?_eq_some]

theorem not_hasEligibleLoad_iff (hcls : cls.Decodes) : ¬ cls.HasEligibleLoad catalog lookup ↔
    Still catalog lookup cls.pool true cls.methods := by
  rw [still_iff]
  constructor
  · intro h k m hk
    by_cases hrepeats : cls.RepeatsInitializer k
    · obtain ⟨m', hk', hinit, hbehind⟩ := hrepeats
      rw [hk] at hk'
      cases hk'
      exact .inr ⟨hinit, .inr hbehind⟩
    · left
      cases hc : m.code? with
      | none => exact quiet_of_code?_eq_none hc
      | some c =>
        obtain ⟨b, hb⟩ := hcls m (List.mem_of_getElem? hk) c hc
        obtain ⟨decoded, hreads, -⟩ := Body.ofCode_eq_ok.1 hb
        have hd := Insn.decode_eq_ok.2 hreads
        exact (quiet_iff hc hb hd).2 fun j text hload =>
          h ⟨k, m, c, decoded, hk, hrepeats, hc, hd, j, text, hload⟩
  · rintro h ⟨k, m, c, decoded, hk, hrepeats, hc, hd, j, text, hload⟩
    rcases h k m hk with hquiet | ⟨hinit, hbehind⟩
    · obtain ⟨b, hb⟩ := hcls m (List.mem_of_getElem? hk) c hc
      exact (quiet_iff hc hb hd).1 hquiet j text hload
    · exact hrepeats ⟨m, hk, hinit, hbehind.resolve_left (by simp)⟩

/-- In a pool without tokens no string holds one. -/
theorem not_occursIn_of_not_hasToken {p : Pool} {i : UInt16} {text : String}
    (h : p.hasToken = false) (htext : p.stringValue? i = some text) :
    Token.occursIn text = false := by
  unfold Pool.stringValue? at htext
  split at htext
  · rename_i t ht
    rw [Pool.hasToken, ← Array.any_toList, List.any_eq_false] at h
    have hno := h _ (Pool.mem_of_get? ht)
    simp only [htext, Option.map_some, Option.getD_some, Bool.not_eq_true] at hno
    exact hno
  · cases htext

theorem bindsAny_of_not_hasToken {p : Pool} {i : UInt16} {text : String} (h : p.hasToken = false)
    (htext : p.stringValue? i = some text) : catalog.bindsAny text = false :=
  Catalog.bindsAny_eq_false_of_not_occursIn (not_occursIn_of_not_hasToken h htext)

/-- There is nothing to expand in a class whose pool holds no token. -/
theorem not_has_of_not_hasToken (h : cls.pool.hasToken = false) :
    ¬ cls.HasTemplateField catalog ∧ ¬ cls.HasEligibleLoad catalog lookup := by
  constructor
  · rintro ⟨f, -, text, hf⟩
    obtain ⟨i, -, hvalue⟩ := hf.value
    have hbound := hf.bound
    rw [bindsAny_of_not_hasToken h hvalue] at hbound
    cases hbound
  · rintro ⟨k, m, c, decoded, -, -, -, -, j, text, hload⟩
    obtain ⟨o, i, -, hvalue⟩ := hload.load
    have hbound := hload.bound
    rw [bindsAny_of_not_hasToken h hvalue] at hbound
    cases hbound

/-- An unchanged class is the class itself. A class with a name whose methods can be taken apart is
left unchanged exactly if it has neither a field that holds a template nor an eligible load, and the
shortcut for pools without tokens gives what the pass over the class gives. -/
theorem expand_eq_unchanged_iff (catalog : Catalog) (lookup : LookupMethod) (cls : ClassFile) :
    (∀ cls', cls.expand catalog lookup = .ok (.unchanged cls') → cls' = cls) ∧
    ∀ name, cls.name? = some name → cls.Decodes →
      ((∃ cls', cls.expand catalog lookup = .ok (.unchanged cls')) ↔
        ¬ cls.HasTemplateField catalog ∧ ¬ cls.HasEligibleLoad catalog lookup) ∧
      cls.expand catalog lookup = ofNamed catalog lookup cls name := by
  refine ⟨fun cls' h => ?_, fun name hname hcls => ?_⟩
  · unfold expand at h
    split at h
    · split at h
      · cases h
      · exact (ofNamed_eq_unchanged_iff.1 h).1
    · cases h
      rfl
  · have hpass : ofNamed catalog lookup cls name = .ok (.unchanged cls) ↔
        ¬ cls.HasTemplateField catalog ∧ ¬ cls.HasEligibleLoad catalog lookup := by
      rw [ofNamed_eq_unchanged_iff, not_hasTemplateField_iff, not_hasEligibleLoad_iff hcls,
        and_iff_right rfl]
    have hshortcut : cls.expand catalog lookup = ofNamed catalog lookup cls name := by
      unfold expand
      cases htoken : cls.pool.hasToken with
      | true => rw [hname]; rfl
      | false => exact (hpass.2 (not_has_of_not_hasToken htoken)).symm
    refine ⟨?_, hshortcut⟩
    rw [← hpass, hshortcut]
    refine ⟨fun ⟨cls', h⟩ => ?_, fun h => ⟨cls, h⟩⟩
    obtain rfl := (ofNamed_eq_unchanged_iff.1 h).1
    exact h

/-- A type initializer that does nothing. -/
def bareInitializer : Member :=
  ⟨Access.isStatic, 3, 4, [⟨7, .code bareCode⟩]⟩

/-- A type initializer that loads a token, and drops it. -/
def droppingInitializer : Member :=
  ⟨Access.isStatic, 3, 4, [⟨7, .code ⟨1, 0, [0x12, 6, 0x57, 0xb1], [], []⟩⟩]⟩

/-- A class with type initializers of which some load a token. -/
def classOfInitializers (methods : List Member) : ClassFile :=
  { ClassFile.empty with
    pool := ⟨#[.utf8 "A", .class 1, .utf8 "<clinit>", .utf8 "()V",
      .utf8 "\x60BuildConfig#m#v\x60", .string 5, .utf8 "Code"]⟩
    thisClass := 2
    methods := methods }

theorem expand_eq_unchanged_iff_repeated :
    (classOfInitializers [bareInitializer, droppingInitializer]).pool.hasToken = true ∧
    (∃ cls', (classOfInitializers [bareInitializer, droppingInitializer]).expand loopCatalog
      loopLookup = .ok (.unchanged cls')) ∧
    ¬∃ cls', (classOfInitializers [droppingInitializer]).expand loopCatalog loopLookup =
      .ok (.unchanged cls') := by
  have hbare : Insn.decode bareCode.bytes = .ok [(0, .op 0xb1)] := by decide +kernel
  have hdrop : Insn.decode [0x12, 6, 0x57, 0xb1] =
      .ok [(0, .ldc 6), (2, .op 0x57), (3, .op 0xb1)] := by decide +kernel
  have hbareBody : ∃ b, Body.ofCode bareCode = .ok b :=
    ⟨_, Body.ofCode_eq_ok.2
      ⟨_, Insn.decode_eq_ok.1 hbare, fun _ h => (List.not_mem_nil h).elim, rfl⟩⟩
  have hdropBody : ∃ b, Body.ofCode ⟨1, 0, [0x12, 6, 0x57, 0xb1], [], []⟩ = .ok b :=
    ⟨_, Body.ofCode_eq_ok.2
      ⟨_, Insn.decode_eq_ok.1 hdrop, fun _ h => (List.not_mem_nil h).elim, rfl⟩⟩
  have hinit : (classOfInitializers []).pool.isInitializer bareInitializer = true := by
    decide +kernel
  have hinit' : (classOfInitializers []).pool.isInitializer droppingInitializer = true := by
    decide +kernel
  refine ⟨by decide +kernel, ?_, ?_⟩
  · have hdecodes : (classOfInitializers [bareInitializer, droppingInitializer]).Decodes := by
      refine List.forall_mem_cons.2 ⟨?_, List.forall_mem_singleton.2 ?_⟩
      · rintro c ⟨⟩
        exact hbareBody
      · rintro c ⟨⟩
        exact hdropBody
    have hspec := (expand_eq_unchanged_iff loopCatalog loopLookup
      (classOfInitializers [bareInitializer, droppingInitializer])).2 "A" rfl hdecodes
    refine hspec.1.2 ⟨fun ⟨f, hf, _⟩ => (List.not_mem_nil hf).elim, ?_⟩
    rintro ⟨_ | _ | k, m, c, decoded, hk, hrepeats, hc, hd, j, text, hload⟩
    · cases hk
      cases hc
      rw [hbare] at hd
      cases hd
      obtain ⟨o, i, hj, -⟩ := hload.load
      match j, hj with
      | 0, hj => cases hj
    · exact hrepeats ⟨droppingInitializer, rfl, hinit', 0, Nat.one_pos, bareInitializer, rfl, hinit⟩
    · cases hk
  · have hdecodes : (classOfInitializers [droppingInitializer]).Decodes := by
      refine List.forall_mem_singleton.2 ?_
      rintro c ⟨⟩
      exact hdropBody
    have hspec := (expand_eq_unchanged_iff loopCatalog loopLookup
      (classOfInitializers [droppingInitializer])).2 "A" rfl hdecodes
    intro h
    refine (hspec.1.1 h).2 ⟨0, _, _, _, rfl, ?_, rfl, hdrop, 0, "\x60BuildConfig#m#v\x60", ?_⟩
    · rintro ⟨m, -, -, j, hj, -⟩
      exact Nat.not_lt_zero j hj
    · refine ⟨⟨0, 6, rfl, rfl⟩, by decide +kernel, ?_⟩
      rintro o i ⟨⟩

end ClassFile

end ClassTemplates
