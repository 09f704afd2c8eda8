import ClassTemplates.Proofs.Class.Unchanged
import ClassTemplates.Proofs.Expansion.Agreement

/-!
# Unrelated bindings

What a class is expanded to depends on the bindings of the tokens in its own strings and on no other
binding. The pool takes in texts of the catalog while the class is still being read, but what is
read lies inside of the pool that the class came with. So with catalogs that agree on that pool
every step does the same, be it that it fails.

## Main results

- `Expander.expandOnto_eq_of_agreeOver` — instructions that stay inside of a pool
- `Expansion.visitMethods_eq_of_agreeOver` — the methods of a class
- `ClassFile.expand_eq_of_agreeOver` — the class
-/

namespace ClassTemplates

open Catalog (AgreeOver)

/-! ### Instructions -/

namespace Expander

variable {catalog catalog' : Catalog} {lookup : LookupMethod} {p : Pool} {e : Expander}

theorem expandInsn_eq_of_agreeOver {insn : Insn} {rest : List Insn}
    (h : AgreeOver catalog catalog' p) (hp : p.Closed) (hle : p ≤ e.pool)
    (hi : ∀ x ∈ insn :: rest, p.Inside x.constantIndex) :
    (expandInsn catalog lookup insn rest).run e = (expandInsn catalog' lookup insn rest).run e := by
  have hget : (MonadState.get : ExpanderM Expander).run e = (.ok e, e) := rfl
  rw [expandInsn, expandInsn, run_bind_ok hget, run_bind_ok hget]
  split
  · rename_i text htext
    -- the text was in the pool before anything was added
    rw [loadedText?_eq_of_inside hle hp hi] at htext
    obtain ⟨i, -, -, hvalue⟩ := exists_ldc_of_loadedText? htext
    rw [expand_eq_of_agreeOn (h i text hvalue)]
  · rfl

theorem expandOnto_eq_of_agreeOver {insns : List Insn} (h : AgreeOver catalog catalog' p)
    (hp : p.Closed) (hle : p ≤ e.pool) (hi : ∀ x ∈ insns, p.Inside x.constantIndex)
    (done : Array Insn) (n : Nat) :
    expandOnto catalog lookup done n insns e = expandOnto catalog' lookup done n insns e := by
  induction insns generalizing done n e with
  | nil => rfl
  | cons insn rest ih =>
    have hrest := fun x hx => hi x (List.mem_cons_of_mem insn hx)
    have hgrown : e.pool ≤ ((expandInsn catalog' lookup insn rest).run e).2.pool :=
      expandInsn_onlyAppends insn rest e
    rw [expandOnto, expandOnto, expandInsn_eq_of_agreeOver h hp hle hi]
    rcases hrun : (expandInsn catalog' lookup insn rest).run e with ⟨_ | _ | code, e₁⟩
    · rfl
    · rw [hrun] at hgrown
      exact ih (Pool.le_trans hle hgrown) hrest _ _
    · rw [hrun] at hgrown
      exact ih (Pool.le_trans hle hgrown) hrest _ _

theorem expandBody_eq_of_agreeOver {b : Body} (h : AgreeOver catalog catalog' p) (hp : p.Closed)
    (hle : p ≤ e.pool) (hi : ∀ x ∈ b.insns, p.Inside x.constantIndex) :
    (expandBody catalog lookup b).run e = (expandBody catalog' lookup b).run e :=
  run_bind_congr (run_bind_congr (expandOnto_eq_of_agreeOver h hp hle hi #[] 0))

end Expander

namespace Expansion

variable {catalog catalog' : Catalog} {lookup : LookupMethod} {className : String} {p : Pool}
  {e : Expander} {cls : ClassFile}

/-! ### Methods -/

theorem expandMethod_eq_of_agreeOver {m : Member} (h : AgreeOver catalog catalog' p)
    (hp : p.Closed) (hle : p ≤ e.pool) (hm : Kept p m) :
    expandMethod catalog lookup m e = expandMethod catalog' lookup m e := by
  unfold expandMethod
  split
  · rfl
  · rename_i c hc
    refine bind_congr_of_ok fun b hb => ?_
    obtain ⟨decoded, hreads, -, rfl⟩ := Body.ofCode_eq_ok.1 (mapError_eq_ok.1 hb)
    have hdecoded := hm.insns c hc decoded (Insn.decode_eq_ok.2 hreads)
    rw [Expander.expandBody_eq_of_agreeOver h hp hle (inside_placeLabels hdecoded)]

/-- What a method is depends on the pool alone, so it is passed over with both catalogs or with
neither. -/
theorem visitMethod_eq_of_agreeOver {m : Member} (h : AgreeOver catalog catalog' p)
    (hp : p.Closed) (hle : p ≤ e.pool) (hm : Kept p m) (progress : Progress) :
    visitMethod catalog lookup progress m e = visitMethod catalog' lookup progress m e := by
  rw [visitMethod, visitMethod, expandMethod_eq_of_agreeOver h hp hle hm]

theorem visitMethods_eq_of_agreeOver {ms : List Member} (h : AgreeOver catalog catalog' p)
    (hp : p.Closed) (hle : p ≤ e.pool) (hms : ∀ m ∈ ms, Kept p m) (progress : Progress) :
    visitMethods catalog lookup progress e ms = visitMethods catalog' lookup progress e ms := by
  induction ms generalizing progress e with
  | nil => rfl
  | cons m rest ih =>
    obtain ⟨hm, hrest⟩ := List.forall_mem_cons.1 hms
    rw [visitMethods, visitMethods, visitMethod_eq_of_agreeOver h hp hle hm]
    split
    · rfl
    · rename_i progress₁ e₁ hvisit
      have hone : visitMethods catalog' lookup progress e [m] = .ok (progress₁, e₁) := by
        rw [visitMethods, hvisit]
        rfl
      exact ih (Pool.le_trans hle (pool_le_of_visitMethods hone)) hrest progress₁

/-! ### Fields -/

theorem templateOf?_eq_of_agreeOver (h : AgreeOver catalog catalog' p) (f : Member) :
    templateOf? catalog p f = templateOf? catalog' p f := by
  refine Option.ext fun text => ?_
  rw [templateOf?_eq_some, templateOf?_eq_some]
  constructor
  · rintro ⟨hstatic, hfinal, hdescriptor, ⟨i, hi, hvalue⟩, hbound⟩
    rw [Catalog.bindsAny_eq_of_agreeOn (h i text hvalue)] at hbound
    exact ⟨hstatic, hfinal, hdescriptor, ⟨i, hi, hvalue⟩, hbound⟩
  · rintro ⟨hstatic, hfinal, hdescriptor, ⟨i, hi, hvalue⟩, hbound⟩
    rw [← Catalog.bindsAny_eq_of_agreeOn (h i text hvalue)] at hbound
    exact ⟨hstatic, hfinal, hdescriptor, ⟨i, hi, hvalue⟩, hbound⟩

theorem deferFields_eq_of_agreeOver (h : AgreeOver catalog catalog' p) (fields : List Member) :
    deferFields catalog p className fields = deferFields catalog' p className fields := by
  have hfield : deferField catalog p className = deferField catalog' p className := by
    funext f
    rw [deferField, deferField, templateOf?_eq_of_agreeOver h]
  rw [deferFields, deferFields, hfield]

/-- The texts that are deferred are strings of the pool. -/
theorem agreeOn_of_deferFields {fields fields' : List Member} {cs : List DeferredConstant}
    (h : AgreeOver catalog catalog' p)
    (hfields : deferFields catalog' p className fields = .ok (fields', cs)) :
    ∀ c ∈ cs, catalog.AgreeOn catalog' c.text := by
  intro c hc
  obtain ⟨f, -, hf⟩ := exists_left_of_forall₂ (deferFields_spec hfields).2 hc
  obtain ⟨i, -, hvalue⟩ := hf.text.value
  exact h i c.text hvalue

/-! ### Classes -/

theorem ofNamed_eq_of_agreeOver (hcls : cls.Closed) (h : AgreeOver catalog catalog' cls.pool) :
    ofNamed catalog lookup cls className = ofNamed catalog' lookup cls className := by
  rw [ofNamed_eq, ofNamed_eq, deferFields_eq_of_agreeOver h]
  refine bind_congr_of_ok fun ⟨fields, cs⟩ hfields => ?_
  rw [visitMethods_eq_of_agreeOver h hcls.pool (Pool.le_refl _)
    (fun m hm => kept_of_closed hcls hm)]
  refine bind_congr_of_ok fun ⟨progress, e⟩ hvisit => ?_
  have hdeferred : progress.initializer.deferred.toList = cs := by
    rw [(visitMethods_spec .start hvisit).2.1, deferred_foldl_defer]
    rfl
  rw [Initializer.finalize_eq_of_agreeOn (hdeferred ▸ agreeOn_of_deferFields h hfields)]

end Expansion

namespace ClassFile

/-- Bindings of tokens that do not occur in the strings of a class do not matter to it, as long as
its indices lie inside of its pool: with catalogs in which each token of these strings stands for
the same module and key, or for nothing, its expansion gives the same class and the same summary,
leaves the same class unchanged, or fails in the same way. -/
theorem expand_eq_of_agreeOver {catalog catalog' : Catalog} {cls : ClassFile} (hcls : cls.Closed)
    (h : AgreeOver catalog catalog' cls.pool) (lookup : LookupMethod) :
    cls.expand catalog lookup = cls.expand catalog' lookup := by
  unfold expand
  split
  · split
    · rfl
    · exact Expansion.ofNamed_eq_of_agreeOver hcls h
  · rfl

/-- The one string of the class with an initializer that loops holds one token. -/
theorem agreeOver_loopClass {catalog catalog' : Catalog}
    (h : catalog.AgreeOn catalog' "\x60BuildConfig#m#v\x60") :
    AgreeOver catalog catalog' loopClass.pool := by
  intro i text htext
  obtain ⟨j, hj, htext⟩ := Pool.stringValue?_eq_some.1 htext
  have hmem : Constant.string j ∈ loopClass.pool.slots.toList := Pool.mem_of_get? hj
  obtain rfl : j = 7 := by simpa [loopClass] using hmem
  cases htext
  exact h

theorem expand_eq_of_agreeOver_loop :
    let catalog : Catalog := ⟨#[⟨"lib", "other", "\x60BuildConfig#m#w\x60"⟩,
      ⟨"app", "key", "\x60BuildConfig#m#v\x60"⟩]⟩
    loopClass.Closed ∧ AgreeOver catalog loopCatalog loopClass.pool ∧
      loopClass.expand catalog loopLookup = loopClass.expand loopCatalog loopLookup ∧
      ∃ c summary,
        loopClass.expand catalog loopLookup = .ok (.expanded (loopExpanded c) summary) := by
  intro catalog
  have hagree : AgreeOver catalog loopCatalog loopClass.pool :=
    agreeOver_loopClass (by decide +kernel)
  have hsame := expand_eq_of_agreeOver loopClass_closed hagree loopLookup
  obtain ⟨c, summary, hexpand, -⟩ := exists_expand_loopClass
  exact ⟨loopClass_closed, hagree, hsame, c, summary, hsame.trans hexpand⟩

end ClassFile

end ClassTemplates
