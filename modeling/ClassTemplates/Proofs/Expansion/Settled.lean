import ClassTemplates.Proofs.Body.Redecoding
import ClassTemplates.Proofs.Expansion.Initializer
import ClassTemplates.Proofs.Expansion.Segments
import ClassTemplates.Proofs.Expansion.Splices

/-!
# Instructions without eligible loads

Expanding instructions none of whose loads is eligible changes nothing. The code of an expansion is
of this kind: what it loads has no bound token in it, except for the fallback of a lookup, which
goes to the lookup method. So are kept loads, since an expansion does not change which call they
feed.

## Main definitions

- `Catalog.Plain` — modules and keys without bound tokens
- `Expander.Settled` — instructions without eligible loads

## Main results

- `Expander.expandBody_of_settled` — expanding such a body changes nothing
- `Builds.settled_append`, `Assigns.settled_append` — the code of expansions and assignments
- `Expander.settled_after` — instructions whose loads have been replaced
-/

namespace ClassTemplates

/-- No module and no key of a binding holds a bound token. -/
def Catalog.Plain (catalog : Catalog) : Prop :=
  ∀ b ∈ catalog.toList, catalog.bindsAny b.moduleId = false ∧ catalog.bindsAny b.key = false

namespace Expander

variable {catalog : Catalog} {lookup : LookupMethod} {p q : Pool} {e : Expander} {insn : Insn}
  {rest code xs ys : List Insn} {text : String}

/-- No load among the instructions is eligible. -/
def Settled (catalog : Catalog) (lookup : LookupMethod) (p : Pool) : List Insn → Prop
  | [] => True
  | insn :: rest => eligible? catalog lookup p insn rest = none ∧ Settled catalog lookup p rest

/-! ### Expanding settled instructions -/

theorem expand_of_not_bindsAny (h : catalog.bindsAny text = false) :
    (expand catalog lookup text).run e = (.ok none, e) := by
  have hany : (Segment.ofText catalog text).any Segment.isBound = false := h
  unfold expand
  simp only [hany]
  rfl

theorem expandInsn_of_eligible? (h : eligible? catalog lookup e.pool insn rest = none) :
    (expandInsn catalog lookup insn rest).run e = (.ok none, e) := by
  refine run_bind_eq_ok.2 ⟨e, e, rfl, ?_⟩
  split
  · rename_i text htext
    rw [eligible?, htext, Option.filter_eq_none_iff] at h
    exact expand_of_not_bindsAny (Bool.eq_false_iff.2 (h text rfl))
  · rfl

theorem expandOnto_of_settled {insns : List Insn} {done : Array Insn} {count : Nat}
    (h : Settled catalog lookup e.pool insns) :
    expandOnto catalog lookup done count insns e = (.ok (count, done ++ insns), e) := by
  induction insns generalizing done with
  | nil => simp [expandOnto]
  | cons insn rest ih =>
    rw [expandOnto, expandInsn_of_eligible? h.1]
    simp only
    rw [ih h.2]
    simp

/-- A body without eligible loads stays as it is. -/
theorem expandBody_of_settled {b : Body} (h : Settled catalog lookup e.pool b.insns) :
    (expandBody catalog lookup b).run e = (.ok (0, b), e) := by
  have honto : expandOnto catalog lookup #[] 0 b.insns e = (.ok (0, b.insns.toArray), e) := by
    rw [expandOnto_of_settled h]
    simp
  exact run_bind_eq_ok.2
    ⟨(0, b.insns), e, run_bind_eq_ok.2 ⟨(0, b.insns.toArray), e, honto, rfl⟩, rfl⟩

/-! ### Loads -/

theorem eligible?_of_not_ldc (h : ∀ i, insn ≠ .ldc i) :
    eligible? catalog lookup p insn rest = none := by
  cases insn with
  | ldc i => exact absurd rfl (h i)
  | _ => rfl

theorem eligible?_eq_none_of_feedsLookup (h : feedsLookup lookup p rest = true) :
    eligible? catalog lookup p insn rest = none := by
  cases insn with
  | ldc i => simp [eligible?, loadedText?, h]
  | _ => rfl

theorem feedsLookup_cons {m : BuilderMembers} (hm : m.Resolves lookup p) :
    feedsLookup lookup p (.invoke Opcode.invokestatic m.lookup :: rest) = true := by
  have hlookup : isLookup lookup p m.lookup = true := by simp [isLookup, hm.lookup]
  exact hlookup

end Expander

/-! ### Emitted code -/

section

open Expander

variable {catalog : Catalog} {lookup : LookupMethod} {owner text : String} {p : Pool} {insn : Insn}
  {code rest : List Insn}

/-- A load of a text without bound tokens is not eligible. -/
theorem Loads.eligible?_eq_none (h : Loads p text insn) (hb : catalog.bindsAny text = false) :
    eligible? catalog lookup p insn rest = none := by
  obtain ⟨i, rfl, ht⟩ := h
  cases hf : feedsLookup lookup p rest with
  | true => exact eligible?_eq_none_of_feedsLookup hf
  | false => simp [eligible?, loadedText?, hf, ht, hb, Option.filter]

/-- What is pushed for a segment of a text is settled, in front of settled instructions that do not
start with a load of their own. -/
theorem Pushes.settled_append {m : BuilderMembers} {s : Segment} (hm : m.Resolves lookup p)
    (hcatalog : catalog.Plain) (hs : s.Stands catalog) (h : Pushes m p s code)
    (hrest : Settled catalog lookup p rest) : Settled catalog lookup p (code ++ rest) := by
  cases h with
  | literal hx => exact ⟨hx.eligible?_eq_none (Catalog.bindsAny_literal hs), hrest⟩
  | unbound hx => exact ⟨hx.eligible?_eq_none (Catalog.bindsAny_unbound hs), hrest⟩
  | @bound b x y z hx hy hz =>
    obtain ⟨hmodule, hkey⟩ := hcatalog b (Array.mem_toList_iff.2 (Array.mem_of_find?_eq_some hs.2))
    refine ⟨hx.eligible?_eq_none hmodule, hy.eligible?_eq_none hkey, ?_, ?_, hrest⟩
    · exact eligible?_eq_none_of_feedsLookup (feedsLookup_cons hm)
    · exact eligible?_of_not_ldc fun i => Insn.noConfusion

theorem Appends.settled_append {m : BuilderMembers} {ss : List Segment} (hm : m.Resolves lookup p)
    (hcatalog : catalog.Plain) (hs : ∀ s ∈ ss, s.Stands catalog) (h : Appends m p ss code)
    (hrest : Settled catalog lookup p rest) : Settled catalog lookup p (code ++ rest) := by
  induction h with
  | nil => exact hrest
  | cons hpush _ ih =>
    rw [List.forall_mem_cons] at hs
    rw [List.append_assoc]
    exact hpush.settled_append hm hcatalog hs.1
      ⟨eligible?_of_not_ldc fun i => Insn.noConfusion, ih hs.2⟩

/-- The code that builds the value of a text is settled. -/
theorem Builds.settled_append (hcatalog : catalog.Plain)
    (h : Builds lookup p (Segment.ofText catalog text) code)
    (hrest : Settled catalog lookup p rest) : Settled catalog lookup p (code ++ rest) := by
  obtain ⟨m, middle, hm, ha, rfl⟩ := h
  have hno {insn : Insn} {rest : List Insn} (h : ∀ i, insn ≠ .ldc i) :
      eligible? catalog lookup p insn rest = none := eligible?_of_not_ldc h
  rw [List.append_assoc, List.append_assoc]
  have hmiddle : Settled catalog lookup p
      (middle ++ ([.invoke Opcode.invokevirtual m.toText] ++ rest)) :=
    ha.settled_append hm hcatalog (fun s hs => Segment.stands_of_mem hs)
      ⟨hno fun i => Insn.noConfusion, hrest⟩
  exact ⟨hno fun i => Insn.noConfusion, hno fun i => Insn.noConfusion,
    hno fun i => Insn.noConfusion, hmiddle⟩

theorem Gives.settled_append (hcatalog : catalog.Plain) (h : Gives catalog lookup p text code)
    (hrest : Settled catalog lookup p rest) : Settled catalog lookup p (code ++ rest) := by
  rcases h with h | ⟨hb, x, rfl, hx⟩
  · exact h.settled_append hcatalog hrest
  · exact ⟨hx.eligible?_eq_none hb, hrest⟩

/-- Assignments are settled. -/
theorem Assigns.settled_append {cs : List DeferredConstant} (hcatalog : catalog.Plain)
    (h : Assigns catalog lookup owner p cs code) (hrest : Settled catalog lookup p rest) :
    Settled catalog lookup p (code ++ rest) := by
  induction h with
  | nil => exact hrest
  | cons hgives _ _ ih =>
    rw [List.append_assoc]
    exact hgives.settled_append hcatalog ⟨eligible?_of_not_ldc fun i => Insn.noConfusion, ih⟩

end

namespace Expander

variable {catalog : Catalog} {lookup : LookupMethod} {p q : Pool} {xs : List Splice}

/-! ### Other labels -/

theorem feedsLookup_relabel {f : Label → Label} {insns : List Insn} :
    feedsLookup lookup p (insns.map (Insn.relabel f)) = feedsLookup lookup p insns := by
  unfold feedsLookup
  rw [List.find?_map]
  have hsame : ((fun i : Insn => !i.isLabel) ∘ Insn.relabel f) = fun i => !i.isLabel := by
    funext i
    rw [Function.comp_apply, Insn.isLabel_relabel]
  rw [hsame]
  cases insns.find? fun i => !i.isLabel with
  | none => rfl
  | some i => cases i <;> rfl

theorem eligible?_relabel {f : Label → Label} {insn : Insn} {rest : List Insn} :
    eligible? catalog lookup p (insn.relabel f) (rest.map (Insn.relabel f)) =
      eligible? catalog lookup p insn rest := by
  unfold eligible? loadedText?
  rw [feedsLookup_relabel]
  cases insn <;> rfl

theorem settled_relabel {f : Label → Label} {insns : List Insn}
    (h : Settled catalog lookup p insns) :
    Settled catalog lookup p (insns.map (Insn.relabel f)) := by
  induction insns with
  | nil => trivial
  | cons insn rest ih => exact ⟨eligible?_relabel.trans h.1, ih h.2⟩

/-! ### Replaced loads -/

/-- Code in the place of a load starts with an instruction that is neither a label nor a call. -/
def Opens (xs : List Splice) : Prop :=
  ∀ x ∈ xs, ∀ code, x.code = some code → (∃ i, x.insn = .ldc i) ∧
    ∃ opcode i rest, code = .type opcode i :: rest

/-- Which call a load feeds does not depend on the loads behind it. -/
theorem feedsLookup_after (h : Opens xs) :
    feedsLookup lookup p (Splice.after xs) = feedsLookup lookup p (Splice.before xs) := by
  induction xs with
  | nil => rfl
  | cons x xs ih =>
    have hrest := ih fun y hy => h y (List.mem_cons_of_mem _ hy)
    rw [Splice.after_cons, Splice.before_cons]
    cases hc : x.code with
    | some code =>
      obtain ⟨⟨i, hi⟩, opcode, j, rest, rfl⟩ := h x List.mem_cons_self code hc
      rw [Splice.result_of_some hc, hi]
      rfl
    | none =>
      rw [Splice.result_of_none hc, List.singleton_append]
      cases hl : x.insn.isLabel with
      | true =>
        unfold feedsLookup at hrest ⊢
        rw [List.find?_cons_of_neg (by simp [hl]), List.find?_cons_of_neg (by simp [hl])]
        exact hrest
      | false =>
        unfold feedsLookup
        rw [List.find?_cons_of_pos (by simp [hl]), List.find?_cons_of_pos (by simp [hl])]

theorem eligible?_after {insn : Insn} (h : Opens xs) :
    eligible? catalog lookup p insn (Splice.after xs) =
      eligible? catalog lookup p insn (Splice.before xs) := by
  unfold eligible? loadedText?
  rw [feedsLookup_after h]

theorem Expands.opens {e e' : Expander} (h : Expands catalog lookup e xs e')
    (he : e.Ready lookup) : Opens xs := by
  intro x hx code hc
  refine ⟨(h.ofLoads x hx code hc).1, ?_⟩
  obtain ⟨k, hk⟩ := List.mem_iff_getElem?.1 hx
  obtain ⟨r, -, -, hsplice⟩ := h.splice_of_getElem? he hk
  split at hsplice
  · rw [hc] at hsplice
    cases hsplice
  · obtain ⟨code', hcode, m, middle, -, -, rfl⟩ := hsplice
    rw [hc] at hcode
    cases hcode
    exact ⟨_, _, _, rfl⟩

/-- After an expansion, instructions that stayed inside a closed pool have no eligible loads. -/
theorem Expands.settled_after {e e' : Expander} (h : Expands catalog lookup e xs e')
    (hcatalog : catalog.Plain) (he : e.Ready lookup) (hp : p.Closed) (hle : p ≤ e.pool)
    (hi : ∀ x ∈ Splice.before xs, p.Inside x.constantIndex) (hq : e'.pool ≤ q) :
    Settled catalog lookup q (Splice.after xs) := by
  induction h with
  | nil => trivial
  | @cons e e₁ e' x xs hx hxs ih =>
    have hgrown : e.pool.GrownTo e₁.pool ∧ e₁.Ready lookup := expandInsn_grown he hx
    have hrest := ih hgrown.2 (Pool.le_trans hle hgrown.1.le)
      (fun y hy => hi y (List.mem_cons_of_mem _ hy)) hq
    obtain ⟨r, hr, hr', hsplice⟩ := (Expands.cons hx hxs).splice_of_getElem? he (k := 0) rfl
    rw [Splice.after_cons]
    split at hsplice
    · rename_i hnone
      have hpr := Pool.le_trans hle hr
      have hrq := Pool.le_trans hr' hq
      rw [Splice.result_of_none hsplice, List.singleton_append]
      have hi : ∀ y ∈ x.insn :: Splice.before xs, p.Inside y.constantIndex := hi
      refine ⟨?_, hrest⟩
      calc eligible? catalog lookup q x.insn (Splice.after xs)
          = eligible? catalog lookup q x.insn (Splice.before xs) :=
            eligible?_after (hxs.opens hgrown.2)
        _ = eligible? catalog lookup p x.insn (Splice.before xs) :=
            eligible?_eq_of_inside (Pool.le_trans hpr hrq) hp hi
        _ = eligible? catalog lookup r x.insn (Splice.before xs) :=
            (eligible?_eq_of_inside hpr hp hi).symm
        _ = none := hnone
    · obtain ⟨code, hcode, hbuilds⟩ := hsplice
      rw [Splice.result_of_some hcode]
      exact (hbuilds.mono hq).settled_append hcatalog hrest

end Expander

end ClassTemplates
