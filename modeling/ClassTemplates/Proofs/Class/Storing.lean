import ClassTemplates.Proofs.Class.Changes
import ClassTemplates.Proofs.Class.Rechecking
import ClassTemplates.Proofs.Format.Storing

/-!
# Storing an expanded class

The checks of an expanded class look at the class, and only then is it written. Most of it is what
was read and can be read again. What an expansion adds may not fit: a text may be too long for its
length, there may be one method too many, a name that stood for nothing may have come to stand for a
structure, and a content may be too long.

## Main results

- `Pool.GrownTo.exists_constants` — the constants of a grown pool
- `Code.Moved.asRead_reread` — new code of a method, read back
- `Expansion.Run.asRead_reread` — an expanded class that can be stored, read back
- `ClassFile.ofBytes_of_expandBytes` — the bytes of an expanded class
-/

namespace ClassTemplates

/-! ### The pool -/

/-- The constant is a text that fits its length, or it has one spelling. -/
def Constant.fits : Constant → Bool
  | utf8 text => (ModifiedUtf8.encode text).length < 0x10000
  | rawUtf8 _ | secondSlot => false
  | _ => true

theorem Constant.spelled_of_fits {c : Constant} (h : c.fits = true) : c.Spelled c.toBytes := by
  cases c with
  | utf8 text => exact ⟨_, ModifiedUtf8.decode_encode text, of_decide_eq_true h, rfl⟩
  | rawUtf8 | secondSlot => cases h
  | _ => rfl

theorem Constant.Plain.slots_eq {c : Constant} (h : c.Plain) : c.slots = [c] := by
  rw [slots, if_neg (by simp [h.spec.1])]

/-- A constant that is added can be read back, if it is no text that is too long. -/
theorem Constant.Plain.spelled {c : Constant} (h : c.Plain)
    (htext : ∀ text, c = .utf8 text → (ModifiedUtf8.encode text).length < 0x10000) :
    c.Spelled c.toBytes := by
  refine spelled_of_fits ?_
  rcases h with ⟨text, rfl⟩ | h
  · exact decide_eq_true (htext text rfl)
  · cases c with
    | utf8 | rawUtf8 | secondSlot => exact absurd rfl h
    | _ => rfl

/-- If its texts are not too long, a pool that has grown has constants that can be read back. -/
theorem Pool.GrownTo.exists_constants {p q : Pool} {count : UInt16} {constants : List Constant}
    {pieces : List Bytes} (h : p.GrownTo q) (hp : p.Spelled count constants pieces)
    (htexts : ∀ text, .utf8 text ∈ q.slots.toList → (ModifiedUtf8.encode text).length < 0x10000) :
    ∃ constants' : List Constant, q.slots.toList = constants'.flatMap Constant.slots ∧
      ∀ c ∈ constants', c.Spelled c.toBytes := by
  obtain ⟨added, hq⟩ := h.le
  have hadded : ∀ c ∈ added, c.Plain := fun c hc => (h.added c (by simpa [← hq] using hc)).1
  refine ⟨constants ++ added, ?_, fun c hc => ?_⟩
  · have hflat : added.flatMap Constant.slots = added := by
      rw [List.flatMap_congr fun c hc => (hadded c hc).slots_eq, List.flatMap_singleton']
    rw [List.flatMap_append, hflat, ← hp.slots, hq]
  · rcases List.mem_append.1 hc with hc | hc
    · obtain ⟨piece, -, hspelled⟩ : ∃ piece ∈ pieces, c.Spelled piece :=
        exists_left_of_forall₂ hp.spelled.flip hc
      exact hspelled.written
    · refine (hadded c hc).spelled ?_
      rintro text rfl
      exact htexts text (hq ▸ List.mem_append_right _ hc)

/-! ### New code -/

section

variable {φ : Nat → Nat} {p q : Pool} {a a' : Attribute} {c c' : Code} {name : UInt16}

theorem Frame.Sized.moved {f f' : Frame} (h : f.Sized) (hm : f.shape.Moved φ f'.shape) :
    f'.Sized := by
  obtain ⟨delta, shape⟩ := f
  obtain ⟨delta', shape'⟩ := f'
  cases hm with
  | same | oneItem _ | oneItemExtended _ | sameExtended => trivial
  | chop => exact h
  | append hls =>
    simp only [Sized, ← hls.length_eq]
    exact h
  | full hls hss =>
    simp only [Sized, ← hls.length_eq, ← hss.length_eq]
    exact h

/-- A table that has moved with its code has as many entries, which can be read back. -/
theorem ContentKind.Holds.moved {kind : ContentKind} (h : kind.Holds a.content)
    (hm : a.Moved φ a') : kind.Holds a'.reread.content := by
  obtain ⟨name, content⟩ := a
  obtain ⟨name', content'⟩ := a'
  replace hm := hm.2
  cases kind <;> cases content <;> first | exact h.elim | skip
  case constantValue.constantValue index =>
    obtain rfl : content' = .constantValue index := hm
    rw [Attribute.reread]
    trivial
  case stackMap.stackMap fs =>
    cases content' with
    | stackMap fs' =>
      rw [Attribute.reread_stackMap]
      refine ⟨?_, List.forall_mem_map.2 fun f' hf' => ?_⟩
      · rw [List.length_map, ← hm.shapes.length_eq]
        exact h.1
      · obtain ⟨f, hf, hshape⟩ := exists_left_of_forall₂ hm.shapes hf'
        exact ((h.2 f hf).sized.moved hshape).asRead_reread
    | _ => cases hm
  case lineNumbers.lineNumbers es =>
    cases content' with
    | lineNumbers es' =>
      rw [Attribute.reread]
      exact lt_of_eq_of_lt (List.Forall₂.length_eq hm).symm h
    | _ => cases hm
  case localVariables.localVariables es =>
    cases content' with
    | localVariables es' =>
      rw [Attribute.reread]
      exact lt_of_eq_of_lt (List.Forall₂.length_eq hm).symm h
    | _ => cases hm
  case localVariableTypes.localVariableTypes es =>
    cases content' with
    | localVariableTypes es' =>
      rw [Attribute.reread]
      exact lt_of_eq_of_lt (List.Forall₂.length_eq hm).symm h
    | _ => cases hm

theorem Attribute.Moved.asRead_reread (hm : a.Moved φ a') (hkept : a.describesCode = true)
    (ha : a.AsRead p) (hle : p ≤ q) (hq : a'.Storable q) : a'.reread.AsRead q := by
  cases ha with
  | carried | code => cases hkept
  | @flat _ kind _ hkind hholds _ =>
    have hname : q.contentKind? a'.reread.name = some kind := by
      rw [name_reread, hm.1]
      exact Pool.contentKind?_mono hle hkind
    have hholds := hholds.moved hm
    have hlen := hq.length_lt
    generalize a'.reread = read at hname hholds hlen ⊢
    obtain ⟨name', content'⟩ := read
    exact .flat hname hholds hlen

/-- New code has the handlers and the tables of the code it is made from, so it can be read back. -/
theorem Code.Moved.asRead_reread (hm : Code.Moved φ c.withoutCarried c') (hc : c.AsRead p)
    (hle : p ≤ q) (hname : q.contentKind? name = some .code)
    (hq : Attribute.Storable q ⟨name, .code c'⟩) :
    (Attribute.reread ⟨name, .code c'⟩).AsRead q := by
  have hlen := hq.length_lt
  rw [Attribute.reread_code] at hlen ⊢
  refine .code hname ?_ ?_ (List.forall_mem_map.2 fun a' ha' => ?_) hlen
  · show c'.handlers.length < 0x10000
    rw [← hm.handlers.length_eq]
    exact hc.handlers
  · rw [reread, List.length_map, ← hm.attributes.length_eq]
    exact Nat.lt_of_le_of_lt (List.length_filter_le _ _) hc.attributes
  · obtain ⟨a, ha, hmoved⟩ := exists_left_of_forall₂ hm.attributes ha'
    obtain ⟨ha, hkept⟩ := List.mem_filter.1 ha
    rw [Attribute.not_isCarried] at hkept
    exact hmoved.asRead_reread hkept (hc.nested a ha) hle (hq.nested ha')

/-- The attributes with new code are those there were, and the new code under its old name. -/
theorem Member.mem_replaceCode {attributes : List Attribute}
    (h : Attribute.firstCode? attributes = some c) (ha : a ∈ replaceCode c' attributes) :
    a ∈ attributes ∨ ∃ name, ⟨name, .code c⟩ ∈ attributes ∧ a = ⟨name, .code c'⟩ := by
  induction attributes with
  | nil => cases h
  | cons b rest ih =>
    obtain ⟨name, content⟩ := b
    cases content with
    | code c₀ =>
      obtain rfl : c₀ = c := Option.some.inj h
      rcases List.mem_cons.1 ha with rfl | ha
      · exact .inr ⟨name, List.mem_cons_self, rfl⟩
      · exact .inl (List.mem_cons_of_mem _ ha)
    | _ =>
      rcases List.mem_cons.1 ha with rfl | ha
      · exact .inl List.mem_cons_self
      · rcases ih h ha with ha | ⟨name, hmem, rfl⟩
        · exact .inl (List.mem_cons_of_mem _ ha)
        · exact .inr ⟨name, List.mem_cons_of_mem _ hmem, rfl⟩

theorem Member.length_replaceCode (c : Code) (attributes : List Attribute) :
    (replaceCode c attributes).length = attributes.length := by
  induction attributes with
  | nil => rfl
  | cons a rest ih =>
    rw [replaceCode]
    split
    · rfl
    · rw [List.length_cons, ih, List.length_cons]

end

namespace Expansion

variable {catalog : Catalog} {lookup : LookupMethod} {className owner : String} {p q r : Pool}
  {m m' : Member} {b : Body}

theorem asRead_bareCode (p : Pool) : bareCode.AsRead p :=
  ⟨by decide, by decide, fun _ ha => by cases ha⟩

/-- A method with its new body laid out can be read back, if its attributes can be stored. -/
theorem Reworked.asRead_reread (h : Reworked catalog lookup owner p r m b)
    (hlaid : Laid className r q m b m') (hm : m.AsRead p) (hle : p ≤ q)
    (hq : ∀ a ∈ m'.attributes, a.Storable q) : m'.reread.AsRead q := by
  obtain @⟨c, decoded, pre, xs, cs, e₁, e₂, hc, hedit, -⟩ := h
  obtain ⟨s, signature, c', -, -, hlayout, hrecoded⟩ := hlaid
  obtain ⟨summary, -, hcode⟩ := layOut_eq_ok.1 hlayout
  obtain ⟨-, zs, -, hrel⟩ := hedit.withoutCarried.relocates hcode
  have hmoved := hrel.moved
  rcases hrecoded.edit with ⟨⟨c₀, hc₀⟩, rfl⟩ | ⟨hnone, name, hname, rfl⟩
  · -- the new code takes the place of the old
    have hc : m.code? = some c := by
      refine hc.resolve_right ?_
      rintro ⟨hnew, -⟩
      rw [Member.code?, hnew.attributes] at hc₀
      cases hc₀
    refine Member.asRead_reread ?_ fun a ha => ?_
    · rw [Member.withCode, Member.length_replaceCode]
      exact hm.1
    · rcases Member.mem_replaceCode hc ha with hmem | ⟨name, hmem, rfl⟩
      · exact (hm.2 a hmem).reread_grown hle (hq a ha)
      · obtain ⟨hkind, hcread⟩ := (hm.2 _ hmem).of_code
        exact hmoved.asRead_reread hcread hle (Pool.contentKind?_mono hle hkind) (hq _ ha)
  · -- a new initializer
    obtain ⟨hnew, rfl⟩ := hc.resolve_left (by simp [hnone])
    have hkind : q.contentKind? name = some .code := by
      rw [Pool.contentKind?, hname]
      decide
    refine Member.asRead_reread ?_ fun a ha => ?_
    · simp [hnew.attributes]
    · obtain rfl : a = ⟨name, .code c'⟩ := by simpa [hnew.attributes] using ha
      exact hmoved.asRead_reread (asRead_bareCode p) hle hkind (hq _ ha)

/-! ### Expanded classes -/

section

variable {cls cls' : ClassFile} {summary : ExpansionSummary}

/-- A field without its constant has no other attributes than before. -/
theorem asRead_reread_of_fields {fields fields' : List Member}
    (h : List.Forall₂ (fun f f' => (∃ text, f.HoldsTemplate catalog p text) ∧
      f' = f.withoutConstant ∨ (¬∃ text, f.HoldsTemplate catalog p text) ∧ f' = f) fields fields')
    (hread : ∀ f ∈ fields, f.AsRead p) (hle : p ≤ q)
    (hq : ∀ f ∈ fields', ∀ a ∈ f.attributes, a.Storable q) :
    ∀ f ∈ fields', f.reread.AsRead q := by
  intro f' hf'
  obtain ⟨f, hf, hrel⟩ := exists_left_of_forall₂ h hf'
  have hsub : f'.attributes.Sublist f.attributes := by
    rcases hrel with ⟨-, rfl⟩ | ⟨-, rfl⟩
    · exact List.filter_sublist
    · exact List.Sublist.refl _
  refine Member.asRead_reread (Nat.lt_of_le_of_lt hsub.length_le (hread f hf).1) fun a ha => ?_
  exact ((hread f hf).2 a (hsub.subset ha)).reread_grown hle (hq f' hf' a ha)

/-- Every method that is laid out was read, or is a new initializer, and its new body is an edit. -/
theorem Prepared.reworked_of_mem {edits edits' : List (Member × Option Body)} {isOpen : Bool}
    {e e' : Expander} (h : Prepared catalog lookup cls className isOpen edits edits' e e')
    (hread : ∀ m ∈ cls.methods, m.AsRead cls.pool) {x : Member × Option Body} (hx : x ∈ edits') :
    x.1.AsRead cls.pool ∧
      ∀ b, x.2 = some b → Reworked catalog lookup className cls.pool e'.pool x.1 b := by
  refine ⟨?_, fun b hb => h.injected.reworked (hb ▸ hx)⟩
  obtain ⟨front, new, rfl, hfront, hnew⟩ := h.injected
  rcases List.mem_append.1 hx with hx | hx
  · obtain ⟨y, hy, hfst, -⟩ := exists_left_of_forall₂ hfront hx
    have hmem : y.1 ∈ cls.methods := h.methods ▸ List.mem_map_of_mem hy
    exact hfst ▸ hread _ hmem
  · rcases hnew with rfl | ⟨-, m, b, rfl, hisNew, -⟩
    · cases hx
    · obtain rfl := List.mem_singleton.1 hx
      constructor
      · rw [hisNew.attributes]
        decide
      · rw [hisNew.attributes]
        exact fun _ ha => by cases ha

/-- An expanded class is read back in the form in which classes are read, if it can be stored. -/
theorem Run.asRead_reread (s : Run catalog lookup cls className cls' summary)
    (he : (Expander.ofPool cls.pool).Ready lookup) (hread : cls.AsRead) (hq : cls'.Storable) :
    cls'.reread.AsRead := by
  have hprepared := s.prepared he
  obtain ⟨hg, hfinishes⟩ := s.finished he
  have hle : cls.pool ≤ cls'.pool := Pool.le_trans hprepared.grown.le hg.le
  have hinterfaces : cls'.interfaces = cls.interfaces := by rw [s.result]
  have hfields : cls'.fields = s.fields := congrArg ClassFile.fields s.result
  have hattributes : cls'.attributes = cls.attributes := by rw [s.result]
  have hdefers := (deferFields_spec s.defers).1
  rw [← hfields] at hdefers
  constructor
  · rw [ClassFile.reread, hinterfaces]
    exact hread.interfaces
  · refine ⟨?_, List.forall_mem_map.2 ?_⟩
    · rw [ClassFile.reread, List.length_map, ← hdefers.length_eq]
      exact hread.fields.1
    · exact asRead_reread_of_fields hdefers hread.fields.2 hle fun f hf a ha =>
        hq.attributes a (.inr ⟨f, .inl hf, ha⟩)
  · refine ⟨?_, List.forall_mem_map.2 fun m' hm' => ?_⟩
    · rw [ClassFile.reread, List.length_map]
      exact hq.methods
    · have hstorable : ∀ a ∈ m'.attributes, a.Storable cls'.pool := fun a ha =>
        hq.attributes a (.inr ⟨m', .inr hm', ha⟩)
      obtain ⟨x, hx, hlaid⟩ := exists_left_of_forall₂ hfinishes.forall₂ hm'
      obtain ⟨hx, hreworked⟩ := hprepared.reworked_of_mem hread.methods.2 hx
      rcases hlaid with ⟨-, rfl⟩ | ⟨b, hb, hlaid⟩
      · exact Member.asRead_reread hx.1 fun a ha => (hx.2 a ha).reread_grown hle (hstorable a ha)
      · exact (hreworked b hb).asRead_reread hlaid hx hle hstorable
  · rw [ClassFile.reread, hattributes, List.length_map]
    refine ⟨hread.attributes.1, List.forall_mem_map.2 fun a ha => ?_⟩
    exact (hread.attributes.2 a ha).reread_grown hle (hq.attributes a (.inl (hattributes ▸ ha)))

/-- A method at a position that is not told of is as it was. -/
theorem Run.getElem?_methods (s : Run catalog lookup cls className cls' summary)
    (he : (Expander.ofPool cls.pool).Ready lookup) {k : Nat}
    (hk : k ∉ s.done.changed.toList.map (·.1)) : cls'.methods[k]? = cls.methods[k]? := by
  have hprepared := s.prepared he
  obtain ⟨-, hfinishes⟩ := s.finished he
  -- what is not told of has no new body, so it is no new initializer
  have hedit {m : Member} {body : Option Body} (hget : s.edits.toList[k]? = some (m, body)) :
      body = none ∧ cls'.methods[k]? = some m := by
    obtain ⟨m', hm', hcases⟩ := hfinishes.getElem? hget
    rw [Nat.zero_add] at hcases
    rcases hcases with ⟨hbody, rfl, -⟩ | ⟨hmem, -⟩
    · exact ⟨hbody, hm'⟩
    · exact absurd hmem hk
  cases hm : cls.methods[k]? with
  | some m =>
    obtain ⟨body, hget, -⟩ := s.exists_edit he hm
    exact (hedit hget).2
  | none =>
    obtain ⟨front, new, hedits, hfront, hnew⟩ := hprepared.injected
    have hlength := congrArg List.length hprepared.methods
    rw [List.length_map, hfront.length_eq] at hlength
    have hge : front.length ≤ k := hlength ▸ List.getElem?_eq_none_iff.1 hm
    cases hget : s.edits.toList[k]? with
    | none =>
      rw [List.getElem?_eq_none_iff] at hget ⊢
      rwa [hfinishes.length]
    | some x =>
      obtain ⟨m, body⟩ := x
      have hbody := (hedit hget).1
      rw [hedits, List.getElem?_append_right hge] at hget
      rcases hnew with rfl | ⟨-, m', b, rfl, -⟩
      · cases hget
      · obtain rfl : body = some b := by
          obtain ⟨-, hget⟩ := Option.ite_none_right_eq_some.1 (List.getElem?_singleton ▸ hget)
          exact (Prod.mk.inj (Option.some.inj hget)).2.symm
        cases hbody

/-- The pool of an expanded class, as constants that can be read back if the class can be stored. -/
theorem Run.exists_constants (s : Run catalog lookup cls className cls' summary)
    (he : (Expander.ofPool cls.pool).Ready lookup) {count : UInt16} {constants : List Constant}
    {pieces : List Bytes} (hp : cls.pool.Spelled count constants pieces) (hq : cls'.Storable) :
    ∃ constants' : List Constant, cls'.pool.slots.toList = constants'.flatMap Constant.slots ∧
      ∀ c ∈ constants', c.Spelled c.toBytes :=
  ((s.prepared he).grown.trans (s.finished he).1).exists_constants hp hq.texts

end

end Expansion

namespace ClassFile

open Expansion

variable {catalog : Catalog} {lookup : LookupMethod} {bytes out : Bytes}

theorem expandBytes_eq_some : expandBytes catalog lookup bytes = .ok (some out) ↔
    ∃ cls cls' summary, ofBytes bytes = .ok cls ∧
      cls.expand catalog lookup = .ok (.expanded cls' summary) ∧ out = cls'.toBytes := by
  unfold expandBytes
  simp only [bind_eq_ok, mapError_eq_ok]
  constructor
  · rintro ⟨cls, hread, expansion, hexpand, h⟩
    cases expansion with
    | unchanged _ => cases h
    | expanded cls' summary =>
      cases h
      exact ⟨cls, cls', summary, hread, hexpand, rfl⟩
  · rintro ⟨cls, cls', summary, hread, hexpand, rfl⟩
    exact ⟨cls, hread, _, hexpand, rfl⟩

/-- The bytes of an expanded class are those of a class that passes the checks of the methods that
changed. They are read back as this class if and only if the class can be stored. -/
theorem ofBytes_of_expandBytes (h : expandBytes catalog lookup bytes = .ok (some out)) :
    ∃ (cls cls' : ClassFile) (summary : ExpansionSummary) (changed : List Nat),
      ofBytes bytes = .ok cls ∧ cls.expand catalog lookup = .ok (.expanded cls' summary) ∧
      List.Forall₂ (fun k signature => ∃ m p, cls'.methods[k]? = some m ∧ cls.pool ≤ p ∧
        p ≤ cls'.pool ∧ signature = p.signature m) changed summary.methods ∧
      (∀ k, k ∉ changed → cls'.methods[k]? = cls.methods[k]?) ∧
      cls'.reread.toBytes = out ∧ cls'.reread.verifyMethods changed = .ok () ∧
      (ofBytes out = .ok cls'.reread ↔ cls'.Storable) := by
  obtain ⟨cls, cls', summary, hbytes, hexpand, rfl⟩ := expandBytes_eq_some.1 h
  obtain ⟨hread, count, constants, pieces, hpool, -⟩ := ofBytes_eq_ok.1 hbytes
  obtain ⟨he, className, -, ⟨s⟩⟩ := nonempty_run hexpand
  refine ⟨cls, cls', summary, s.done.changed.toList.map (·.1), hbytes, hexpand, ?_, ?_, ?_, ?_, ?_⟩
  · exact s.signatures he
  · exact fun k hk => s.getElem?_methods he hk
  · exact toBytes_reread cls'
  · rw [verifyMethods_reread]
    exact s.verifies
  · refine ⟨storable_of_ofBytes, fun hstorable => ?_⟩
    obtain ⟨constants', hslots, hconstants⟩ := s.exists_constants he hpool hstorable
    exact ofBytes_toBytes (s.asRead_reread he hread hstorable) (bounded_of_expand hexpand).2.2
      hslots hconstants

/-! ### The class with an initializer that loops -/

theorem asRead_loopClass : loopClass.AsRead := by
  have hconstant : loopClass.pool.contentKind? 12 = some .constantValue := rfl
  have hcode : loopClass.pool.contentKind? 11 = some .code := rfl
  refine ⟨by decide, ⟨by decide, List.forall_mem_singleton.2 ⟨by decide, ?_⟩⟩,
    ⟨by decide, List.forall_mem_singleton.2 ⟨by decide, ?_⟩⟩, ⟨by decide, ?_⟩⟩
  · exact List.forall_mem_singleton.2 (.flat hconstant trivial (by decide))
  · exact List.forall_mem_singleton.2 (.code hcode (by decide) (by decide)
      (fun _ ha => (List.not_mem_nil ha).elim) (by decide))
  · exact fun _ ha => (List.not_mem_nil ha).elim

/-- A class with the same pool is read back. -/
theorem ofBytes_of_asRead_loop {cls : ClassFile} (hread : cls.AsRead)
    (hpool : cls.pool = loopClass.pool) : ofBytes cls.toBytes = .ok cls := by
  have hslots : loopClass.pool.slots.toList =
      loopClass.pool.slots.toList.flatMap Constant.slots := rfl
  have hspelled : ∀ c ∈ loopClass.pool.slots.toList, c.Spelled c.toBytes := by
    have hfits : loopClass.pool.slots.toList.all Constant.fits = true := rfl
    exact fun c hc => Constant.spelled_of_fits (List.all_eq_true.1 hfits c hc)
  have hreread := hread.reread_eq
  rw [← hreread] at hread
  rw [← hpool] at hslots hspelled
  rw [ofBytes_toBytes hread (hpool ▸ loopClass_bounded) hslots hspelled, hreread]

theorem ofBytes_loopClass : ofBytes loopClass.toBytes = .ok loopClass :=
  ofBytes_of_asRead_loop asRead_loopClass rfl

/-- The class with its constant deferred can be stored. -/
theorem storable_loopExpanded {c : Code} (hbytes : c.bytes.length = 28)
    (hhandlers : c.handlers = []) (hattributes : c.attributes = []) :
    (loopExpanded c).Storable := by
  have hfits : (loopClass.pool.slots ++ loopConstants.toArray).toList.all Constant.fits = true :=
    rfl
  refine ⟨fun text htext => of_decide_eq_true (List.all_eq_true.1 hfits _ htext),
    (by decide : 1 < 0x10000), fun a ha => ?_⟩
  obtain rfl : a = ⟨11, .code c⟩ := by
    rcases ha with ha | ⟨m, hm | hm, ha⟩
    · exact (List.not_mem_nil ha).elim
    · obtain rfl := List.mem_singleton.1 hm
      exact (List.not_mem_nil ha).elim
    · obtain rfl := List.mem_singleton.1 hm
      exact List.mem_singleton.1 ha
  have hself {b : Attribute} (hw : b.Within ⟨11, .code c⟩) : b = ⟨11, .code c⟩ := by
    cases hw with
    | refl => rfl
    | nested hb _ =>
      rw [hattributes] at hb
      cases hb
  refine ⟨fun name bytes hw => ?_, fun b hw => ?_⟩
  · cases hself hw
  · rw [hself hw]
    simp [Content.toBytes, Code.toBytes, Attribute.listBytes, hbytes, hhandlers, hattributes]

theorem ofBytes_of_expandBytes_loop :
    ∃ out again changed, expandBytes loopCatalog loopLookup loopClass.toBytes = .ok (some out) ∧
      ofBytes out = .ok again ∧ again.toBytes = out ∧ 0 ∈ changed ∧
      again.verifyMethods changed = .ok () := by
  obtain ⟨c, summary, hexpand, -, hbytes, hhandlers, hattributes⟩ := exists_expand_loopClass
  have hout : expandBytes loopCatalog loopLookup loopClass.toBytes =
      .ok (some (loopExpanded c).toBytes) :=
    expandBytes_eq_some.2 ⟨_, _, _, ofBytes_loopClass, hexpand, rfl⟩
  obtain ⟨cls, cls', summary', changed, hcls, hexpand', -, hkept, htoBytes, hverify, hiff⟩ :=
    ofBytes_of_expandBytes hout
  obtain rfl : loopClass = cls := Except.ok.inj (ofBytes_loopClass.symm.trans hcls)
  rw [hexpand] at hexpand'
  cases hexpand'
  have hagain := hiff.2 (storable_loopExpanded hbytes hhandlers hattributes)
  refine ⟨_, _, changed, hout, hagain, htoBytes, ?_, hverify⟩
  by_contra hnot
  have hsame : some (loopInitializer.withCode c) = some loopInitializer := hkept 0 hnot
  have hcode : c = loopCode :=
    congrArg (fun m : Option Member => (m.bind Member.code?).getD loopCode) hsame
  rw [hcode] at hbytes
  exact absurd hbytes (by decide)

end ClassFile

end ClassTemplates
