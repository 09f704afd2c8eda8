import ClassTemplates.Proofs.Class.Changes
import ClassTemplates.Proofs.Depth.Reaching

/-!
# What the indices of an expanded class name

The checks look at a class once its pool has grown. So whatever the constants of the class refer to,
and whatever is loaded, accessed or called where control goes in a method that changed, is in the
grown pool and of the right kind. It need not have been in the pool of the class: an index outside
of that one may have come to name a constant that was added.

## Main results

- `Expander.Expands.linked` — the loads that are replaced
- `Expansion.Run.linked` — the instructions of a method that changed
- `ClassFile.linked_of_expand` — what the indices of a class that is expanded name
-/

namespace ClassTemplates

/-- An entry of a grown pool was there, or it is a plain and sound constant behind the others. -/
theorem Pool.GrownTo.get?_cases {p q : Pool} {i : UInt16} {c : Constant} (h : p.GrownTo q)
    (hc : q.get? i = some c) :
    p.get? i = some c ∨ p.slots.size < i.toNat ∧ c.Plain ∧ q.Sound c := by
  rcases Nat.lt_or_ge p.slots.size i.toNat with hlt | hle
  · refine .inr ⟨hlt, h.added c (List.mem_iff_getElem?.2 ⟨i.toNat - 1 - p.slots.size, ?_⟩)⟩
    have hget := (Pool.get?_eq_some.1 hc).2
    rw [List.getElem?_drop, Array.getElem?_toList, ← hget]
    congr 1
    omega
  · exact .inl ((Pool.get?_eq_of_inside h.le hle).symm.trans hc)

/-- A load that is replaced loads a text, which is there. -/
theorem Expander.Expands.linked {catalog : Catalog} {lookup : LookupMethod} {e e' : Expander}
    {xs : List Splice} {k : Nat} {x : Splice} {code : List Insn}
    (h : Expands catalog lookup e xs e') (he : e.Ready lookup) (hk : xs[k]? = some x)
    (hc : x.code = some code) : x.insn.Linked e'.pool := by
  obtain ⟨r, -, hle, hsplice⟩ := h.splice_of_getElem? he hk
  split at hsplice
  · rw [hc] at hsplice
    cases hsplice
  · rename_i text htext
    obtain ⟨i, hi, -, hvalue⟩ := exists_ldc_of_loadedText? (Option.filter_eq_some_iff.1 htext).1
    obtain ⟨j, hj, -⟩ := Pool.stringValue?_eq_some.1 hvalue
    rw [hi]
    exact ⟨_, Pool.get?_mono hle hj, Constant.noConfusion⟩

namespace Expansion

variable {catalog : Catalog} {lookup : LookupMethod} {className owner : String}
  {cls cls' : ClassFile} {summary : ExpansionSummary} {p q r : Pool} {m m' : Member} {b : Body}
  {c : Code} {k : Nat}

/-- Where control goes in the code of a method, a new body of it that is laid out finds everything
that the code works on. -/
theorem Reworked.linked (h : Reworked catalog lookup owner p q m b) (hc : m.code? = some c)
    (hlaid : Laid className q r m b m') :
    ∃ old, Body.ofCode c = .ok old ∧
      ∀ i insn, old.Reaches i → old.insns[i]? = some insn → insn.Linked r := by
  obtain @⟨c', decoded, pre, xs, cs, e₁, e₂, hc', hedit, hassigns, hready, -, hq, hexpands⟩ := h
  obtain rfl : c' = c := by
    rcases hc' with hc' | ⟨hnew, -⟩
    · exact Option.some.inj (hc'.symm.trans hc)
    · rw [Member.code?, hnew.attributes] at hc
      cases hc
  obtain ⟨s, signature, c₁, hqs, hsr, hlayout, -⟩ := hlaid
  obtain ⟨depths, hdepths, -⟩ := layOut_eq_ok.1 hlayout
  obtain ⟨reached, hflows⟩ := Body.analyze_eq_ok.1 ⟨depths, hdepths, UInt16.le_refl _⟩
  refine ⟨_, Body.ofCode_eq_ok.2 ⟨decoded, hedit.reads, hedit.places, rfl⟩, ?_⟩
  intro i insn hreaches hinsn
  rw [← hedit.before, Splice.getElem?_before, Option.map_eq_some_iff] at hinsn
  obtain ⟨x, hx, rfl⟩ := hinsn
  -- an instruction that was kept is reached in the new body, a load that was replaced named a text
  cases hcode : x.code with
  | none => exact (hedit.linked hassigns.assigning hflows hreaches hx hcode).mono hsr
  | some code =>
    exact (hexpands.linked hready hx hcode).mono (Pool.le_trans hq (Pool.le_trans hqs hsr))

/-- In a method that changed, everything that its code worked on where control goes is in the grown
pool. -/
theorem Run.linked (s : Run catalog lookup cls className cls' summary)
    (he : (Expander.ofPool cls.pool).Ready lookup) (hk : cls.methods[k]? = some m)
    (hne : cls'.methods[k]? ≠ some m) :
    ∃ c b, m.code? = some c ∧ Body.ofCode c = .ok b ∧
      ∀ i insn, b.Reaches i → b.insns[i]? = some insn → insn.Linked cls'.pool := by
  obtain ⟨body, hbody, hedited⟩ := s.exists_edit he hk
  obtain ⟨-, hfinishes⟩ := s.finished he
  obtain ⟨m', hm', hcases⟩ := hfinishes.getElem? hbody
  rcases hcases with ⟨-, rfl, -⟩ | ⟨-, b, rfl, hlaid⟩
  · exact absurd hm' hne
  · obtain ⟨pre, hedit⟩ := hedited b rfl
    obtain ⟨c, hc⟩ : ∃ c, m.code? = some c := by
      obtain ⟨hc, -⟩ := hedit
      exact ⟨_, hc⟩
    have hreworked := (s.prepared he).injected.reworked (List.mem_of_getElem? hbody)
    obtain ⟨old, hold, hlinked⟩ := hreworked.linked hc hlaid
    exact ⟨c, old, hc, hold, hlinked⟩

end Expansion

namespace ClassFile

open Expansion

variable {catalog : Catalog} {lookup : LookupMethod} {cls cls' : ClassFile}
  {summary : ExpansionSummary}

/-- In the pool of an expanded class, every index that a constant of the class holds names a
constant of the kind that belongs there, and whatever a method that changed loads, accesses or calls
where control goes is there. What an index names there is what it named in the class, unless it lies
outside of that pool and now names one of the constants that were added. -/
theorem linked_of_expand (h : cls.expand catalog lookup = .ok (.expanded cls' summary)) :
    (∀ c ∈ cls.pool.slots.toList, ∀ x ∈ c.references, cls'.pool.Has x.1 x.2) ∧
    (∀ (k : Nat) (m : Member), cls.methods[k]? = some m → cls'.methods[k]? ≠ some m →
      ∃ c b, m.code? = some c ∧ Body.ofCode c = .ok b ∧
        ∀ i insn, b.Reaches i → b.insns[i]? = some insn → insn.Linked cls'.pool) ∧
    ∀ i c, cls'.pool.get? i = some c → cls.pool.get? i = some c ∨
      cls.pool.slots.size < i.toNat ∧ c.Plain ∧ cls'.pool.Sound c := by
  obtain ⟨he, className, -, ⟨s⟩⟩ := nonempty_run h
  obtain ⟨hg, -⟩ := s.finished he
  have hgrown := (s.prepared he).grown.trans hg
  refine ⟨fun c hc x hx => ?_, fun k m hk hne => s.linked he hk hne,
    fun i c hc => hgrown.get?_cases hc⟩
  -- the constants of the class are still in the grown pool, which was checked
  obtain ⟨hfault, -⟩ := verifyOutline_eq_ok.1 s.verifyOutline_eq_ok
  have hmem : c ∈ cls'.pool.slots.toList := by
    obtain ⟨added, hadded⟩ := hgrown.le
    rw [← hadded]
    exact List.mem_append_left _ hc
  exact ((poolFault?_eq_none.1 hfault).2 c hmem).2 x hx

theorem linked_of_expand_loop :
    ∃ cls' summary, loopClass.expand loopCatalog loopLookup = .ok (.expanded cls' summary) ∧
      ∀ c ∈ loopClass.pool.slots.toList, ∀ x ∈ c.references, cls'.pool.Has x.1 x.2 := by
  obtain ⟨c, summary, h, -⟩ := exists_expand_loopClass
  exact ⟨_, summary, h, (linked_of_expand h).1⟩

end ClassFile

end ClassTemplates
