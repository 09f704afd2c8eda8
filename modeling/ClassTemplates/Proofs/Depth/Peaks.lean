import ClassTemplates.Proofs.Depth.Reaching
import Mathlib.Data.Nat.SuccPred
import Mathlib.Order.SuccPred.Archimedean

/-!
# How deep edits go

An edit goes four slots deeper than in front of its loads that are replaced, wherever control
reaches one, and four slots deep if assignments stand in front. Apart from that it goes no deeper
than the old body did.

## Main definitions

- `stackDemand` — the depths that a stack has to have room for

## Main results

- `Body.EditOf.le_maxDepth_of_replaced`, `le_maxDepth_of_front` — how deep an edit goes at least
- `Body.EditOf.isGreatest_stackDemand` — how deep the stack of an edit has to be
-/

namespace ClassTemplates

/-- The depths that the stack of an edit has to have room for: the one that was declared, four slots
above the depths in front of the loads that are replaced, and four if something is put in front. -/
def stackDemand (declared : Nat) (fronted : Prop) (replaced : UInt16 → Prop) : Set Nat :=
  {n | n = declared ∨ fronted ∧ n = 4 ∨ ∃ d, replaced d ∧ n = d.toNat + 4}

/-- The least word that some numbers keep to is one of them. -/
theorem isGreatest_toNat {s : Set Nat} {v : UInt16} (hne : s.Nonempty)
    (hbound : ∀ n ∈ s, n ≤ v.toNat)
    (hleast : ∀ limit : UInt16, (∀ n ∈ s, n ≤ limit.toNat) → v ≤ limit) :
    IsGreatest s v.toNat := by
  obtain ⟨most, hmem, hmost⟩ : ∃ n, IsGreatest s n :=
    BddAbove.exists_isGreatest_of_nonempty ⟨_, hbound⟩ hne
  have hle := hbound most hmem
  have hvalue : (UInt16.ofNat most).toNat = most :=
    UInt16.toNat_ofNat_of_lt' (Nat.lt_of_le_of_lt hle v.toNat_lt)
  have hge := hleast (.ofNat most) fun n hn => by
    rw [hvalue]
    exact hmost hn
  rw [UInt16.le_iff_toNat_le, hvalue] at hge
  obtain rfl : most = v.toNat := Nat.le_antisymm hle hge
  exact ⟨hmem, hbound⟩

namespace Body

variable {catalog : Catalog} {lookup : LookupMethod} {owner : String} {p q : Pool} {b : Body}
  {c : Code} {decoded : List (Nat × Insn)} {pre : List Insn} {xs : List Splice} {x : Splice}
  {cs : List DeferredConstant} {e e' : Expander} {limit limit' d : UInt16}
  {reached : Nat → UInt16 → Prop} {summary : DepthSummary} {known : List (Option UInt16)} {k : Nat}

/-- In the place of a load that was reached the stack is four slots deeper than in front of it. -/
theorem EditOf.le_maxDepth_of_replaced (h : b.EditOf c decoded pre xs)
    (hpre : ∀ i ∈ pre, i.assigning)
    (hdeep : Deepens p q limit limit' pre xs reached (decodedAs c decoded) b)
    (hb : b.depths q = .ok (summary, known)) (hr : (decodedAs c decoded).Reaches k)
    (hd : reached k d) (hx : xs[k]? = some x) (hc : x.code ≠ none) :
    d.toNat + 4 ≤ summary.maxDepth.toNat := by
  have hroom := hdeep.room k x d hx hc hd
  obtain ⟨code, hc⟩ := Option.ne_none_iff_exists'.1 hc
  obtain ⟨⟨lookup, segments, hbound, hbuilds⟩, -⟩ :=
    hdeep.fits x (List.mem_of_getElem? hx) code hc
  rw [← Splice.result_of_some hc] at hbuilds
  obtain ⟨i, hi, hpeak⟩ := hbuilds.exists_deepest hbound hroom
  rw [UInt16.ofNat_toNat] at hpeak
  have hreach := h.reaches_inside (h.reaches_place hpre hr) hx hc (Nat.le_of_lt hi)
  have hle := hdeep.flows_reached.le_maxDepth hb hreach (.back hx hi hd hpeak)
  have hvalue : (UInt16.ofNat (d.toNat + 4)).toNat = d.toNat + 4 :=
    UInt16.toNat_ofNat_of_lt' (Nat.lt_of_le_of_lt hroom limit'.toNat_lt)
  rwa [UInt16.le_iff_toNat_le, hvalue] at hle

/-- In the assignments of texts with bound tokens the stack is four slots deep. -/
theorem EditOf.le_maxDepth_of_front (h : b.EditOf c decoded pre xs)
    (hdeep : Deepens p q limit limit' pre xs reached (decodedAs c decoded) b)
    (ha : Assigns catalog lookup owner q cs pre) (hcs : ∀ c ∈ cs, catalog.bindsAny c.text = true)
    (hb : b.depths q = .ok (summary, known)) (hpre : pre ≠ []) (hroom : 4 ≤ limit'.toNat) :
    4 ≤ summary.maxDepth.toNat := by
  obtain ⟨i, hi, hpeak⟩ := ha.exists_deepest (n := 0) hcs hpre (by simpa using hroom)
  have hreach := h.reaches_front ha.assigning (Nat.le_of_lt hi)
  have hle := hdeep.flows_reached.le_maxDepth hb hreach (.front hi hpeak)
  rwa [UInt16.le_iff_toNat_le] at hle

/-- The stack of an edit has to be as deep as the old body declared, or four slots deeper than in
front of one of its loads that are replaced, or four slots deep for assignments in front, whichever
is most. -/
theorem EditOf.isGreatest_stackDemand (h : b.EditOf c decoded pre xs)
    (ha : Assigns catalog lookup owner q cs pre) (hcs : ∀ c ∈ cs, catalog.bindsAny c.text = true)
    (hx : Expander.Expands catalog lookup e xs e') (he : e.Ready lookup) (hp : p ≤ e.pool)
    (hq : e'.pool ≤ q) (hflows : (decodedAs c decoded).Flows p c.maxStack reached)
    (hreaches : ∀ k d, reached k d → (decodedAs c decoded).Reaches k)
    (hdepth : ∀ k d, reached k d → d ≤ 65531) (hb : b.depths q = .ok (summary, known)) :
    IsGreatest (stackDemand c.maxStack.toNat (pre ≠ [])
        fun d => ∃ k x, xs[k]? = some x ∧ x.code ≠ none ∧ reached k d)
      (max b.maxStack summary.maxDepth).toNat := by
  have hdeepens (limit : UInt16) (hlimit : c.maxStack ≤ limit) (hfront : pre ≠ [] → 4 ≤ limit.toNat)
      (hroom : ∀ k x d, xs[k]? = some x → x.code ≠ none → reached k d →
        d.toNat + 4 ≤ limit.toNat) :
      Deepens p q c.maxStack limit pre xs reached (decodedAs c decoded) b :=
    h.deepens ha hx he hp hq hflows hlimit hfront hroom
  have hlargest : Deepens p q c.maxStack 65535 pre xs reached (decodedAs c decoded) b := by
    refine hdeepens 65535 (UInt16.le_iff_toNat_le.2 (Nat.le_of_lt_succ c.maxStack.toNat_lt))
      (fun _ => by decide) fun k x d _ _ hd => ?_
    exact Nat.add_le_add_right (UInt16.le_iff_toNat_le.1 (hdepth k d hd)) 4
  refine isGreatest_toNat ⟨_, .inl rfl⟩ ?_ fun limit hlimit => ?_
  · -- the analysis finds all that is demanded
    rw [Depth.toNat_max, h.maxStack]
    rintro n (rfl | ⟨hpre, rfl⟩ | ⟨d, ⟨k, x, hk, hc, hd⟩, rfl⟩)
    · exact le_max_left _ _
    · exact le_max_of_le_right (h.le_maxDepth_of_front hlargest ha hcs hb hpre (by decide))
    · exact le_max_of_le_right (h.le_maxDepth_of_replaced ha.assigning hlargest hb
        (hreaches k d hd) hd hk hc)
  · -- and there are depths for every stack that has room for that
    have hdeclared : c.maxStack ≤ limit := UInt16.le_iff_toNat_le.2 (hlimit _ (.inl rfl))
    have hwithin := hdeepens limit hdeclared (fun hpre => hlimit 4 (.inr (.inl ⟨hpre, rfl⟩)))
      fun k x d hk hc hd => hlimit _ (.inr (.inr ⟨d, ⟨k, x, hk, hc, hd⟩, rfl⟩))
    rw [Depth.max_le, h.maxStack]
    exact ⟨hdeclared, hwithin.flows_reached.maxDepth_le (map_eq_ok.2 ⟨_, hb, rfl⟩)⟩

end Body

end ClassTemplates
