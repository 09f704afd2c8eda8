import ClassTemplates.Proofs.Body.Redecoding
import ClassTemplates.Proofs.Depth.Expansion

/-!
# Depths of edited bodies

A body that can be analysed can still be when its loads are expanded and assignments stand in front,
and again when its labels are renamed. An expansion takes at most four slots more than there are in
front of the load.

## Main definitions

- `Splice.Fits` — what the analysis needs to know of replaced loads
- `Splice.Reached` — the depths of an edit
- `Body.Deepens` — an edit of a body that has depths

## Main results

- `Body.Flows.renames` — depths of a body with other labels
- `Body.EditOf.deepens` — what is known of an edit by an expansion
- `Body.Deepens.flows_reached` — depths of an edit
-/

namespace ClassTemplates

variable {p q : Pool} {limit limit' : UInt16} {b b' : Body} {f : Label → Label}
  {insns : List Insn} {l : Label} {j : Nat} {reached : Nat → UInt16 → Prop}

/-! ### Other labels -/

theorem lastPlace?_ne_none (h : .label l ∈ insns) : lastPlace? insns l ≠ none := by
  induction insns with
  | nil => cases h
  | cons insn rest ih =>
    rw [lastPlace?]
    rcases List.mem_cons.1 h with rfl | h
    · cases lastPlace? rest l <;> simp [Insn.placed?]
    · cases hr : lastPlace? rest l with
      | none => exact absurd hr (ih h)
      | some j => simp

/-- A label has its place also under another name. -/
theorem lastPlace?_relabel
    (hf : ∀ l l', .label l ∈ insns → .label l' ∈ insns → f l = f l' → l = l')
    (h : lastPlace? insns l = some j) : lastPlace? (insns.map (Insn.relabel f)) (f l) = some j := by
  induction insns generalizing j with
  | nil => cases h
  | cons insn rest ih =>
    have hrest {i : Nat} (hi : lastPlace? rest l = some i) :
        lastPlace? (rest.map (Insn.relabel f)) (f l) = some i :=
      ih (fun l l' hl hl' => hf l l' (List.mem_cons_of_mem _ hl) (List.mem_cons_of_mem _ hl')) hi
    have hmem : .label l ∈ insn :: rest := List.mem_of_getElem? (getElem?_of_lastPlace? h)
    rw [lastPlace?] at h
    rw [List.map_cons, lastPlace?]
    cases hr : lastPlace? rest l with
    | some i =>
      rw [hr] at h
      rw [hrest hr]
      exact h
    | none =>
      rw [hr] at h
      -- a later place of the new label would be one of the old label too
      have hnone : lastPlace? (rest.map (Insn.relabel f)) (f l) = none := by
        cases hr' : lastPlace? (rest.map (Insn.relabel f)) (f l) with
        | none => rfl
        | some i =>
          have hi := getElem?_of_lastPlace? hr'
          rw [List.getElem?_map, Option.map_eq_some_iff] at hi
          obtain ⟨y, hy, hl⟩ := hi
          cases y with
          | label l' =>
            have hin := List.mem_of_getElem? hy
            have heq := hf l' l (List.mem_cons_of_mem _ hin) hmem (by simpa [Insn.relabel] using hl)
            rw [heq] at hin
            exact absurd hr (lastPlace?_ne_none hin)
          | _ => cases hl
      obtain ⟨hplaced, hj⟩ := Option.ite_none_right_eq_some.1 h
      rw [Insn.placed?_eq_some.1 hplaced, hnone]
      simpa [Insn.relabel, Insn.placed?] using hj

/-- Depths of a body are depths of the body with other labels, also in a larger pool. -/
theorem Body.Flows.renames (h : b.Flows p limit reached) (hf : b.Renames f b') (hpq : p ≤ q) :
    b'.Flows q limit reached where
  entry := h.entry
  handlers := by
    intro g hg
    rw [hf.handlers] at hg
    obtain ⟨g', hg', rfl⟩ := List.mem_map.1 hg
    obtain ⟨i, hi, hr⟩ := h.handlers g' hg'
    refine ⟨i, ?_, hr⟩
    rw [hf.insns]
    exact lastPlace?_relabel hf.injective hi
  respects := {
    unique := h.respects.unique
    step := by
      intro i d hr
      obtain ⟨insn, deeper, next, hi, hstep, hdeep, hnext⟩ := h.respects.step i d hr
      refine ⟨insn.relabel f, deeper, next.map (Depth.Arrival.moved id), ?_, ?_, hdeep, ?_⟩
      · rw [List.getElem?_toArray] at hi ⊢
        rw [hf.insns, List.getElem?_map, hi]
        rfl
      · refine Depth.step_moved (ρ := id) hpq rfl (fun l _ j hj => ?_) hstep
        rw [Body.getElem?_placements] at hj ⊢
        rw [hf.insns]
        exact lastPlace?_relabel hf.injective hj
      · intro a ha
        obtain ⟨a', ha', rfl⟩ := List.mem_map.1 ha
        exact hnext a' ha' }

theorem relabel_id {insn : Insn} : insn.relabel id = insn := by
  cases insn <;> simp [Insn.relabel]

/-- Depths of a body stay right in a larger pool. -/
theorem Body.Flows.mono (h : b.Flows p limit reached) (hpq : p ≤ q) : b.Flows q limit reached := by
  refine h.renames (f := id) ⟨fun l l' _ _ heq => heq, ?_, ?_⟩ hpq
  · rw [List.map_congr_left fun i _ => relabel_id, List.map_id']
  · exact (List.map_id _).symm

/-! ### Edits -/

namespace Splice

/-- Every replaced load loads a text, and the code in its place builds one with a bound token. -/
def Fits (p q : Pool) (xs : List Splice) : Prop :=
  ∀ x ∈ xs, ∀ code, x.code = some code →
    (∃ lookup segments, segments.any Segment.isBound = true ∧ Builds lookup q segments code) ∧
    ∃ r i text, p ≤ r ∧ x.insn = .ldc i ∧ r.stringValue? i = some text

/-- The depths of an edit: those in front of the old instructions, and those inside of the code that
was added. -/
inductive Reached (q : Pool) (limit : UInt16) (pre : List Insn) (xs : List Splice)
    (reached : Nat → UInt16 → Prop) : Nat → UInt16 → Prop
  | front {j : Nat} {d : UInt16} : j < pre.length →
      Depth.Straight q limit 0 (pre.take j) d → Reached q limit pre xs reached j d
  | back {k i : Nat} {x : Splice} {d d' : UInt16} : xs[k]? = some x → i < x.result.length →
      reached k d → Depth.Straight q limit d (x.result.take i) d' →
      Reached q limit pre xs reached (pre.length + place xs k + i) d'

variable {xs : List Splice} {x x' : Splice} {k k' i i' : Nat} {pre : List Insn} {d d' : UInt16}

/-- The code for an instruction behind what stands in front. -/
theorem getElem?_append_after (hk : xs[k]? = some x) (hi : i < x.result.length) :
    (pre ++ after xs)[pre.length + place xs k + i]? = x.result[i]? := by
  rw [Nat.add_assoc, List.getElem?_append_right (Nat.le_add_right _ _), Nat.add_sub_cancel_left,
    getElem?_after hk hi]

/-- An instruction that was kept stands where its place is. -/
theorem getElem?_append_after_of_none (hk : xs[k]? = some x) (hc : x.code = none) :
    (pre ++ after xs)[pre.length + place xs k]? = some x.insn := by
  rw [List.getElem?_append_right (Nat.le_add_right _ _), Nat.add_sub_cancel_left,
    getElem?_after_of_none hk hc]

/-- A label is placed behind what stands in front, where the code for its old place starts. -/
theorem lastPlace?_append_after (h : OfLoads xs) (hj : lastPlace? (before xs) l = some j) :
    lastPlace? (pre ++ after xs) l = some (pre.length + place xs j) := by
  rw [lastPlace?_append, lastPlace?_after h, hj]
  rfl

theorem add_lt_place (hxs : Filled xs) (hk : xs[k]? = some x) (hi : i < x.result.length)
    (hlt : k < k') (hk' : k' ≤ xs.length) : place xs k + i < place xs k' := by
  have hsucc := place_succ hk
  have hle : place xs (k + 1) ≤ place xs k' := by
    rcases Nat.lt_or_eq_of_le hlt with hlt | rfl
    · exact Nat.le_of_lt (place_lt_place hxs hlt hk')
    · exact Nat.le_refl _
  omega

/-- An index lies in the code for one instruction only. -/
theorem place_add_inj (hxs : Filled xs) (hk : xs[k]? = some x) (hi : i < x.result.length)
    (hk' : xs[k']? = some x') (hi' : i' < x'.result.length)
    (h : place xs k + i = place xs k' + i') : k = k' ∧ i = i' := by
  have hlen := (List.getElem?_eq_some_iff.1 hk).1
  have hlen' := (List.getElem?_eq_some_iff.1 hk').1
  obtain rfl : k = k' := by
    rcases Nat.lt_trichotomy k k' with hlt | heq | hlt
    · have := add_lt_place hxs hk hi hlt (Nat.le_of_lt hlen')
      omega
    · exact heq
    · have := add_lt_place hxs hk' hi' hlt (Nat.le_of_lt hlen)
      omega
  exact ⟨rfl, Nat.add_left_cancel h⟩

end Splice

/-- What takes the place of a load builds one text, as the load had pushed one. -/
theorem Expander.Expands.fits {catalog : Catalog} {lookup : LookupMethod} {e e' : Expander}
    {xs : List Splice} (h : Expands catalog lookup e xs e') (he : e.Ready lookup)
    (hp : p ≤ e.pool) (hq : e'.pool ≤ q) : Splice.Fits p q xs := by
  intro x hmem code hc
  obtain ⟨k, hk⟩ := List.mem_iff_getElem?.1 hmem
  obtain ⟨r, hle, hle', hsplice⟩ := h.splice_of_getElem? he hk
  split at hsplice
  · rw [hc] at hsplice
    cases hsplice
  · rename_i text htext
    obtain ⟨code', hcode, hbuilds⟩ := hsplice
    rw [hc] at hcode
    cases hcode
    obtain ⟨hloaded, hbound⟩ := Option.filter_eq_some_iff.1 htext
    obtain ⟨i, hi, -, hvalue⟩ := exists_ldc_of_loadedText? hloaded
    exact ⟨⟨lookup, _, hbound, hbuilds.mono hq⟩, r, i, text, Pool.le_trans hp hle, hi, hvalue⟩

namespace Depth

theorem le_of_step {pool : Pool} {placements : Std.HashMap Label Nat} {insn : Insn} {i : Nat}
    {d deeper : UInt16} {next : List Arrival}
    (h : step pool placements insn i d = .ok (deeper, next)) :
    ∃ e, Effect.ofInsn? pool insn = some e ∧ d ≤ deeper ∧ e.after d ≤ deeper ∧
      successors placements insn i d (e.after d) = .ok next := by
  obtain ⟨e, he, -, rfl, hsucc⟩ := step_eq_ok.1 h
  obtain ⟨hd, hafter⟩ := max_le.1 (UInt16.le_refl (max d (e.after d)))
  exact ⟨e, he, hd, hafter, hsucc⟩

theorem Respects.le_limit {placements : Std.HashMap Label Nat} {insns : Array Insn} {i : Nat}
    {d : UInt16} (h : Respects p placements insns limit reached) (hr : reached i d) :
    d ≤ limit := by
  obtain ⟨insn, deeper, next, -, hstep, hdeep, -⟩ := h.step i d hr
  obtain ⟨e, -, hle, -⟩ := le_of_step hstep
  exact UInt16.le_trans hle hdeep

end Depth

namespace Body

/-- What is known of an edit whose old body has depths, in a pool in which the new code resolves.
There is room for four slots more in front of every load that is replaced. -/
structure Deepens (p q : Pool) (limit limit' : UInt16) (pre : List Insn) (xs : List Splice)
    (reached : Nat → UInt16 → Prop) (old b : Body) : Prop where
  le : p ≤ q
  flows : old.Flows p limit reached
  before : Splice.before xs = old.insns
  loads : Splice.OfLoads xs
  fits : Splice.Fits p q xs
  front : Depth.Straight q limit' 0 pre 0
  limit_le : limit ≤ limit'
  room : ∀ k x d, xs[k]? = some x → x.code ≠ none → reached k d → d.toNat + 4 ≤ limit'.toNat
  insns : b.insns = pre ++ Splice.after xs
  handlers : b.handlers = old.handlers

/-- An edit whose loads have been expanded, with assignments in front, once there is room. -/
theorem EditOf.deepens {catalog : Catalog} {lookup : LookupMethod} {owner : String} {c : Code}
    {decoded : List (Nat × Insn)} {pre : List Insn} {xs : List Splice}
    {cs : List DeferredConstant} {e e' : Expander} (h : b.EditOf c decoded pre xs)
    (ha : Assigns catalog lookup owner q cs pre) (hx : Expander.Expands catalog lookup e xs e')
    (he : e.Ready lookup) (hp : p ≤ e.pool) (hq : e'.pool ≤ q)
    (hflows : (decodedAs c decoded).Flows p limit reached) (hlimit : limit ≤ limit')
    (hfront : pre ≠ [] → 4 ≤ limit'.toNat)
    (hroom : ∀ k x d, xs[k]? = some x → x.code ≠ none → reached k d → d.toNat + 4 ≤ limit'.toNat) :
    Deepens p q limit limit' pre xs reached (decodedAs c decoded) b where
  le := Pool.le_trans hp (Pool.le_trans (hx.grown he).1.le hq)
  flows := hflows
  before := h.before
  loads := h.loads
  fits := hx.fits he hp hq
  front := by
    by_cases hpre : pre = []
    · rw [hpre]
      exact .nil UInt16.zero_le
    · exact ha.straight (n := 0) (by simpa using hfront hpre)
  limit_le := hlimit
  room := hroom
  insns := h.insns
  handlers := h.handlers

namespace Deepens

open Splice (Reached)

variable {pre : List Insn} {xs : List Splice} {old : Body} {k i : Nat} {x : Splice}
  {d d' : UInt16}

theorem exists_splice (h : Deepens p q limit limit' pre xs reached old b) (hr : reached k d) :
    ∃ x, xs[k]? = some x ∧ 0 < x.result.length ∧ d ≤ limit' := by
  obtain ⟨insn, deeper, next, hi, -⟩ := h.flows.respects.step k d hr
  rw [List.getElem?_toArray, ← h.before, Splice.getElem?_before, Option.map_eq_some_iff] at hi
  obtain ⟨x, hx, -⟩ := hi
  exact ⟨x, hx, List.length_pos_iff.2 (h.loads.filled x (List.mem_of_getElem? hx)),
    UInt16.le_trans (h.flows.respects.le_limit hr) h.limit_le⟩

/-- A depth in front of an instruction is one in front of what took its place. -/
theorem reached_place (h : Deepens p q limit limit' pre xs reached old b) (hr : reached k d) :
    Reached q limit' pre xs reached (pre.length + Splice.place xs k) d := by
  obtain ⟨x, hx, hpos, hle⟩ := h.exists_splice hr
  exact .back hx hpos hr (.nil hle)

theorem lastPlace?_eq (h : Deepens p q limit limit' pre xs reached old b) {l : Label} {j : Nat}
    (hj : lastPlace? old.insns l = some j) :
    lastPlace? b.insns l = some (pre.length + Splice.place xs j) := by
  rw [← h.before] at hj
  rw [h.insns, Splice.lastPlace?_append_after h.loads hj]

/-- What it takes for a depth in the middle of an edit to be right. -/
def Steps (q : Pool) (limit' : UInt16) (pre : List Insn) (xs : List Splice)
    (reached : Nat → UInt16 → Prop) (b : Body) (j : Nat) (d : UInt16) : Prop :=
  ∃ insn deeper next, b.insns.toArray[j]? = some insn ∧
    Depth.step q b.placements insn j d = .ok (deeper, next) ∧ deeper ≤ limit' ∧
      ∀ a ∈ next, Reached q limit' pre xs reached a.position a.depth

theorem steps_front (h : Deepens p q limit limit' pre xs reached old b) {j : Nat}
    (hj : j < pre.length) (hd : Depth.Straight q limit' 0 (pre.take j) d) :
    Steps q limit' pre xs reached b j d := by
  obtain ⟨deeper, after, hstep, hdeep, hnext, hend⟩ := h.front.step_take hj hd b.placements j
  refine ⟨pre[j], deeper, _, ?_, hstep, hdeep, ?_⟩
  · rw [List.getElem?_toArray, h.insns, List.getElem?_append_left hj, List.getElem?_eq_getElem hj]
  · intro a ha
    obtain rfl := List.mem_singleton.1 ha
    by_cases hlast : j + 1 < pre.length
    · exact .front hlast hnext
    · -- behind the last assignment the old body starts
      have hlen : j + 1 = pre.length := by omega
      obtain rfl := hend hlen
      have hentry := h.reached_place h.flows.entry
      rwa [Splice.place_zero, Nat.add_zero, ← hlen] at hentry

theorem steps_kept (h : Deepens p q limit limit' pre xs reached old b) (hx : xs[k]? = some x)
    (hc : x.code = none) (hr : reached k d) :
    Steps q limit' pre xs reached b (pre.length + Splice.place xs k) d := by
  obtain ⟨insn, deeper, next, hi, hstep, hdeep, hnext⟩ := h.flows.respects.step k d hr
  rw [List.getElem?_toArray, ← h.before, Splice.getElem?_before, hx] at hi
  cases hi
  have hnew : b.insns.toArray[pre.length + Splice.place xs k]? = some x.insn := by
    rw [List.getElem?_toArray, h.insns, Splice.getElem?_append_after_of_none hx hc]
  have hsucc : pre.length + Splice.place xs (k + 1) = pre.length + Splice.place xs k + 1 := by
    rw [Splice.place_succ hx, Splice.result_of_none hc]
    rfl
  have hplaces (l : Label) (_ : l ∈ x.insn.targets) (j : Nat) (hj : old.placements[l]? = some j) :
      b.placements[id l]? = some (pre.length + Splice.place xs j) := by
    rw [getElem?_placements] at hj ⊢
    exact h.lastPlace?_eq hj
  have hmoved := Depth.step_moved (ρ := fun k => pre.length + Splice.place xs k) h.le hsucc hplaces
    hstep
  rw [relabel_id] at hmoved
  refine ⟨x.insn, deeper, _, hnew, hmoved, UInt16.le_trans hdeep h.limit_le, fun a ha => ?_⟩
  obtain ⟨a', ha', rfl⟩ := List.mem_map.1 ha
  exact h.reached_place (hnext a' ha')

/-- A load that is replaced leaves its text on the stack. -/
theorem reached_behind (h : Deepens p q limit limit' pre xs reached old b)
    (hx : xs[k]? = some x) {r : Pool} {idx : UInt16} {text : String} (hpr : p ≤ r)
    (hload : x.insn = .ldc idx) (htext : r.stringValue? idx = some text) (hr : reached k d)
    (hroom : d.toNat + 4 ≤ limit'.toNat) : reached (k + 1) (.ofNat (d.toNat + 1)) := by
  obtain ⟨insn, deeper, next, hi, hstep, -, hnext⟩ := h.flows.respects.step k d hr
  rw [List.getElem?_toArray, ← h.before, Splice.getElem?_before, hx] at hi
  cases hi
  obtain ⟨e, he, -, -, hsucc⟩ := Depth.le_of_step hstep
  rw [hload] at he hsucc
  have he' := (Effect.ofInsn?_mono hpr he).symm.trans (Effect.ofInsn?_ldc htext)
  cases he'
  cases hsucc
  have hbehind := hnext _ List.mem_cons_self
  have hlimit := Nat.le_of_lt_succ limit'.toNat_lt
  have hafter : (⟨0, 1⟩ : Effect).after d = .ofNat (d.toNat + 1) := by
    rw [Effect.after]
    congr 1
    show min 65535 (d.toNat + 1) = d.toNat + 1
    omega
  rwa [← hafter]

theorem steps_replaced (h : Deepens p q limit limit' pre xs reached old b) (hx : xs[k]? = some x)
    {code : List Insn} (hc : x.code = some code) (hi : i < x.result.length) (hr : reached k d)
    (hd : Depth.Straight q limit' d (x.result.take i) d') :
    Steps q limit' pre xs reached b (pre.length + Splice.place xs k + i) d' := by
  obtain ⟨⟨lookup, segments, -, hbuilds⟩, r, idx, text, hpr, hload, htext⟩ :=
    h.fits x (List.mem_of_getElem? hx) code hc
  have hroom := h.room k x d hx (by simp [hc]) hr
  have hbehind := h.reached_behind hx hpr hload htext hr hroom
  have hwhole : Depth.Straight q limit' d x.result (.ofNat (d.toNat + 1)) := by
    have hstraight := hbuilds.straight hroom
    rwa [UInt16.ofNat_toNat, ← Splice.result_of_some hc] at hstraight
  obtain ⟨deeper, after, hstep, hdeep, hnext, hend⟩ :=
    hwhole.step_take hi hd b.placements (pre.length + Splice.place xs k + i)
  refine ⟨x.result[i], deeper, _, ?_, hstep, hdeep, ?_⟩
  · rw [List.getElem?_toArray, h.insns, Splice.getElem?_append_after hx hi,
      List.getElem?_eq_getElem hi]
  · intro a ha
    obtain rfl := List.mem_singleton.1 ha
    by_cases hlast : i + 1 < x.result.length
    · exact .back hx hlast hr hnext
    · -- behind the expansion the old body goes on with the text on the stack
      have hlen : i + 1 = x.result.length := by omega
      obtain rfl := hend hlen
      have hplace := h.reached_place hbehind
      rwa [Splice.place_succ hx, ← hlen, ← Nat.add_assoc, ← Nat.add_assoc] at hplace

theorem unique (h : Deepens p q limit limit' pre xs reached old b) {j : Nat}
    (hd : Reached q limit' pre xs reached j d) (hd' : Reached q limit' pre xs reached j d') :
    d = d' := by
  cases hd with
  | front hj hs =>
    cases hd' with
    | front _ hs' => exact hs.unique hs'
    | back => omega
  | @back k i x d₀ _ hx hi hr hs =>
    generalize hj : pre.length + Splice.place xs k + i = j at hd'
    cases hd' with
    | front => omega
    | @back k' i' x' d₀' _ hx' hi' hr' hs' =>
      obtain ⟨rfl, rfl⟩ := Splice.place_add_inj h.loads.filled hx hi hx' hi' (by omega)
      rw [hx] at hx'
      cases hx'
      obtain rfl := h.flows.respects.unique k _ _ hr hr'
      exact hs.unique hs'

/-- An edit has depths, of the old instructions as before. -/
theorem flows_reached (h : Deepens p q limit limit' pre xs reached old b) :
    b.Flows q limit' (Reached q limit' pre xs reached) where
  respects := {
    unique := fun _ _ _ => h.unique
    step := by
      intro j d hr
      cases hr with
      | front hj hs => exact h.steps_front hj hs
      | @back k i x d₀ _ hx hi hr hs =>
        cases hc : x.code with
        | some code => exact h.steps_replaced hx hc hi hr hs
        | none =>
          rw [Splice.result_of_none hc, List.length_singleton, Nat.lt_one_iff] at hi
          subst hi
          cases hs
          exact h.steps_kept hx hc hr }
  entry := by
    have hentry := h.reached_place h.flows.entry
    rw [Splice.place_zero, Nat.add_zero] at hentry
    cases hpre : pre with
    | nil => simpa [hpre] using hentry
    | cons insn rest => exact .front (Nat.succ_pos _) (.nil h.front.le_limit)
  handlers := by
    intro g hg
    rw [h.handlers] at hg
    obtain ⟨i, hi, hr⟩ := h.flows.handlers g hg
    exact ⟨_, h.lastPlace?_eq hi, h.reached_place hr⟩

end Deepens

end Body

end ClassTemplates
