import ClassTemplates.Proofs.Depth.Flow
import ClassTemplates.Proofs.Insn.Encoding
import ClassTemplates.Proofs.Pool.Growth

/-!
# Steps that move

A step depends on an instruction by its effect and by the places of its labels. So it is the same in
a larger pool, and it moves along when instructions move. Code without branches runs straight
through.

## Main definitions

- `Depth.Arrival.moved` — an arrival at the new index of its instruction
- `Depth.GoesOn` — an instruction that control leaves at its end only
- `Depth.Straight` — code that runs from one depth to another

## Main results

- `Effect.ofInsn?_mono` — effects in a larger pool
- `Depth.step_moved` — steps of moved instructions
- `Depth.Straight.step_take` — a step in the middle of straight code
-/

namespace ClassTemplates

variable {p q : Pool} {insn : Insn}

/-! ### Effects -/

namespace Effect

theorem ofConstant?_mono (h : p ≤ q) {i : UInt16} {e : Effect} (he : ofConstant? p i = some e) :
    ofConstant? q i = some e := by
  cases hc : p.get? i with
  | none =>
    rw [ofConstant?, hc] at he
    cases he
  | some c =>
    rw [ofConstant?, hc] at he
    rwa [ofConstant?, Pool.get?_mono h hc]

theorem methodSlots?_mono (h : p ≤ q) {i : UInt16} {x : UInt16 × UInt16}
    (hx : methodSlots? p i = some x) : methodSlots? q i = some x := by
  obtain ⟨m, hm, hx⟩ := Option.bind_eq_some_iff.1 hx
  exact Option.bind_eq_some_iff.2 ⟨m, Pool.member?_mono h hm, hx⟩

theorem callSiteSlots?_mono (h : p ≤ q) {i : UInt16} {x : UInt16 × UInt16}
    (hx : callSiteSlots? p i = some x) : callSiteSlots? q i = some x := by
  unfold callSiteSlots? at hx
  split at hx
  · rename_i bootstrap nat hc
    obtain ⟨d, hd, hx⟩ := Option.bind_eq_some_iff.1 hx
    rw [callSiteSlots?, Pool.get?_mono h hc]
    exact Option.bind_eq_some_iff.2 ⟨d, Pool.nameAndType?_mono h hd, hx⟩
  · cases hx

/-- The effect of an instruction is the same in a larger pool. -/
theorem ofInsn?_mono (h : p ≤ q) {e : Effect} (he : ofInsn? p insn = some e) :
    ofInsn? q insn = some e := by
  cases insn with
  | ldc i => exact ofConstant?_mono h he
  | field opcode i =>
    obtain ⟨m, hm, he⟩ := Option.bind_eq_some_iff.1 he
    exact Option.bind_eq_some_iff.2 ⟨m, Pool.member?_mono h hm, he⟩
  | invoke opcode i | invokeInterface i count =>
    obtain ⟨x, hx, he⟩ := Option.bind_eq_some_iff.1 he
    exact Option.bind_eq_some_iff.2 ⟨x, methodSlots?_mono h hx, he⟩
  | invokeDynamic i =>
    obtain ⟨x, hx, he⟩ := Option.bind_eq_some_iff.1 he
    exact Option.bind_eq_some_iff.2 ⟨x, callSiteSlots?_mono h hx, he⟩
  | _ => exact he

theorem ofInsn?_relabel {f : Label → Label} : ofInsn? p (insn.relabel f) = ofInsn? p insn := by
  cases insn <;> rfl

/-- The depth behind an instruction, as long as it stays small enough. -/
theorem after_ofNat {e : Effect} {n m : Nat} (hn : n ≤ 65535) (hm : m ≤ 65535)
    (h : m = n - e.pops.toNat + e.pushes.toNat) : e.after (.ofNat n) = .ofNat m := by
  rw [after, UInt16.toNat_ofNat_of_lt' (Nat.lt_succ_of_le hn), ← h, Nat.min_eq_right hm]

end Effect

/-! ### Steps -/

namespace Depth

/-- The arrival at the new index of its instruction. -/
def Arrival.moved (ρ : Nat → Nat) (a : Arrival) : Arrival :=
  ⟨ρ a.position, a.depth⟩

variable {placements placements' : Std.HashMap Label Nat} {ρ : Nat → Nat} {f : Label → Label}
  {i j : Nat} {d after deeper : UInt16} {next : List Arrival} {l : Label}

theorem place_eq_some : place placements l = .ok j ↔ placements[l]? = some j := by
  unfold place
  cases placements[l]? <;> simp

theorem place_moved (hl : ∀ j, placements[l]? = some j → placements'[f l]? = some (ρ j))
    (h : place placements l = .ok j) : place placements' (f l) = .ok (ρ j) :=
  place_eq_some.2 (hl j (place_eq_some.1 h))

/-- The places of several labels move as each of them does. -/
theorem mapM_place_moved {targets : List Label} {places : List Nat}
    (hl : ∀ l ∈ targets, ∀ j, placements[l]? = some j → placements'[f l]? = some (ρ j))
    (h : targets.mapM (place placements) = .ok places) :
    (targets.map f).mapM (place placements') = .ok (places.map ρ) := by
  have hmoved := forall₂_of_mapM_eq_ok h fun l hmem j hj => place_moved (hl l hmem) hj
  rw [List.mapM_map, mapM_eq_ok, List.forall₂_map_right_iff]
  exact hmoved

/-- Control goes on from a moved instruction to where the others moved. -/
theorem successors_moved (hnext : ρ (i + 1) = ρ i + 1)
    (hl : ∀ l ∈ insn.targets, ∀ j, placements[l]? = some j → placements'[f l]? = some (ρ j))
    (h : successors placements insn i d after = .ok next) :
    successors placements' (insn.relabel f) (ρ i) d after = .ok (next.map (Arrival.moved ρ)) := by
  have hbehind (a : UInt16) : (⟨ρ i + 1, a⟩ : Arrival) = Arrival.moved ρ ⟨i + 1, a⟩ := by
    rw [Arrival.moved, hnext]
  cases insn with
  | jump opcode target =>
    obtain ⟨j, hj, h⟩ := bind_eq_ok.1 h
    refine bind_eq_ok.2 ⟨ρ j, place_moved (hl target (by simp [Insn.targets])) hj, ?_⟩
    split at h
    · rename_i hop
      cases h
      rw [if_pos hop]
      rfl
    · rename_i hop
      rw [if_neg hop]
      split at h
      · rename_i hop
        cases h
        rw [if_pos hop, hbehind]
        rfl
      · rename_i hop
        cases h
        rw [if_neg hop, hbehind]
        rfl
  | tableSwitch otherwise low high targets =>
    obtain ⟨places, hplaces, h⟩ := bind_eq_ok.1 h
    cases h
    refine bind_eq_ok.2 ⟨places.map ρ, mapM_place_moved hl hplaces, ?_⟩
    simp [Arrival.moved, pure, Except.pure]
  | lookupSwitch otherwise pairs =>
    obtain ⟨places, hplaces, h⟩ := bind_eq_ok.1 h
    cases h
    have hmoved := mapM_place_moved hl hplaces
    rw [← Insn.targets_relabel] at hmoved
    refine bind_eq_ok.2 ⟨places.map ρ, hmoved, ?_⟩
    simp [Arrival.moved, pure, Except.pure]
  | op opcode | localVar opcode index =>
    cases h
    simp only [successors, Insn.relabel]
    split
    · rfl
    · rw [hbehind]
      rfl
  | _ =>
    cases h
    simp only [successors, Insn.relabel, hbehind]
    rfl

/-- A step of an instruction is one of that instruction when all have moved and the pool has grown.
-/
theorem step_moved (hp : p ≤ q) (hnext : ρ (i + 1) = ρ i + 1)
    (hl : ∀ l ∈ insn.targets, ∀ j, placements[l]? = some j → placements'[f l]? = some (ρ j))
    (h : step p placements insn i d = .ok (deeper, next)) :
    step q placements' (insn.relabel f) (ρ i) d = .ok (deeper, next.map (Arrival.moved ρ)) := by
  obtain ⟨e, he, hpops, hdeeper, hsucc⟩ := step_eq_ok.1 h
  have he' : Effect.ofInsn? q (insn.relabel f) = some e := by
    rw [Effect.ofInsn?_relabel]
    exact Effect.ofInsn?_mono hp he
  exact step_eq_ok.2 ⟨e, he', hpops, hdeeper, successors_moved hnext hl hsucc⟩

/-! ### Straight code -/

/-- Control leaves the instruction at its end only. -/
def GoesOn (insn : Insn) : Prop :=
  ∀ placements i d after, successors placements insn i d after = .ok [⟨i + 1, after⟩]

/-- Code that runs straight from one depth to another, no deeper than `limit`. -/
inductive Straight (pool : Pool) (limit : UInt16) : UInt16 → List Insn → UInt16 → Prop
  | nil {d : UInt16} : d ≤ limit → Straight pool limit d [] d
  | cons {d d' : UInt16} {insn : Insn} {rest : List Insn} {e : Effect} :
      d ≤ limit → Effect.ofInsn? pool insn = some e → e.pops ≤ d → GoesOn insn →
      Straight pool limit (e.after d) rest d' → Straight pool limit d (insn :: rest) d'

variable {limit d' d'' : UInt16} {xs ys : List Insn}

theorem Straight.le_limit (h : Straight p limit d xs d') : d ≤ limit := by
  cases h <;> assumption

theorem Straight.append (h : Straight p limit d xs d') (h' : Straight p limit d' ys d'') :
    Straight p limit d (xs ++ ys) d'' := by
  induction h with
  | nil _ => exact h'
  | cons hd he hpops hgo _ ih => exact .cons hd he hpops hgo (ih h')

/-- The depth in the middle of straight code. -/
theorem Straight.split (h : Straight p limit d (xs ++ ys) d'') :
    ∃ d', Straight p limit d xs d' ∧ Straight p limit d' ys d'' := by
  induction xs generalizing d with
  | nil => exact ⟨d, .nil h.le_limit, h⟩
  | cons x xs ih =>
    cases h with
    | cons hd he hpops hgo h =>
      obtain ⟨d', hxs, hys⟩ := ih h
      exact ⟨d', .cons hd he hpops hgo hxs, hys⟩

theorem Straight.unique (h : Straight p limit d xs d') (h' : Straight p limit d xs d'') :
    d' = d'' := by
  induction h with
  | nil _ =>
    cases h'
    rfl
  | cons _ he _ _ _ ih =>
    cases h' with
    | cons _ he' _ _ h' =>
      rw [he] at he'
      cases he'
      exact ih h'

/-- A step at the start of straight code leads behind its first instruction. -/
theorem Straight.step (h : Straight p limit d (insn :: xs) d') (placements : Std.HashMap Label Nat)
    (i : Nat) :
    ∃ deeper after, Depth.step p placements insn i d = .ok (deeper, [⟨i + 1, after⟩]) ∧
      deeper ≤ limit ∧ Straight p limit d [insn] after ∧ Straight p limit after xs d' := by
  cases h with
  | cons hd he hpops hgo h =>
    exact ⟨_, _, step_eq_ok.2 ⟨_, he, hpops, rfl, hgo ..⟩, max_le.2 ⟨hd, h.le_limit⟩,
      .cons hd he hpops hgo (.nil h.le_limit), h⟩

/-- A step in the middle of straight code leads behind one instruction more of it, and behind the
last one to the depth at its end. -/
theorem Straight.step_take {i : Nat} (h : Straight p limit d xs d'') (hi : i < xs.length)
    (hd : Straight p limit d (xs.take i) d') (placements : Std.HashMap Label Nat) (j : Nat) :
    ∃ deeper after, Depth.step p placements xs[i] j d' = .ok (deeper, [⟨j + 1, after⟩]) ∧
      deeper ≤ limit ∧ Straight p limit d (xs.take (i + 1)) after ∧
      (i + 1 = xs.length → after = d'') := by
  have hsplit : xs.take i ++ xs[i] :: xs.drop (i + 1) = xs := by
    rw [List.getElem_cons_drop, List.take_append_drop]
  rw [← hsplit] at h
  obtain ⟨d₁, hd₁, hrest⟩ := h.split
  obtain rfl := hd.unique hd₁
  obtain ⟨deeper, after, hstep, hdeep, hone, hrest⟩ := hrest.step placements j
  refine ⟨deeper, after, hstep, hdeep, ?_, fun hend => ?_⟩
  · rw [List.take_add_one, List.getElem?_eq_getElem hi]
    exact hd.append hone
  · rw [hend, List.drop_length] at hrest
    cases hrest
    rfl

/-- One instruction more in front of straight code, which takes `a` slots off `n` others and puts
`b` on them. -/
theorem Straight.cons_ofNat {n a b : Nat} {e : Effect} (he : Effect.ofInsn? p insn = some e)
    (ha : e.pops.toNat = a) (hb : e.pushes.toNat = b) (hgo : GoesOn insn)
    (hna : n + a ≤ limit.toNat) (hnb : n + b ≤ limit.toNat)
    (h : Straight p limit (.ofNat (n + b)) xs d') :
    Straight p limit (.ofNat (n + a)) (insn :: xs) d' := by
  have hlimit := Nat.le_of_lt_succ limit.toNat_lt
  have hnat : (UInt16.ofNat (n + a)).toNat = n + a :=
    UInt16.toNat_ofNat_of_lt' (Nat.lt_succ_of_le (Nat.le_trans hna hlimit))
  refine .cons ?_ he ?_ hgo ?_
  · rwa [UInt16.le_iff_toNat_le, hnat]
  · rw [UInt16.le_iff_toNat_le, hnat, ha]
    exact Nat.le_add_left a n
  · rwa [Effect.after_ofNat (Nat.le_trans hna hlimit) (Nat.le_trans hnb hlimit)]
    rw [ha, hb, Nat.add_sub_cancel]

end Depth

end ClassTemplates
