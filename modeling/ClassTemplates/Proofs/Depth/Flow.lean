import ClassTemplates.Depth.Analysis
import ClassTemplates.Proofs.Body.Placements
import ClassTemplates.Proofs.Outcome

/-!
# Depths that every step respects

The analysis of a body looks for a depth at each instruction such that steps lead from these depths
to these depths. It finds them whenever there are any, so a body can be analysed by giving them.

## Main definitions

- `Depth.Respects` — depths that steps neither leave nor contradict
- `Body.Flows` — such depths for a body, from its entry and its handlers

## Main results

- `Depth.step_eq_ok` — what one step of the walk can do
- `Depth.found_of_explore`, `explore_of_respects` — what the walk over the instructions finds
- `Body.analyze_eq_ok` — a body can be analysed exactly if it has such depths
-/

namespace ClassTemplates

namespace Depth

theorem toNat_max (a b : UInt16) : (max a b).toNat = max a.toNat b.toNat := by
  show (if a ≤ b then b else a).toNat = _
  split
  · rename_i h
    rw [UInt16.le_iff_toNat_le] at h
    rw [Nat.max_eq_right h]
  · rename_i h
    rw [UInt16.le_iff_toNat_le] at h
    rw [Nat.max_eq_left (Nat.le_of_not_le h)]

theorem max_le {a b c : UInt16} : max a b ≤ c ↔ a ≤ c ∧ b ≤ c := by
  simp only [UInt16.le_iff_toNat_le, toNat_max, Nat.max_le]

/-- A step succeeds if the effect is known, the stack holds what it takes off and control goes
somewhere. It gives the deeper of the depths around the instruction. -/
theorem step_eq_ok {pool : Pool} {placements : Std.HashMap Label Nat} {insn : Insn} {i : Nat}
    {d deeper : UInt16} {next : List Arrival} :
    step pool placements insn i d = .ok (deeper, next) ↔
      ∃ e, Effect.ofInsn? pool insn = some e ∧ e.pops ≤ d ∧ deeper = max d (e.after d) ∧
        successors placements insn i d (e.after d) = .ok next := by
  rw [step]
  constructor
  · intro h
    split at h
    · cases h
    rename_i e he
    split at h
    · cases h
    rename_i hpops
    obtain ⟨next', hnext, h⟩ := bind_eq_ok.1 h
    cases h
    exact ⟨e, he, UInt16.not_lt.1 hpops, rfl, hnext⟩
  · rintro ⟨e, he, hpops, rfl, hnext⟩
    simp only [he, if_neg (UInt16.not_lt.2 hpops)]
    exact bind_eq_ok.2 ⟨next, hnext, rfl⟩

/-- An instruction has one depth at most, and steps from it without a fault, no deeper than `limit`,
to depths of other instructions. -/
structure Respects (pool : Pool) (placements : Std.HashMap Label Nat) (insns : Array Insn)
    (limit : UInt16) (reached : Nat → UInt16 → Prop) : Prop where
  unique : ∀ i d d', reached i d → reached i d' → d = d'
  step : ∀ i d, reached i d → ∃ insn deeper next, insns[i]? = some insn ∧
    Depth.step pool placements insn i d = .ok (deeper, next) ∧ deeper ≤ limit ∧
      ∀ a ∈ next, reached a.position a.depth

/-- The depth in front of an instruction is known. -/
def Found {n : Nat} (known : Vector (Option UInt16) n) (i : Nat) (d : UInt16) : Prop :=
  known[i]? = some (some d)

section

variable {n i j : Nat} {d d' : UInt16} {known : Vector (Option UInt16) n}

theorem found_iff (h : i < n) : Found known i d ↔ known[i] = some d := by
  unfold Found
  rw [Vector.getElem?_eq_getElem h, Option.some.injEq]

theorem found_set (h : i < n) :
    Found (known.set i (some d)) j d' ↔ i = j ∧ d = d' ∨ i ≠ j ∧ Found known j d' := by
  unfold Found
  rw [Vector.getElem?_set]
  by_cases hij : i = j <;> simp [hij]

theorem not_found_replicate : ¬ Found (Vector.replicate n none) i d := by
  intro h
  rw [Found, Vector.getElem?_eq_some_iff] at h
  obtain ⟨hi, h⟩ := h
  rw [Vector.getElem_replicate] at h
  cases h

end

variable {pool : Pool} {placements : Std.HashMap Label Nat} {insns : Array Insn}
  {known all : Vector (Option UInt16) insns.size} {deepest limit : UInt16} {waiting : List Arrival}

/-- The walk keeps what it knew, finds what it was to follow, and steps from all else that it finds.
-/
theorem found_of_explore
    (h : explore pool placements insns known deepest waiting = .ok (limit, all)) :
    deepest ≤ limit ∧ (∀ i d, Found known i d → Found all i d) ∧
      (∀ a ∈ waiting, Found all a.position a.depth) ∧
      ∀ i d, Found all i d → Found known i d ∨ ∃ insn deeper next, insns[i]? = some insn ∧
        step pool placements insn i d = .ok (deeper, next) ∧ deeper ≤ limit ∧
          ∀ a ∈ next, Found all a.position a.depth := by
  -- what is found stays found, so each case only has to look at its own step
  fun_induction explore pool placements insns known deepest waiting with
  | case1 known deepest =>
    cases h
    exact ⟨UInt16.le_refl _, fun i d hf => hf, fun a ha => (List.not_mem_nil ha).elim,
      fun i d hf => .inl hf⟩
  | case2 known deepest position waiting hlt depth hk ih =>
    obtain ⟨hdeep, hkeep, hwait, hfound⟩ := ih h
    refine ⟨hdeep, hkeep, ?_, hfound⟩
    exact List.forall_mem_cons.2 ⟨hkeep _ _ ((found_iff hlt).2 hk), hwait⟩
  | case3 => cases h
  | case4 => cases h
  | case5 known deepest position depth waiting hlt hk deeper next hstep ih =>
    obtain ⟨hdeep, hkeep, hwait, hfound⟩ := ih h
    obtain ⟨hdeepest, hdeeper⟩ := max_le.1 hdeep
    have hhere : Found all position depth := hkeep _ _ ((found_set hlt).2 (.inl ⟨rfl, rfl⟩))
    refine ⟨hdeepest, fun i d hf => ?_, ?_, fun i d hf => ?_⟩
    · refine hkeep i d ((found_set hlt).2 (.inr ⟨?_, hf⟩))
      rintro rfl
      rw [found_iff hlt, hk] at hf
      cases hf
    · exact List.forall_mem_cons.2 ⟨hhere, fun a ha => hwait a (List.mem_append_right _ ha)⟩
    · rcases hfound i d hf with hset | hfound
      · rcases (found_set hlt).1 hset with ⟨rfl, rfl⟩ | ⟨-, hknown⟩
        · refine .inr ⟨_, deeper, next, Array.getElem?_eq_getElem hlt, hstep, hdeeper, ?_⟩
          exact fun a ha => hwait a (List.mem_append_left _ (List.mem_reverse.2 ha))
        · exact .inl hknown
      · exact .inr hfound
  | case6 => cases h

/-- The walk succeeds as long as there are depths that the steps respect. -/
theorem explore_of_respects {reached : Nat → UInt16 → Prop}
    (hr : Respects pool placements insns limit reached)
    (hknown : ∀ i d, Found known i d → reached i d)
    (hwait : ∀ a ∈ waiting, reached a.position a.depth) (hdeep : deepest ≤ limit) :
    ∃ deeper all, explore pool placements insns known deepest waiting = .ok (deeper, all) ∧
      deeper ≤ limit := by
  -- a walk fails where two depths differ, a step fails or a position is outside; none is possible
  fun_induction explore pool placements insns known deepest waiting with
  | case1 known deepest => exact ⟨deepest, known, rfl, hdeep⟩
  | case2 known deepest position waiting hlt depth hk ih =>
    exact ih hknown (fun a ha => hwait a (List.mem_cons_of_mem _ ha)) hdeep
  | case3 known deepest position depth waiting hlt expected hk hne =>
    refine absurd ?_ hne
    exact hr.unique _ _ _ (hknown _ _ ((found_iff hlt).2 hk)) (hwait _ List.mem_cons_self)
  | case4 known deepest position depth waiting hlt hk fault hstep =>
    obtain ⟨insn, deeper, next, hi, hok, -⟩ := hr.step _ _ (hwait _ List.mem_cons_self)
    rw [Array.getElem?_eq_getElem hlt] at hi
    cases hi
    rw [hok] at hstep
    cases hstep
  | case5 known deepest position depth waiting hlt hk deeper next hstep ih =>
    have hhere := hwait _ List.mem_cons_self
    obtain ⟨insn, deeper', next', hi, hok, hle, hnext⟩ := hr.step _ _ hhere
    rw [Array.getElem?_eq_getElem hlt] at hi
    cases hi
    rw [hok] at hstep
    cases hstep
    refine ih (fun i d hf => ?_) (fun a ha => ?_) (max_le.2 ⟨hdeep, hle⟩)
    · rcases (found_set hlt).1 hf with ⟨rfl, rfl⟩ | ⟨-, hf⟩
      · exact hhere
      · exact hknown i d hf
    · rcases List.mem_append.1 ha with ha | ha
      · exact hnext a (List.mem_reverse.1 ha)
      · exact hwait a (List.mem_cons_of_mem _ ha)
  | case6 known deepest position depth waiting hlt =>
    obtain ⟨insn, deeper, next, hi, -⟩ := hr.step _ _ (hwait _ List.mem_cons_self)
    exact absurd (Array.getElem?_eq_some_iff.1 hi).1 hlt

end Depth

namespace Body

/-- Depths that the steps of a body respect, of its entry and its handlers among others. -/
structure Flows (b : Body) (pool : Pool) (limit : UInt16) (reached : Nat → UInt16 → Prop) :
    Prop where
  respects : Depth.Respects pool b.placements b.insns.toArray limit reached
  entry : reached 0 0
  handlers : ∀ h ∈ b.handlers, ∃ i, lastPlace? b.insns h.target = some i ∧ reached i 1

variable {b : Body} {pool : Pool} {limit : UInt16}

theorem place_eq_ok {l : Label} {i : Nat} :
    Depth.place b.placements l = .ok i ↔ lastPlace? b.insns l = some i := by
  rw [Depth.place, getElem?_placements]
  cases lastPlace? b.insns l <;> simp

/-- The arrival at a handler, with what was thrown. -/
def arrival (b : Body) (h : Handler Label) : Except DepthError Depth.Arrival := do
  let target ← Depth.place b.placements h.target
  pure ⟨target, 1⟩

theorem arrival_eq_ok {h : Handler Label} {a : Depth.Arrival} :
    b.arrival h = .ok a ↔ lastPlace? b.insns h.target = some a.position ∧ a.depth = 1 := by
  obtain ⟨position, depth⟩ := a
  rw [arrival, bind_eq_ok]
  constructor
  · rintro ⟨i, hi, h⟩
    cases h
    exact ⟨place_eq_ok.1 hi, rfl⟩
  · rintro ⟨hi, rfl⟩
    exact ⟨position, place_eq_ok.2 hi, rfl⟩

/-- The analysis succeeds if there is something to run and the walk from the handlers and the entry
does; it reports what the walk found. -/
theorem depths_eq_ok {summary : DepthSummary} {known : List (Option UInt16)} :
    b.depths pool = .ok (summary, known) ↔
      b.insns.all Insn.isLabel = false ∧ ∃ handlers deepest all,
        b.handlers.mapM b.arrival = .ok handlers ∧
        Depth.explore pool b.placements b.insns.toArray (Vector.replicate _ none) 0
          (handlers.reverse ++ [⟨0, 0⟩]) = .ok (deepest, all) ∧
        summary = ⟨deepest, all.toList.countP (·.isSome)⟩ ∧ known = all.toList := by
  have hdepths : b.depths pool =
      if b.insns.all Insn.isLabel then .error .emptyCode
      else (do
        let handlers ← b.handlers.mapM b.arrival
        let (deepest, known) ← Depth.explore pool b.placements b.insns.toArray
          (Vector.replicate _ none) 0 (handlers.reverse ++ [⟨0, 0⟩])
        pure (⟨deepest, known.toList.countP (·.isSome)⟩, known.toList)) := rfl
  rw [hdepths]
  cases hall : b.insns.all Insn.isLabel with
  | true =>
    constructor
    · intro h
      cases h
    · rintro ⟨h, -⟩
      cases h
  | false =>
    rw [if_neg Bool.false_ne_true]
    constructor
    · intro h
      obtain ⟨handlers, hh, h⟩ := bind_eq_ok.1 h
      obtain ⟨found, hx, h⟩ := bind_eq_ok.1 h
      cases h
      exact ⟨rfl, handlers, found.1, found.2, hh, hx, rfl, rfl⟩
    · rintro ⟨-, handlers, deepest, all, hh, hx, rfl, rfl⟩
      exact bind_eq_ok.2 ⟨handlers, hh, bind_eq_ok.2 ⟨(deepest, all), hx, rfl⟩⟩

/-- A body can be analysed if it has something to run and the walk from its handlers and its entry
succeeds. -/
theorem analyze_eq_ok_iff_explore :
    (∃ summary, b.analyze pool = .ok summary ∧ summary.maxDepth ≤ limit) ↔
      b.insns.all Insn.isLabel = false ∧ ∃ handlers deepest known,
        b.handlers.mapM b.arrival = .ok handlers ∧
        Depth.explore pool b.placements b.insns.toArray (Vector.replicate _ none) 0
          (handlers.reverse ++ [⟨0, 0⟩]) = .ok (deepest, known) ∧ deepest ≤ limit := by
  constructor
  · rintro ⟨summary, h, hle⟩
    obtain ⟨out, hout, rfl⟩ := map_eq_ok.1 h
    obtain ⟨hall, handlers, deepest, known, hh, hx, hsummary, -⟩ := depths_eq_ok.1 hout
    rw [hsummary] at hle
    exact ⟨hall, handlers, deepest, known, hh, hx, hle⟩
  · rintro ⟨hall, handlers, deepest, known, hh, hx, hle⟩
    have hout := depths_eq_ok.2 ⟨hall, handlers, deepest, known, hh, hx, rfl, rfl⟩
    exact ⟨_, map_eq_ok.2 ⟨_, hout, rfl⟩, hle⟩

/-- Control does not run off the end, so a body with depths is not labels alone. -/
theorem Flows.not_all_isLabel {reached : Nat → UInt16 → Prop} (h : b.Flows pool limit reached) :
    b.insns.all Insn.isLabel = false := by
  rw [Bool.eq_false_iff]
  intro hall
  have hreach (i : Nat) (hi : i ≤ b.insns.length) : reached i 0 := by
    induction i with
    | zero => exact h.entry
    | succ i ih =>
      obtain ⟨insn, deeper, next, hget, hstep, -, hnext⟩ := h.respects.step i 0 (ih (by omega))
      rw [List.getElem?_toArray] at hget
      have hlabel := List.all_eq_true.1 hall insn (List.mem_of_getElem? hget)
      cases insn with
      | label l =>
        cases hstep
        exact hnext _ List.mem_cons_self
      | _ => cases hlabel
  obtain ⟨insn, deeper, next, hget, -⟩ := h.respects.step _ 0 (hreach _ (Nat.le_refl _))
  rw [List.getElem?_toArray, List.getElem?_eq_none (Nat.le_refl _)] at hget
  cases hget

/-- The depths that the walk found are respected. -/
theorem flows_of_explore {handlers : List Depth.Arrival} {deepest : UInt16}
    {known : Vector (Option UInt16) b.insns.toArray.size}
    (hh : b.handlers.mapM b.arrival = .ok handlers)
    (hx : Depth.explore pool b.placements b.insns.toArray (Vector.replicate _ none) 0
      (handlers.reverse ++ [⟨0, 0⟩]) = .ok (deepest, known)) :
    b.Flows pool deepest (Depth.Found known) := by
  obtain ⟨-, -, hwait, hfound⟩ := Depth.found_of_explore hx
  refine ⟨⟨fun i d d' hd hd' => ?_, fun i d hd => ?_⟩, hwait ⟨0, 0⟩ (by simp), fun h hmem => ?_⟩
  · exact Option.some.inj (Option.some.inj (hd.symm.trans hd'))
  · exact (hfound i d hd).resolve_left Depth.not_found_replicate
  · obtain ⟨a, ha, hok⟩ := exists_mem_of_mapM_eq_ok hh hmem
    obtain ⟨hplace, hdepth⟩ := arrival_eq_ok.1 hok
    refine ⟨a.position, hplace, hdepth ▸ hwait a ?_⟩
    exact List.mem_append_left _ (List.mem_reverse.2 ha)

/-- What the analysis knows are depths of the body, and its largest depth bounds them. -/
theorem flows_of_depths {summary : DepthSummary} {known : List (Option UInt16)}
    (h : b.depths pool = .ok (summary, known)) :
    b.Flows pool summary.maxDepth fun i d => known[i]? = some (some d) := by
  obtain ⟨-, handlers, deepest, all, hh, hx, rfl, rfl⟩ := depths_eq_ok.1 h
  simp only [Vector.getElem?_toList]
  exact flows_of_explore hh hx

/-- Depths stay within a larger bound. -/
theorem Flows.mono_limit {limit' : UInt16} {reached : Nat → UInt16 → Prop}
    (h : b.Flows pool limit reached) (hle : limit ≤ limit') : b.Flows pool limit' reached where
  respects := {
    unique := h.respects.unique
    step := by
      intro i d hr
      obtain ⟨insn, deeper, next, hi, hstep, hdeep, hnext⟩ := h.respects.step i d hr
      exact ⟨insn, deeper, next, hi, hstep, UInt16.le_trans hdeep hle, hnext⟩ }
  entry := h.entry
  handlers := h.handlers

/-- A body can be analysed exactly if it has depths that its steps respect; its depth is a bound of
these. -/
theorem analyze_eq_ok :
    (∃ summary, b.analyze pool = .ok summary ∧ summary.maxDepth ≤ limit) ↔
      ∃ reached, b.Flows pool limit reached := by
  rw [analyze_eq_ok_iff_explore]
  constructor
  · rintro ⟨-, handlers, deepest, known, hh, hx, hle⟩
    exact ⟨_, (flows_of_explore hh hx).mono_limit hle⟩
  · rintro ⟨reached, hflow⟩
    have hall : ∀ h ∈ b.handlers, ∃ a, b.arrival h = .ok a ∧ reached a.position a.depth := by
      intro h hmem
      obtain ⟨i, hi, hr⟩ := hflow.handlers h hmem
      exact ⟨⟨i, 1⟩, arrival_eq_ok.2 ⟨hi, rfl⟩, hr⟩
    obtain ⟨handlers, hh, harrivals⟩ := exists_mapM_eq_ok hall
    have hwait : ∀ a ∈ handlers.reverse ++ [⟨0, 0⟩], reached a.position a.depth := by
      intro a ha
      rcases List.mem_append.1 ha with ha | ha
      · exact harrivals a (List.mem_reverse.1 ha)
      · rw [List.mem_singleton.1 ha]
        exact hflow.entry
    -- and if there are depths that are respected, the walk does not fail
    obtain ⟨deepest, known, hx, hle⟩ := Depth.explore_of_respects hflow.respects
      (fun i d hd => absurd hd Depth.not_found_replicate) hwait (UInt16.zero_le)
    exact ⟨hflow.not_all_isLabel, handlers, deepest, known, hh, hx, hle⟩

/-- The largest depth that the analysis reports is within every bound that depths keep to. -/
theorem Flows.maxDepth_le {summary : DepthSummary} {reached : Nat → UInt16 → Prop}
    (h : b.Flows pool limit reached) (hb : b.analyze pool = .ok summary) :
    summary.maxDepth ≤ limit := by
  obtain ⟨summary', hb', hle⟩ := analyze_eq_ok.2 ⟨reached, h⟩
  cases hb.symm.trans hb'
  exact hle

end Body

end ClassTemplates
