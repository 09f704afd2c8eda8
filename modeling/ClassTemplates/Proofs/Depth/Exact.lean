import ClassTemplates.Proofs.Depth.Flow
import Mathlib.Data.Set.Card

/-!
# The analysis is exact

Which depths a body has is said here without the walk that looks for them: control flows along
edges, an instruction is reached along a path of them, and each instruction that is reached has one
depth, which the edges from it agree with. The analysis succeeds exactly if there are such depths,
and then these are what it finds, in whatever order it visits the instructions.

## Main definitions

- `Insn.goesOn`, `Insn.callsSubroutine` — whether control goes on to the next instruction
- `Body.Edge`, `Body.Reaches` — where control goes from an instruction, and from the start
- `Body.Levels` — a depth for each instruction that is reached
- `Body.Summarizes` — what the analysis reports of such depths

## Main results

- `Depth.exists_step_iff`, `Depth.follows_of_step` — one step of the walk, along the edges
- `Depth.only_reached_of_explore` — the walk finds nothing that is not reached
- `Body.depths_exact` — when the analysis succeeds, and with which result
-/

namespace ClassTemplates

/-! ### Edges -/

namespace Insn

/-- Control goes on to the next instruction with the depth behind this one. -/
def goesOn : Insn → Bool
  | jump opcode _ => !(opcode == Opcode.goto || opcode == Opcode.gotoWide
      || opcode == Opcode.jsr || opcode == Opcode.jsrWide)
  | tableSwitch .. | lookupSwitch .. => false
  | op opcode | localVar opcode _ => !Opcode.endsFlow opcode
  | _ => true

/-- The instruction calls a subroutine, behind which control goes on with the depth in front of the
call. -/
def callsSubroutine : Insn → Bool
  | jump opcode _ => opcode == Opcode.jsr || opcode == Opcode.jsrWide
  | _ => false

end Insn

namespace Body

/-- Control goes from the instruction with an index to another one. Behind a call of a subroutine
the depth is `kept`; along all other edges it is the depth behind the instruction. -/
inductive Edge (b : Body) (i : Nat) : Nat → Bool → Prop
  | target {insn : Insn} {l : Label} {j : Nat} : b.insns[i]? = some insn → l ∈ insn.targets →
      lastPlace? b.insns l = some j → Edge b i j false
  | next {insn : Insn} : b.insns[i]? = some insn → insn.goesOn = true → Edge b i (i + 1) false
  | back {insn : Insn} : b.insns[i]? = some insn → insn.callsSubroutine = true →
      Edge b i (i + 1) true

/-- Control reaches the index from the entry or from a handler. It may lie behind the last
instruction. -/
inductive Reaches (b : Body) : Nat → Prop
  | entry : Reaches b 0
  | handler {h : Handler Label} {j : Nat} : h ∈ b.handlers →
      lastPlace? b.insns h.target = some j → Reaches b j
  | step {i j : Nat} {kept : Bool} : Reaches b i → b.Edge i j kept → Reaches b j

/-- The label is placed. -/
def Bound (b : Body) (l : Label) : Prop :=
  ∃ i, lastPlace? b.insns l = some i

/-- The effect of the instruction with an index, unless there is none or its constant does not
resolve. -/
def effect? (b : Body) (pool : Pool) (i : Nat) : Option Effect :=
  b.insns[i]?.bind (Effect.ofInsn? pool)

/-- The depth that an edge leads to, from an instruction that is reached at `depth`. -/
def carry (e : Effect) (depth : UInt16) (kept : Bool) : UInt16 :=
  if kept then depth else e.after depth

/-- Every instruction that is reached has a depth: none at the entry, one at the handlers, enough
for what the instruction takes, and the one that each edge leads to. Control does not run past the
end, and branches to labels that are placed. -/
structure Levels (b : Body) (pool : Pool) (depth : Nat → UInt16) : Prop where
  entry : depth 0 = 0
  handlers : ∀ h ∈ b.handlers, ∀ j, lastPlace? b.insns h.target = some j → depth j = 1
  inside : ∀ i, b.Reaches i → i < b.insns.length
  enough : ∀ i, b.Reaches i → ∃ e, b.effect? pool i = some e ∧ e.pops ≤ depth i
  bound : ∀ i insn, b.Reaches i → b.insns[i]? = some insn → ∀ l ∈ insn.targets, b.Bound l
  agrees : ∀ i j kept e, b.Reaches i → b.Edge i j kept → b.effect? pool i = some e →
    depth j = carry e (depth i) kept

/-- What is reported of the depths of a body: each of them, their number, and the largest of them
and of the depths behind the instructions. -/
structure Summarizes (b : Body) (pool : Pool) (depth : Nat → UInt16) (summary : DepthSummary)
    (known : List (Option UInt16)) : Prop where
  length : known.length = b.insns.length
  known_iff : ∀ i d, known[i]? = some (some d) ↔ b.Reaches i ∧ depth i = d
  reachable : summary.reachable = {i | b.Reaches i}.ncard
  bounds : ∀ i e, b.Reaches i → b.effect? pool i = some e →
    depth i ≤ summary.maxDepth ∧ e.after (depth i) ≤ summary.maxDepth
  attained : ∃ i e, b.Reaches i ∧ b.effect? pool i = some e ∧
    summary.maxDepth = max (depth i) (e.after (depth i))

variable {b : Body} {pool : Pool} {insn : Insn} {i j : Nat} {kept : Bool}

theorem Edge.exists_insn (h : b.Edge i j kept) : ∃ insn, b.insns[i]? = some insn := by
  cases h with
  | target hi | next hi | back hi => exact ⟨_, hi⟩

theorem edge_iff (hi : b.insns[i]? = some insn) : b.Edge i j kept ↔
    kept = false ∧ ((∃ l ∈ insn.targets, lastPlace? b.insns l = some j) ∨
      insn.goesOn = true ∧ j = i + 1) ∨
    kept = true ∧ insn.callsSubroutine = true ∧ j = i + 1 := by
  constructor
  · intro h
    cases h with
    | target hi' hl hj =>
      cases hi.symm.trans hi'
      exact .inl ⟨rfl, .inl ⟨_, hl, hj⟩⟩
    | next hi' hgoes =>
      cases hi.symm.trans hi'
      exact .inl ⟨rfl, .inr ⟨hgoes, rfl⟩⟩
    | back hi' hcalls =>
      cases hi.symm.trans hi'
      exact .inr ⟨rfl, hcalls, rfl⟩
  · rintro (⟨rfl, ⟨l, hl, hj⟩ | ⟨hgoes, rfl⟩⟩ | ⟨rfl, hcalls, rfl⟩)
    · exact .target hi hl hj
    · exact .next hi hgoes
    · exact .back hi hcalls

end Body

/-! ### Steps along the edges -/

namespace Depth

open Body (carry)

variable {b : Body} {pool : Pool} {insn : Insn} {i : Nat} {d after deeper : UInt16}
  {next : List Arrival}

/-- The arrivals that a step lists are those at the ends of the edges. -/
def Follows (b : Body) (i : Nat) (d after : UInt16) (next : List Arrival) : Prop :=
  ∀ a, a ∈ next ↔ ∃ kept, b.Edge i a.position kept ∧ a.depth = if kept then d else after

/-- The places of several labels, if all are placed. -/
theorem mapM_place_eq_ok {labels : List Label} {places : List Nat}
    (h : labels.mapM (place b.placements) = .ok places) :
    (∀ l ∈ labels, b.Bound l) ∧
      ∀ j, j ∈ places ↔ ∃ l ∈ labels, lastPlace? b.insns l = some j := by
  have hplaces := mapM_eq_ok.1 h
  refine ⟨fun l hl => ?_, fun j => ⟨fun hj => ?_, ?_⟩⟩
  · obtain ⟨j, -, hj⟩ := exists_left_of_forall₂ hplaces.flip hl
    exact ⟨j, Body.place_eq_ok.1 hj⟩
  · obtain ⟨l, hl, hj⟩ := exists_left_of_forall₂ hplaces hj
    exact ⟨l, hl, Body.place_eq_ok.1 hj⟩
  · rintro ⟨l, hl, hj⟩
    obtain ⟨j', hmem, hj'⟩ := exists_left_of_forall₂ hplaces.flip hl
    cases hj.symm.trans (Body.place_eq_ok.1 hj')
    exact hmem

theorem follows_switch {targets : List Label} (hi : b.insns[i]? = some insn)
    (htargets : insn.targets = targets) (hgoes : insn.goesOn = false)
    (hcalls : insn.callsSubroutine = false)
    (h : (do
      let places ← targets.mapM (place b.placements)
      pure (places.map fun target => (⟨target, after⟩ : Arrival))) = .ok next) :
    (∀ l ∈ insn.targets, b.Bound l) ∧ Follows b i d after next := by
  obtain ⟨places, hplaces, h⟩ := bind_eq_ok.1 h
  obtain ⟨hbound, hmem⟩ := mapM_place_eq_ok hplaces
  cases h
  refine ⟨htargets ▸ hbound, fun a => ?_⟩
  obtain ⟨position, depth⟩ := a
  simp only [Body.edge_iff hi, htargets, hgoes, hcalls, ← hmem]
  constructor
  · intro ha
    obtain ⟨j, hj, heq⟩ := List.mem_map.1 ha
    cases heq
    exact ⟨false, .inl ⟨rfl, .inl hj⟩, rfl⟩
  · rintro ⟨kept, ⟨rfl, hj | ⟨hfalse, -⟩⟩ | ⟨-, hfalse, -⟩, rfl⟩
    · exact List.mem_map.2 ⟨position, hj, rfl⟩
    · cases hfalse
    · cases hfalse

/-- A jump leads to its target, and to the next instruction unless it is unconditional. -/
theorem follows_jump {opcode : UInt8} {target : Label} {j : Nat}
    (hi : b.insns[i]? = some (.jump opcode target)) (hj : lastPlace? b.insns target = some j)
    (h : successors b.placements (.jump opcode target) i d after = .ok next) :
    Follows b i d after next := by
  intro a
  obtain ⟨position, depth⟩ := a
  obtain ⟨j', hj', h⟩ := bind_eq_ok.1 h
  cases hj.symm.trans (Body.place_eq_ok.1 hj')
  have hedge (k : Nat) (kept : Bool) : b.Edge i k kept ↔ _ := Body.edge_iff hi
  simp only [Insn.targets, List.mem_singleton, exists_eq_left, hj, Option.some.injEq,
    @eq_comm _ j] at hedge
  by_cases hgoto : opcode = Opcode.goto ∨ opcode = Opcode.gotoWide
  · have hgoes : (Insn.jump opcode target).goesOn = false := by
      rcases hgoto with rfl | rfl <;> rfl
    have hcalls : (Insn.jump opcode target).callsSubroutine = false := by
      rcases hgoto with rfl | rfl <;> rfl
    rw [if_pos (by simpa using hgoto)] at h
    cases h
    simp [hedge, hgoes, hcalls]
  rw [if_neg (by simpa using hgoto)] at h
  by_cases hcall : opcode = Opcode.jsr ∨ opcode = Opcode.jsrWide
  · have hgoes : (Insn.jump opcode target).goesOn = false := by
      rcases hcall with rfl | rfl <;> rfl
    have hcalls : (Insn.jump opcode target).callsSubroutine = true := by
      rcases hcall with rfl | rfl <;> rfl
    rw [if_pos (by simpa using hcall)] at h
    cases h
    simp [hedge, hgoes, hcalls]
  · have hgoes : (Insn.jump opcode target).goesOn = true := by
      simp only [not_or] at hgoto hcall
      simp [Insn.goesOn, hgoto, hcall]
    have hcalls : (Insn.jump opcode target).callsSubroutine = false := by
      simpa [Insn.callsSubroutine] using hcall
    rw [if_neg (by simpa using hcall)] at h
    cases h
    simp [hedge, hgoes, hcalls, or_and_right]

/-- Where a step leads to is where the edges lead to, and all targets are placed. -/
theorem follows_of_successors (hi : b.insns[i]? = some insn)
    (h : successors b.placements insn i d after = .ok next) :
    (∀ l ∈ insn.targets, b.Bound l) ∧ Follows b i d after next := by
  cases insn with
  | jump opcode target =>
    obtain ⟨j, hj, -⟩ := bind_eq_ok.1 h
    rw [Body.place_eq_ok] at hj
    refine ⟨fun l hl => ?_, follows_jump hi hj h⟩
    rw [List.mem_singleton.1 hl]
    exact ⟨j, hj⟩
  | tableSwitch => exact follows_switch hi rfl rfl rfl h
  | lookupSwitch => exact follows_switch hi rfl rfl rfl h
  | op opcode | localVar opcode index =>
    cases h
    refine ⟨fun l hl => (List.not_mem_nil hl).elim, fun a => ?_⟩
    obtain ⟨position, depth⟩ := a
    cases hends : Opcode.endsFlow opcode <;>
      simp [Body.edge_iff hi, Insn.targets, Insn.goesOn, Insn.callsSubroutine, hends, and_comm]
  | _ =>
    cases h
    refine ⟨fun l hl => (List.not_mem_nil hl).elim, fun a => ?_⟩
    obtain ⟨position, depth⟩ := a
    simp [Body.edge_iff hi, Insn.targets, Insn.goesOn, Insn.callsSubroutine]

/-- A step leads somewhere if all targets are placed. -/
theorem exists_successors (i : Nat) (d after : UInt16) (h : ∀ l ∈ insn.targets, b.Bound l) :
    ∃ next, successors b.placements insn i d after = .ok next := by
  have hswitch (targets : List Label) (htargets : ∀ l ∈ targets, b.Bound l) :
      ∃ next, (do
        let places ← targets.mapM (place b.placements)
        pure (places.map fun target => (⟨target, after⟩ : Arrival))) = .ok next := by
    have hplaces : ∀ l ∈ targets, ∃ j, place b.placements l = .ok j ∧ True := by
      intro l hl
      obtain ⟨j, hj⟩ := htargets l hl
      exact ⟨j, Body.place_eq_ok.2 hj, trivial⟩
    obtain ⟨places, hok, -⟩ := exists_mapM_eq_ok hplaces
    exact ⟨_, bind_eq_ok.2 ⟨places, hok, rfl⟩⟩
  cases insn with
  | jump opcode target =>
    obtain ⟨j, hj⟩ := h target List.mem_cons_self
    simp only [successors, Body.place_eq_ok.2 hj, bind, Except.bind]
    split
    · exact ⟨_, rfl⟩
    split <;> exact ⟨_, rfl⟩
  | tableSwitch => exact hswitch _ h
  | lookupSwitch => exact hswitch _ h
  | _ => exact ⟨_, rfl⟩

/-- A step succeeds if the effect is known, the depth suffices and the targets are placed; it leads
along the edges. -/
theorem exists_step_iff (hi : b.insns[i]? = some insn) :
    (∃ deeper next, step pool b.placements insn i d = .ok (deeper, next)) ↔
      (∃ e, b.effect? pool i = some e ∧ e.pops ≤ d) ∧ ∀ l ∈ insn.targets, b.Bound l := by
  have heffect : b.effect? pool i = Effect.ofInsn? pool insn := by rw [Body.effect?, hi]; rfl
  rw [heffect]
  constructor
  · rintro ⟨deeper, next, h⟩
    obtain ⟨e, he, hpops, -, hnext⟩ := step_eq_ok.1 h
    exact ⟨⟨e, he, hpops⟩, (follows_of_successors hi hnext).1⟩
  · rintro ⟨⟨e, he, hpops⟩, hbound⟩
    obtain ⟨next, hnext⟩ := exists_successors i d (e.after d) hbound
    exact ⟨_, next, step_eq_ok.2 ⟨e, he, hpops, rfl, hnext⟩⟩

/-- What a step gives: the deeper of the depths around the instruction, and the ends of the edges.
-/
theorem follows_of_step (hi : b.insns[i]? = some insn)
    (h : step pool b.placements insn i d = .ok (deeper, next)) :
    ∃ e, b.effect? pool i = some e ∧ e.pops ≤ d ∧ deeper = max d (e.after d) ∧
      (∀ l ∈ insn.targets, b.Bound l) ∧ Follows b i d (e.after d) next := by
  obtain ⟨e, he, hpops, hdeeper, hnext⟩ := step_eq_ok.1 h
  refine ⟨e, ?_, hpops, hdeeper, follows_of_successors hi hnext⟩
  rw [Body.effect?, hi]
  exact he

/-! ### What the walk finds -/

theorem max_eq_or (a b : UInt16) : max a b = a ∨ max a b = b := by
  show (if a ≤ b then b else a) = a ∨ (if a ≤ b then b else a) = b
  by_cases h : a ≤ b
  · exact .inr (if_pos h)
  · exact .inl (if_neg h)

/-- The walk finds only what the steps lead to, and its depth is one of those around them. -/
theorem only_reached_of_explore {placements : Std.HashMap Label Nat} {insns : Array Insn}
    {known all : Vector (Option UInt16) insns.size} {deepest limit : UInt16}
    {waiting : List Arrival} {P : Nat → UInt16 → Prop}
    (hstep : ∀ i d insn deeper next, P i d → insns[i]? = some insn →
      step pool placements insn i d = .ok (deeper, next) → ∀ a ∈ next, P a.position a.depth)
    (hknown : ∀ i d, Found known i d → P i d) (hwait : ∀ a ∈ waiting, P a.position a.depth)
    (h : explore pool placements insns known deepest waiting = .ok (limit, all)) :
    (∀ i d, Found all i d → P i d) ∧ (limit = deepest ∨ ∃ i d insn next, P i d ∧
      insns[i]? = some insn ∧ step pool placements insn i d = .ok (limit, next)) := by
  -- by induction on the walk: what is known and what is waiting has the property
  fun_induction explore pool placements insns known deepest waiting with
  | case1 known deepest =>
    cases h
    exact ⟨hknown, .inl rfl⟩
  | case2 known deepest position waiting hlt depth hk ih =>
    exact ih hknown (fun a ha => hwait a (List.mem_cons_of_mem _ ha)) h
  | case3 => cases h
  | case4 => cases h
  | case5 known deepest position depth waiting hlt hk deeper next hok ih =>
    have hhere : P position depth := hwait _ List.mem_cons_self
    have hget : insns[position]? = some insns[position] := Array.getElem?_eq_getElem hlt
    have hset : ∀ i d, Found (known.set position (some depth)) i d → P i d := by
      intro i d hf
      rcases (found_set hlt).1 hf with ⟨rfl, rfl⟩ | ⟨-, hf⟩
      · exact hhere
      · exact hknown i d hf
    have hmore : ∀ a ∈ next.reverse ++ waiting, P a.position a.depth := by
      intro a ha
      rcases List.mem_append.1 ha with ha | ha
      · exact hstep _ _ _ _ _ hhere hget hok a (List.mem_reverse.1 ha)
      · exact hwait a (List.mem_cons_of_mem _ ha)
    obtain ⟨hall, hlimit⟩ := ih hset hmore h
    refine ⟨hall, ?_⟩
    rcases hlimit with hlimit | hlimit
    · -- the greatest depth is the one before, or that of this step
      rcases max_eq_or deepest deeper with hmax | hmax
      · exact .inl (hlimit.trans hmax)
      · rw [hmax] at hlimit
        exact .inr ⟨position, depth, _, next, hhere, hget, hlimit ▸ hok⟩
    · exact .inr hlimit
  | case6 => cases h

/-- As many depths are known as there are indices with one. -/
theorem ncard_known (known : List (Option UInt16)) :
    {i : Nat | ∃ d, known[i]? = some (some d)}.ncard = known.countP (·.isSome) := by
  induction known using List.reverseRecOn with
  | nil => simp
  | append_singleton known x ih =>
    -- the last index is the length of the others
    have hlast (i : Nat) (d : UInt16) : (known ++ [x])[i]? = some (some d) ↔
        known[i]? = some (some d) ∨ i = known.length ∧ x = some d := by
      rcases Nat.lt_trichotomy i known.length with hi | rfl | hi
      · rw [List.getElem?_append_left hi]
        simp [Nat.ne_of_lt hi]
      · simp
      · rw [List.getElem?_append_right (Nat.le_of_lt hi),
          List.getElem?_eq_none (l := known) (Nat.le_of_lt hi),
          List.getElem?_eq_none (by simp; omega)]
        simp
        omega
    cases x with
    | none => simpa [hlast] using ih
    | some d =>
      have hset : {i : Nat | ∃ d', (known ++ [some d])[i]? = some (some d')} =
          insert known.length {i : Nat | ∃ d, known[i]? = some (some d)} := by
        ext i
        simp only [hlast, Set.mem_ofPred_eq, Set.mem_insert_iff, Option.some.injEq]
        grind
      have hfinite : {i : Nat | ∃ d, known[i]? = some (some d)}.Finite := by
        refine (Set.finite_lt_nat known.length).subset fun i hi => ?_
        obtain ⟨d, hd⟩ := hi
        exact (List.getElem?_eq_some_iff.1 hd).1
      rw [hset, Set.ncard_insert_of_notMem (by simp) hfinite, ih]
      simp

end Depth

/-! ### The analysis of a body -/

namespace Body

open Depth (Found Arrival)

variable {b : Body} {pool : Pool} {depth : Nat → UInt16} {handlers : List Arrival}
  {deepest : UInt16} {all : Vector (Option UInt16) b.insns.toArray.size}

/-- Steps from depths lead to the depths at the ends of the edges. -/
theorem Levels.agrees_of_step {i : Nat} {d deeper : UInt16} {insn : Insn} {next : List Arrival}
    (hlevels : b.Levels pool depth) (hd : b.Reaches i ∧ depth i = d)
    (hi : b.insns.toArray[i]? = some insn)
    (hstep : Depth.step pool b.placements insn i d = .ok (deeper, next)) :
    ∀ a ∈ next, b.Reaches a.position ∧ depth a.position = a.depth := by
  rw [List.getElem?_toArray] at hi
  obtain ⟨hreach, rfl⟩ := hd
  obtain ⟨e, he, -, -, -, hfollows⟩ := Depth.follows_of_step hi hstep
  intro a ha
  obtain ⟨kept, hedge, hdepth⟩ := (hfollows a).1 ha
  exact ⟨hreach.step hedge, (hlevels.agrees _ _ _ _ hreach hedge he).trans hdepth.symm⟩

/-- The arrivals that the walk starts from are those at the handlers and at the entry. -/
theorem Levels.agrees_at_start (hlevels : b.Levels pool depth)
    (hh : b.handlers.mapM b.arrival = .ok handlers) :
    ∀ a ∈ handlers.reverse ++ [⟨0, 0⟩], b.Reaches a.position ∧ depth a.position = a.depth := by
  intro a ha
  rcases List.mem_append.1 ha with ha | ha
  · obtain ⟨h, hmem, hok⟩ := exists_left_of_forall₂ (mapM_eq_ok.1 hh) (List.mem_reverse.1 ha)
    obtain ⟨hplace, hone⟩ := arrival_eq_ok.1 hok
    exact ⟨.handler hmem hplace, (hlevels.handlers h hmem _ hplace).trans hone.symm⟩
  · rw [List.mem_singleton.1 ha]
    exact ⟨.entry, hlevels.entry⟩

/-- The walk visits all that is reached. -/
theorem exists_found_of_reaches (hh : b.handlers.mapM b.arrival = .ok handlers)
    (hx : Depth.explore pool b.placements b.insns.toArray (Vector.replicate _ none) 0
      (handlers.reverse ++ [⟨0, 0⟩]) = .ok (deepest, all)) {i : Nat} (h : b.Reaches i) :
    ∃ d, Found all i d := by
  obtain ⟨-, -, hwait, hfound⟩ := Depth.found_of_explore hx
  induction h with
  | entry => exact ⟨0, hwait ⟨0, 0⟩ (by simp)⟩
  | @handler h j hmem hj =>
    obtain ⟨a, ha, hok⟩ := exists_mem_of_mapM_eq_ok hh hmem
    obtain ⟨hplace, -⟩ := arrival_eq_ok.1 hok
    cases hj.symm.trans hplace
    exact ⟨a.depth, hwait a (List.mem_append_left _ (List.mem_reverse.2 ha))⟩
  | @step i j kept _ hedge ih =>
    obtain ⟨d, hd⟩ := ih
    obtain ⟨insn, deeper, next, hi, hstep, -, hnext⟩ :=
      (hfound i d hd).resolve_left Depth.not_found_replicate
    rw [List.getElem?_toArray] at hi
    obtain ⟨e, -, -, -, -, hfollows⟩ := Depth.follows_of_step hi hstep
    exact ⟨_, hnext ⟨j, carry e d kept⟩ ((hfollows _).2 ⟨kept, hedge, rfl⟩)⟩

/-- The depth that is known at an index, zero if none is. -/
def foundLevel {n : Nat} (known : Vector (Option UInt16) n) (i : Nat) : UInt16 :=
  (known[i]?.join).getD 0

theorem foundLevel_eq {n : Nat} {known : Vector (Option UInt16) n} {i : Nat} {d : UInt16}
    (h : Found known i d) : foundLevel known i = d := by
  rw [foundLevel, h]
  rfl

/-- What the walk finds are depths of the body. -/
theorem levels_of_explore (hh : b.handlers.mapM b.arrival = .ok handlers)
    (hx : Depth.explore pool b.placements b.insns.toArray (Vector.replicate _ none) 0
      (handlers.reverse ++ [⟨0, 0⟩]) = .ok (deepest, all)) : b.Levels pool (foundLevel all) := by
  obtain ⟨-, -, hwait, hfound⟩ := Depth.found_of_explore hx
  -- wherever control goes, the walk has found the depth and taken a step
  have hlevel {i : Nat} (h : b.Reaches i) : Found all i (foundLevel all i) := by
    obtain ⟨d, hd⟩ := exists_found_of_reaches hh hx h
    rwa [foundLevel_eq hd]
  have hstep {i : Nat} (h : b.Reaches i) : ∃ insn deeper next, b.insns[i]? = some insn ∧
      Depth.step pool b.placements insn i (foundLevel all i) = .ok (deeper, next) ∧
      ∀ a ∈ next, Found all a.position a.depth := by
    obtain ⟨insn, deeper, next, hi, hstep, -, hnext⟩ :=
      (hfound i _ (hlevel h)).resolve_left Depth.not_found_replicate
    rw [List.getElem?_toArray] at hi
    exact ⟨insn, deeper, next, hi, hstep, hnext⟩
  constructor
  case entry => exact foundLevel_eq (hwait ⟨0, 0⟩ (by simp))
  case handlers =>
    intro h hmem j hj
    obtain ⟨a, ha, hok⟩ := exists_mem_of_mapM_eq_ok hh hmem
    obtain ⟨hplace, hone⟩ := arrival_eq_ok.1 hok
    cases hj.symm.trans hplace
    rw [← hone]
    exact foundLevel_eq (hwait a (List.mem_append_left _ (List.mem_reverse.2 ha)))
  case inside =>
    intro i h
    obtain ⟨insn, -, -, hi, -⟩ := hstep h
    exact (List.getElem?_eq_some_iff.1 hi).1
  case enough =>
    intro i h
    obtain ⟨insn, deeper, next, hi, hok, -⟩ := hstep h
    exact ((Depth.exists_step_iff hi).1 ⟨deeper, next, hok⟩).1
  case bound =>
    intro i insn h hi
    obtain ⟨insn', deeper, next, hi', hok, -⟩ := hstep h
    cases hi.symm.trans hi'
    exact ((Depth.exists_step_iff hi).1 ⟨deeper, next, hok⟩).2
  case agrees =>
    intro i j kept e h hedge he
    obtain ⟨insn, deeper, next, hi, hok, hnext⟩ := hstep h
    obtain ⟨e', he', -, -, -, hfollows⟩ := Depth.follows_of_step hi hok
    cases he.symm.trans he'
    exact foundLevel_eq
      (hnext ⟨j, carry e (foundLevel all i) kept⟩ ((hfollows _).2 ⟨kept, hedge, rfl⟩))

/-- Depths of a body are respected by its steps. -/
theorem Levels.flows (hlevels : b.Levels pool depth) (hbound : ∀ h ∈ b.handlers, b.Bound h.target) :
    b.Flows pool 65535 fun i d => b.Reaches i ∧ depth i = d := by
  refine ⟨⟨?_, ?_⟩, ⟨.entry, hlevels.entry⟩, fun h hmem => ?_⟩
  · rintro i d d' ⟨-, rfl⟩ ⟨-, rfl⟩
    rfl
  · rintro i d ⟨hreach, rfl⟩
    have hlt := hlevels.inside i hreach
    have hi : b.insns[i]? = some b.insns[i] :=
      List.getElem?_eq_getElem hlt
    obtain ⟨deeper, next, hok⟩ := (Depth.exists_step_iff hi).2
      ⟨hlevels.enough i hreach, hlevels.bound i _ hreach hi⟩
    have hi' : b.insns.toArray[i]? = some b.insns[i] := by rw [List.getElem?_toArray, hi]
    refine ⟨b.insns[i], deeper, next, hi', hok, ?_, ?_⟩
    · exact UInt16.le_iff_toNat_le.2 (Nat.le_of_lt_succ deeper.toNat_lt)
    · exact hlevels.agrees_of_step ⟨hreach, rfl⟩ hi' hok
  · obtain ⟨i, hi⟩ := hbound h hmem
    exact ⟨i, hi, .handler hmem hi, hlevels.handlers h hmem i hi⟩

/-- What the analysis reports are the depths of the body. -/
theorem Levels.summarizes {summary : DepthSummary} {known : List (Option UInt16)}
    (hlevels : b.Levels pool depth) (h : b.depths pool = .ok (summary, known)) :
    b.Summarizes pool depth summary known := by
  obtain ⟨-, handlers, deepest, all, hh, hx, rfl, rfl⟩ := depths_eq_ok.1 h
  obtain ⟨hall, hdeepest⟩ := Depth.only_reached_of_explore
    (P := fun i d => b.Reaches i ∧ depth i = d)
    (fun i d insn deeper next hd hi hstep => hlevels.agrees_of_step hd hi hstep)
    (fun i d hd => absurd hd Depth.not_found_replicate) (hlevels.agrees_at_start hh) hx
  obtain ⟨-, -, -, hfound⟩ := Depth.found_of_explore hx
  -- the walk finds all that is reached, and nothing else
  have hiff (i : Nat) (d : UInt16) : Found all i d ↔ b.Reaches i ∧ depth i = d := by
    refine ⟨hall i d, ?_⟩
    rintro ⟨hreach, rfl⟩
    obtain ⟨d, hd⟩ := exists_found_of_reaches hh hx hreach
    rwa [(hall i d hd).2]
  have hknown (i : Nat) (d : UInt16) :
      all.toList[i]? = some (some d) ↔ b.Reaches i ∧ depth i = d := by
    rw [← hiff, Found, Vector.getElem?_toList]
  constructor
  case length => simp
  case known_iff => exact hknown
  case reachable =>
    have hset : {i | b.Reaches i} = {i : Nat | ∃ d, all.toList[i]? = some (some d)} := by
      ext i
      simp only [Set.mem_ofPred_eq, hknown, exists_and_left, exists_eq', and_true]
    rw [hset, Depth.ncard_known]
  case bounds =>
    intro i e hreach he
    obtain ⟨insn, deeper, next, hi, hok, hle, -⟩ :=
      (hfound i _ ((hiff i _).2 ⟨hreach, rfl⟩)).resolve_left Depth.not_found_replicate
    rw [List.getElem?_toArray] at hi
    obtain ⟨e', he', -, rfl, -⟩ := Depth.follows_of_step hi hok
    cases he.symm.trans he'
    exact Depth.max_le.1 hle
  case attained =>
    rcases hdeepest with rfl | ⟨i, d, insn, next, ⟨hreach, rfl⟩, hi, hok⟩
    · -- nothing is deeper than the empty stack at the entry
      obtain ⟨insn, deeper, next, hi, hok, hle, -⟩ :=
        (hfound 0 0 ((hiff 0 0).2 ⟨.entry, hlevels.entry⟩)).resolve_left Depth.not_found_replicate
      rw [List.getElem?_toArray] at hi
      obtain ⟨e, he, -, rfl, -⟩ := Depth.follows_of_step hi hok
      refine ⟨0, e, .entry, he, ?_⟩
      rw [hlevels.entry]
      exact UInt16.le_antisymm UInt16.zero_le hle
    · rw [List.getElem?_toArray] at hi
      obtain ⟨e, he, -, hmax, -⟩ := Depth.follows_of_step hi hok
      exact ⟨i, e, hreach, he, hmax⟩

/-- A body that can be analysed has depths, and they are reported. -/
theorem exists_levels {summary : DepthSummary} {known : List (Option UInt16)}
    (h : b.depths pool = .ok (summary, known)) :
    ∃ depth, b.Levels pool depth ∧ b.Summarizes pool depth summary known := by
  obtain ⟨-, handlers, deepest, all, hh, hx, -, -⟩ := depths_eq_ok.1 h
  have hlevels := levels_of_explore hh hx
  exact ⟨_, hlevels, hlevels.summarizes h⟩

/-- The analysis succeeds exactly if the body has something to run, its handlers are placed, and its
instructions have depths that all edges agree with. It reports these depths, the number of
instructions that are reached and the largest depth around them. -/
theorem depths_exact (b : Body) (pool : Pool) :
    ((∃ out, b.depths pool = .ok out) ↔ (∃ insn ∈ b.insns, insn.isLabel = false) ∧
      (∀ h ∈ b.handlers, b.Bound h.target) ∧ ∃ depth, b.Levels pool depth) ∧
    ∀ summary known, b.depths pool = .ok (summary, known) →
      ∀ depth, b.Levels pool depth → b.Summarizes pool depth summary known := by
  have hlabels : b.insns.all Insn.isLabel = false ↔ ∃ insn ∈ b.insns, insn.isLabel = false := by
    simp
  refine ⟨⟨?_, ?_⟩, fun summary known h depth hlevels => hlevels.summarizes h⟩
  · rintro ⟨⟨summary, known⟩, h⟩
    obtain ⟨hall, handlers, -, -, hh, -⟩ := depths_eq_ok.1 h
    obtain ⟨depth, hlevels, -⟩ := exists_levels h
    refine ⟨hlabels.1 hall, fun h hmem => ?_, depth, hlevels⟩
    obtain ⟨a, -, hok⟩ := exists_mem_of_mapM_eq_ok hh hmem
    exact ⟨_, (arrival_eq_ok.1 hok).1⟩
  · rintro ⟨-, hbound, depth, hlevels⟩
    obtain ⟨summary, h, -⟩ := analyze_eq_ok.2 ⟨_, hlevels.flows hbound⟩
    obtain ⟨out, hout, -⟩ := map_eq_ok.1 h
    exact ⟨out, hout⟩

end Body

end ClassTemplates
