import Mathlib.Data.Fintype.EquivFin
import ClassTemplates.Proofs.Expansion.Segments
import ClassTemplates.Proofs.Machine.Straight

/-!
# Runs of an expanded body

Where the machine that is given a body pushes the value of an eligible load in one step, the machine
that is given the expanded body runs the code of the expansion. The builder it makes for that is
never seen again, so every other instruction goes on as before.

## Main definitions

- `Machine.moved` — a state of a body as one of the body with splices
- `Machine.Matches` — states that agree up to builders that nothing knows
- `Expander.planned` — the segments of the loads that have to be expanded

## Main results

- `Machine.exists_steps_of_builds` — the code in place of a load does what the load did
- `Machine.exists_steps` — a step of a body is matched by steps of the body with splices
- `Machine.exists_run` — a run of a body is matched by a run of the body with splices
- `Expander.expandBody_refines` — expanding a body keeps what its runs can be seen to do
-/

namespace ClassTemplates

namespace Machine

variable {α ω : Type} {M : Machine α ω} {lookup : LookupMethod} {p q : Pool}

/-! ### A body and the body with splices -/

section

variable {b b' : Body} {xs : List Splice} {A : Finset Nat} {g : Finmap fun _ : Nat => String}
  {planned : Nat → Option (List Segment)}

/-- A state of a body as one of the body with splices, with builders that nothing knows. -/
def moved (xs : List Splice) (g : Finmap fun _ : Nat => String) (s : State α ω) : State α ω :=
  (s.1.map (Splice.place xs), s.2.beside g)

theorem getElem?_placements_after (hxs : Splice.OfLoads xs) (hb : b.insns = Splice.before xs)
    (hb' : b'.insns = Splice.after xs) {l : Label} :
    b'.placements[l]? = b.placements[l]?.map (Splice.place xs) := by
  rw [Body.getElem?_placements, Body.getElem?_placements, hb', hb, Splice.lastPlace?_after hxs]

theorem covers_place (hxs : Splice.OfLoads xs) (hb : b.insns = Splice.before xs)
    (hb' : b'.insns = Splice.after xs) {k : Nat} (hk : k < xs.length) {h : Handler Label} :
    covers b' h (Splice.place xs k) = covers b h k := by
  unfold covers
  rw [getElem?_placements_after hxs hb hb', getElem?_placements_after hxs hb hb']
  cases hs : b.placements[h.start]? with
  | none => rfl
  | some start =>
    cases ht : b.placements[h.stop]? with
    | none => rfl
    | some stop =>
      rw [Body.getElem?_placements, hb] at hs ht
      have hstart := lt_of_lastPlace? hs
      have hstop := lt_of_lastPlace? ht
      rw [Splice.length_before] at hstart hstop
      have hlow := Splice.place_lt_iff hxs.filled hk.le hstart.le
      have hhigh := Splice.place_lt_iff hxs.filled hk.le hstop.le
      rw [Bool.eq_iff_iff]
      simp only [Option.map_some, Bool.and_eq_true, decide_eq_true_eq]
      omega

/-- Behind an instruction that is kept the body with splices goes on at the same place. -/
theorem Resumes.moved (hxs : Splice.OfLoads xs) (hb : b.insns = Splice.before xs)
    (hb' : b' = { b with insns := Splice.after xs }) {k : Nat} {x : Splice}
    (hk : xs[k]? = some x) (hx : x.code = none) {o : Transfer α} {m : Memory α ω} {s : State α ω}
    (h : Resumes M b k o m s) :
    Resumes M b' (Splice.place xs k) o (m.beside g) (moved xs g s) := by
  have hins : b'.insns = Splice.after xs := by rw [hb']
  have hlt := (List.getElem?_eq_some_iff.1 hk).1
  have hhandler (v : Value α) : M.handler? b' (Splice.place xs k) v = M.handler? b k v := by
    have hsame : b'.handlers = b.handlers := by rw [hb']
    unfold handler?
    rw [hsame]
    simp only [covers_place hxs hb hins hlt]
  cases h with
  | next =>
    have hnext : Splice.place xs (k + 1) = Splice.place xs k + 1 := by
      rw [Splice.place_succ hk, Splice.result_of_none hx, List.length_singleton]
    simp only [Machine.moved, Option.map_some, hnext]
    exact .next
  | branch hj => exact .branch (by simp [getElem?_placements_after hxs hb hins, hj])
  | caught hh hj =>
    exact .caught ((hhandler _).trans hh) (by simp [getElem?_placements_after hxs hb hins, hj])
  | uncaught hh => exact .uncaught ((hhandler _).trans hh)
  | leave => exact .leave

/-- Of each index, whether it holds an instruction that was replaced, and by which code. -/
def Replaces (lookup : LookupMethod) (q : Pool) (xs : List Splice)
    (planned : Nat → Option (List Segment)) : Prop :=
  ∀ k x, xs[k]? = some x → match planned k with
    | none => x.code = none
    | some segments => ∃ code, x.code = some code ∧ Builds lookup q segments code

/-- A load that is replaced by code is not a label. -/
theorem code_eq_none_of_label (hxs : Splice.OfLoads xs) {x : Splice} {l : Label} (hx : x ∈ xs)
    (hl : x.insn = .label l) : x.code = none := by
  cases hc : x.code with
  | none => rfl
  | some code =>
    obtain ⟨⟨i, hi⟩, -⟩ := hxs x hx code hc
    rw [hi] at hl
    cases hl

/-- The code in place of a load pushes the value of the load. The builder that it makes gets a
reference that is not in `A` and that no builder in `g` has. -/
theorem exists_steps_of_builds (hxs : Splice.OfLoads xs) (hins : b'.insns = Splice.after xs)
    {k : Nat} {x : Splice} {segments : List Segment} {code : List Insn} (hx : xs[k]? = some x)
    (hc : x.code = some code) (hbuilds : Builds lookup q segments code) {m : Memory α ω}
    (hA : m.builders.keys ⊆ A) (hg : ∀ r ∈ A, r ∉ g) :
    ∃ g', (∀ r ∈ A, r ∉ g') ∧
      Relation.TransGen (Step M lookup q b' fun _ => none) (moved xs g (some k, m))
        (moved xs g' (some (k + 1), M.pushValue segments m)) := by
  obtain ⟨r, hr⟩ := Infinite.exists_notMem_finset (A ∪ g.keys)
  rw [Finset.mem_union, not_or, Finmap.mem_keys] at hr
  have hrm : r ∉ m.builders := fun h => hr.1 (hA (Finmap.mem_keys.2 h))
  have hrun := runsThrough_of_builds (M := M) (m := m.beside g) hbuilds
    fun h => (Finmap.mem_union.1 h).elim hrm hr.2
  obtain ⟨front, back, hafter, hfront⟩ := Splice.after_eq hx
  rw [Splice.result_of_some hc, ← hins] at hafter
  have hsteps := hrun.steps hafter
  refine ⟨g.insert r (M.valueOf segments), ?_, ?_⟩
  · intro t ht htg
    rcases Finmap.mem_insert.1 htg with rfl | htg
    · exact hr.1 ht
    · exact hg t ht htg
  · have hne := (hxs x (List.mem_of_getElem? hx) code hc).2.1
    simp only [Machine.moved, Option.map_some, Splice.place_succ hx, Splice.result_of_some hc,
      ← hfront, Memory.beside, pushValue, union_insert hrm]
    -- the code is not empty, so there is a first step
    cases hsteps.cases_head with
    | inl heq =>
      have := congrArg (·.1) heq
      simp [hne] at this
    | inr hhead =>
      obtain ⟨u, hu, hrest⟩ := hhead
      exact .head' hu hrest

/-- A step of a body is matched by steps of the body with splices. No builder that is made for them
is among those in `A`. -/
theorem exists_steps (hpq : p ≤ q) (hp : p.Closed)
    (hi : ∀ i ∈ b.insns, p.Inside i.constantIndex) (hxs : Splice.OfLoads xs)
    (hb : b.insns = Splice.before xs) (hb' : b' = { b with insns := Splice.after xs })
    (hplan : Replaces lookup q xs planned) (hout : ∀ k, xs.length ≤ k → planned k = none)
    {s s' : State α ω} (hA : s.2.builders.keys ⊆ A) (hA' : s'.2.builders.keys ⊆ A)
    (hg : ∀ r ∈ A, r ∉ g) (h : Step M lookup p b planned s s') :
    ∃ g', (∀ r ∈ A, r ∉ g') ∧
      Relation.TransGen (Step M lookup q b' fun _ => none) (moved xs g s) (moved xs g' s') := by
  have hget (k : Nat) : b.insns[k]? = (xs[k]?).map Splice.insn := by
    rw [hb, Splice.getElem?_before]
  have hins : b'.insns = Splice.after xs := by rw [hb']
  have hdisjoint {m : Memory α ω} (hm : m.builders.keys ⊆ A) : m.builders.Disjoint g :=
    fun r hr => hg r (hm (Finmap.mem_keys.2 hr))
  cases h with
  | @label k l m hk =>
    obtain ⟨x, hx, hl⟩ := Option.map_eq_some_iff.1 ((hget k).symm.trans hk)
    have hc := code_eq_none_of_label hxs (List.mem_of_getElem? hx) hl
    have hkept := Splice.getElem?_after_of_none hx hc
    rw [← hins, hl] at hkept
    refine ⟨g, hg, .single ?_⟩
    simp only [Machine.moved, Option.map_some, Splice.place_succ hx, Splice.result_of_none hc]
    exact .label hkept
  | @planned k segments m hk =>
    have hlt : k < xs.length := by
      by_contra hge
      rw [hout k (Nat.le_of_not_lt hge)] at hk
      cases hk
    have hx := List.getElem?_eq_getElem hlt
    have hspec := hplan k _ hx
    rw [hk] at hspec
    obtain ⟨code, hc, hbuilds⟩ := hspec
    exact exists_steps_of_builds hxs hins hx hc hbuilds hA hg
  | @insn k i m o m' s' hk hl hno hexec hres =>
    obtain ⟨x, hx, rfl⟩ := Option.map_eq_some_iff.1 ((hget k).symm.trans hk)
    have hc := hplan k x hx
    rw [hno] at hc
    have hkept := Splice.getElem?_after_of_none hx hc
    rw [← hins] at hkept
    have hm' : m'.builders = s'.2.builders := by cases hres <;> rfl
    have hexec' := (hexec.of_le hpq hp (hi _ (List.mem_of_getElem? hk))).beside
      (hdisjoint hA) (hdisjoint (hm' ▸ hA'))
    exact ⟨g, hg, .single (.insn hkept hl rfl hexec' (hres.moved hxs hb hb' hx hc))⟩

/-- The states agree up to builders that the first does not know. -/
def Matches (xs : List Splice) (s t : State α ω) : Prop :=
  ∃ g, s.2.builders.Disjoint g ∧ t = moved xs g s

/-- The builders that occur in a run. -/
theorem exists_builders (ss : List (State α ω)) :
    ∃ A : Finset Nat, ∀ t ∈ ss, t.2.builders.keys ⊆ A := by
  induction ss with
  | nil => exact ⟨∅, by simp⟩
  | cons s ss ih =>
    obtain ⟨A, hA⟩ := ih
    refine ⟨s.2.builders.keys ∪ A, fun t ht => ?_⟩
    rcases List.mem_cons.1 ht with rfl | ht
    · exact Finset.subset_union_left
    · exact (hA t ht).trans Finset.subset_union_right

/-- A run of a body is matched by a run of the body with splices. No builder that is made for it is
among those in `A`, which has all that the run knows. -/
theorem exists_run (hpq : p ≤ q) (hp : p.Closed)
    (hi : ∀ i ∈ b.insns, p.Inside i.constantIndex) (hxs : Splice.OfLoads xs)
    (hb : b.insns = Splice.before xs) (hb' : b' = { b with insns := Splice.after xs })
    (hplan : Replaces lookup q xs planned) (hout : ∀ k, xs.length ≤ k → planned k = none)
    {s : State α ω} {ss : List (State α ω)} (hA : ∀ t ∈ s :: ss, t.2.builders.keys ⊆ A)
    (hg : ∀ r ∈ A, r ∉ g) (h : (s :: ss).IsChain (Step M lookup p b planned)) :
    ∃ ts, (moved xs g s :: ts).IsChain (Relation.TransGen (Step M lookup q b' fun _ => none)) ∧
      List.Forall₂ (Matches xs) ss ts := by
  induction ss generalizing s g with
  | nil => exact ⟨[], .singleton _, .nil⟩
  | cons s' ss ih =>
    obtain ⟨hstep, hrest⟩ := List.isChain_cons_cons.1 h
    have hs' := hA s' (List.mem_cons_of_mem _ List.mem_cons_self)
    obtain ⟨g', hg', hsteps⟩ := exists_steps hpq hp hi hxs hb hb' hplan hout
      (hA s List.mem_cons_self) hs' hg hstep
    obtain ⟨ts, hts, hmatch⟩ := ih (fun t ht => hA t (List.mem_cons_of_mem _ ht)) hg' hrest
    refine ⟨moved xs g' s' :: ts, .cons_cons hsteps hts, .cons ⟨g', ?_, rfl⟩ hmatch⟩
    exact fun r hr => hg' r (hs' (Finmap.mem_keys.2 hr))

end

end Machine

namespace Expander

variable {catalog : Catalog} {lookup : LookupMethod} {e e' : Expander} {p : Pool}

/-- The segments of the load with an index, if it has to be expanded. -/
def planned (catalog : Catalog) (lookup : LookupMethod) (p : Pool) (insns : List Insn) (k : Nat) :
    Option (List Segment) := do
  let insn ← insns[k]?
  let text ← eligible? catalog lookup p insn (insns.drop (k + 1))
  pure (Segment.ofText catalog text)

/-- For instructions that stay inside a closed pool, loads are replaced that are eligible in it,
also if the pool has grown before. -/
theorem Expands.replaces_of_le {q : Pool} {xs : List Splice} (h : Expands catalog lookup e xs e')
    (he : e.Ready lookup) (hp : p.Closed) (hle : p ≤ e.pool) (hq : e'.pool ≤ q)
    (hi : ∀ x ∈ Splice.before xs, p.Inside x.constantIndex) :
    Machine.Replaces lookup q xs (planned catalog lookup p (Splice.before xs)) := by
  intro k x hk
  have hspec := h.splice_of_closed he hp hle hi hk
  have hplan : planned catalog lookup p (Splice.before xs) k =
      (eligible? catalog lookup p x.insn ((Splice.before xs).drop (k + 1))).map
        (Segment.ofText catalog) := by
    simp only [planned, Splice.getElem?_before, hk, Option.bind_eq_bind,
      Option.bind_some, Option.pure_def, Option.map_eq_bind, Function.comp_def]
  rw [hplan]
  generalize eligible? catalog lookup p x.insn ((Splice.before xs).drop (k + 1)) = text at hspec
  cases text with
  | none => exact hspec
  | some text =>
    obtain ⟨code, hcode, hbuilds⟩ := hspec
    exact ⟨code, hcode, hbuilds.mono hq⟩

theorem Expands.replaces {xs : List Splice} (h : Expands catalog lookup e xs e')
    (he : e.Ready lookup) (hp : e.pool.Closed)
    (hi : ∀ x ∈ Splice.before xs, e.pool.Inside x.constantIndex) :
    Machine.Replaces lookup e'.pool xs (planned catalog lookup e.pool (Splice.before xs)) :=
  h.replaces_of_le he hp (Pool.le_refl _) (Pool.le_refl _) hi

/-- Expanding a body replaces the eligible loads by their expansions and keeps all else in order.
Every run of the body, in which such a load pushes the value of its segments, is matched by a run of
the expanded body with the same stack, the same world and the same calls of the lookup method. -/
theorem expandBody_refines {b b' : Body} {n : Nat} (he : e.Ready lookup) (hp : e.pool.Closed)
    (hi : ∀ i ∈ b.insns, e.pool.Inside i.constantIndex)
    (h : (expandBody catalog lookup b).run e = (.ok (n, b'), e')) :
    ∃ xs, b.insns = Splice.before xs ∧ b' = { b with insns := Splice.after xs } ∧
      Machine.Replaces lookup e'.pool xs (planned catalog lookup e.pool b.insns) ∧
      (∀ text, String.join ((Segment.ofText catalog text).map Segment.text) = text ∧
        ∀ s ∈ Segment.ofText catalog text, s.Stands catalog) ∧
      ∀ {α ω : Type} (M : Machine α ω) (s : Machine.State α ω) (ss : List (Machine.State α ω)),
        (s :: ss).IsChain (M.Step lookup e.pool b (planned catalog lookup e.pool b.insns)) →
        ∃ ts, (Machine.moved xs ∅ s :: ts).IsChain
            (Relation.TransGen (M.Step lookup e'.pool b' fun _ => none)) ∧
          List.Forall₂ (Machine.Matches xs) ss ts := by
  obtain ⟨xs, hb, hx, hb', -⟩ := expandBody_eq_ok h
  have hrep : Machine.Replaces lookup e'.pool xs (planned catalog lookup e.pool b.insns) := by
    rw [← hb] at hi ⊢
    exact hx.replaces he hp hi
  refine ⟨xs, hb.symm, hb', hrep,
    fun text => ⟨Segment.join_ofText text, fun s => Segment.stands_of_mem⟩, ?_⟩
  intro α ω M s ss hrun
  have hout (k : Nat) (hk : xs.length ≤ k) : planned catalog lookup e.pool b.insns k = none := by
    have hnone : b.insns[k]? = none := by
      rw [← hb, List.getElem?_eq_none_iff, Splice.length_before]
      exact hk
    simp [planned, hnone]
  obtain ⟨A, hA⟩ := Machine.exists_builders (s :: ss)
  exact Machine.exists_run (hx.grown he).1.le hp hi hx.ofLoads hb.symm hb' hrep hout hA
    (fun _ _ => Finmap.notMem_empty) hrun

/-! ### A body that leaves with its token -/

/-- A binding for the one token of the body. -/
def tokenCatalog : Catalog := ⟨#[⟨"app", "key", "\x60BuildConfig#m#v\x60"⟩]⟩

/-- A lookup method that the body does not call. -/
def tokenLookup : LookupMethod := ⟨"Config", "get"⟩

/-- A pool with the token as a string. -/
def tokenPool : Pool := ⟨#[.utf8 "\x60BuildConfig#m#v\x60", .string 1]⟩

/-- A body that loads the token and leaves the method with it. -/
def tokenBody : Body := .ofInsns 0 [.label ⟨0⟩, .ldc 2, .op Opcode.areturn]

/-- A machine that does nothing by itself but leave a method. -/
def leavingMachine : Machine Empty Unit where
  lookup moduleId key _ := moduleId ++ "." ++ key
  act i m o m' := i = .op Opcode.areturn ∧ o = .leave ∧ m' = m
  catches _ _ := false
  act_beside := by
    rintro i m o m' g ⟨rfl, rfl, rfl⟩ - -
    exact ⟨rfl, rfl, rfl⟩

/-- The run of the body, in which the load pushes what is looked up. -/
theorem isChain_tokenBody {m m' : Machine.Memory Empty Unit} (hm : m = ⟨[], ∅, [], ()⟩)
    (hm' : m' = ⟨[.text "app.key"], ∅, [⟨"app", "key", "\x60BuildConfig#m#v\x60"⟩], ()⟩) :
    [(some 0, m), (some 1, m), (some 2, m'), (none, m')].IsChain
      (leavingMachine.Step tokenLookup tokenPool tokenBody
        (planned tokenCatalog tokenLookup tokenPool tokenBody.insns)) := by
  let segments : List Segment := [.bound ⟨"app", "key", "\x60BuildConfig#m#v\x60"⟩]
  have hload : planned tokenCatalog tokenLookup tokenPool tokenBody.insns 1 = some segments := by
    decide +kernel
  have hleave : planned tokenCatalog tokenLookup tokenPool tokenBody.insns 2 = none := by
    decide +kernel
  have hvalue : leavingMachine.valueOf segments = "app.key" := by
    decide +kernel
  have hpushed : leavingMachine.pushValue segments m = m' := by
    rw [hm, hm', ← hvalue]
    rfl
  have hleaves : Machine.Executes leavingMachine tokenLookup tokenPool (.op Opcode.areturn) m'
      .leave m' :=
    .other (fun a ha => nomatch ha) ⟨rfl, rfl, rfl⟩
  refine .cons_cons (.label rfl) (.cons_cons ?_ (.cons_cons ?_ (.singleton _)))
  · exact hpushed ▸ .planned hload
  · exact .insn rfl rfl hleave hleaves .leave

/-- The expanded body leaves the method with what it has looked up. -/
theorem expandBody_refines_token :
    ∃ (xs : List Splice) (b' : Body) (e' : Expander) (builders : Finmap fun _ : Nat => String),
      tokenBody.insns = Splice.before xs ∧ b' = { tokenBody with insns := Splice.after xs } ∧
      Machine.Replaces tokenLookup e'.pool xs
        (planned tokenCatalog tokenLookup tokenPool tokenBody.insns) ∧
      Relation.TransGen (leavingMachine.Step tokenLookup e'.pool b' fun _ => none)
        (some 0, ⟨[], ∅, [], ()⟩)
        (none, ⟨[.text "app.key"], builders,
          [⟨"app", "key", "\x60BuildConfig#m#v\x60"⟩], ()⟩) := by
  have hok : ((expandBody tokenCatalog tokenLookup tokenBody).run (ofPool tokenPool)).1.map (·.1) =
      .ok 1 := by
    decide +kernel
  obtain ⟨⟨n, b'⟩, e', h, -⟩ := exists_of_map_eq_ok hok
  obtain ⟨xs, hb, hb', hrep, -, hrefines⟩ := expandBody_refines
    (ready_ofPool (by simp [tokenPool, Pool.Bounded, Pool.maxSlots]))
    (by simp [tokenPool, Pool.Closed, ofPool, Constant.references, Pool.Inside])
    (by simp [tokenBody, tokenPool, Body.ofInsns, ofPool, Insn.constantIndex, Pool.Inside]) h
  obtain ⟨ts, hchain, hmatches⟩ := hrefines leavingMachine _ _ (isChain_tokenBody rfl rfl)
  cases hmatches with | cons hfirst hrest =>
  cases hrest with | cons hsecond hrest =>
  cases hrest with | cons hthird hrest =>
  cases hrest
  obtain ⟨builders, -, rfl⟩ := hthird
  simp only [List.isChain_cons_cons] at hchain
  obtain ⟨hlabel, hload, hleave, -⟩ := hchain
  have hrun := (hlabel.trans hload).trans hleave
  refine ⟨xs, b', e', builders, hb, hb', hrep, ?_⟩
  simpa [Machine.moved, Machine.Memory.beside, Splice.place_zero] using hrun

end Expander

end ClassTemplates
