import ClassTemplates.Proofs.Class.Unchanged

/-!
# The loads that an expansion replaces

Every method of an expanded class is as it was, or has the code of the method with some of its loads
replaced. Which loads these are, and how many, can be read off the class, however the pool has grown
before the method was visited. Their numbers add up to the one that the summary tells of.

## Main definitions

- `Expander.eligibleCount`, `Expansion.loadCount` — how many loads have to be replaced
- `Member.Spliced` — a method with some of its loads replaced
- `Expansion.ReplacedLoad` — what a load that is replaced held, and what stands in its place

## Main results

- `Expander.Expands.length_replaced` — how many loads a run over instructions replaces
- `Expansion.Run.loads_eq` — the number that the summary tells of
- `Expansion.Run.exists_splices` — what became of each method
- `Expansion.work_pos` — a class is expanded only if there is something to do
-/

namespace ClassTemplates

/-! ### Instructions -/

namespace Expander

variable {catalog : Catalog} {lookup : LookupMethod} {p : Pool} {e e' : Expander}
  {xs : List Splice} {x : Splice} {code : List Insn}

/-- The number of loads among instructions that are eligible. -/
def eligibleCount (catalog : Catalog) (lookup : LookupMethod) (p : Pool) : List Insn → Nat
  | [] => 0
  | insn :: rest =>
    (if (eligible? catalog lookup p insn rest).isSome then 1 else 0) +
      eligibleCount catalog lookup p rest

/-- Of instructions that stay inside a closed pool, as many are replaced as are eligible in it. -/
theorem Expands.length_replaced (h : Expands catalog lookup e xs e') (he : e.Ready lookup)
    (hp : p.Closed) (hle : p ≤ e.pool) (hi : ∀ x ∈ Splice.before xs, p.Inside x.constantIndex) :
    (Splice.replaced xs).length = eligibleCount catalog lookup p (Splice.before xs) := by
  induction h with
  | nil => rfl
  | @cons e e₁ e₂ x xs hx hxs ih =>
    have hstep : e.pool.GrownTo e₁.pool ∧ e₁.Ready lookup := expandInsn_grown he hx
    have hrest := ih hstep.2 (Pool.le_trans hle hstep.1.le)
      fun y hy => hi y (List.mem_cons_of_mem _ hy)
    have hfirst := (Expands.cons hx hxs).splice_of_closed he hp hle hi (k := 0) rfl
    simp only [Splice.before_cons, Nat.zero_add, List.drop_one, List.tail_cons] at hfirst
    rw [Splice.before_cons, eligibleCount, ← hrest, Splice.replaced_cons]
    cases htext : eligible? catalog lookup p x.insn (Splice.before xs) with
    | none =>
      have hnone : x.code = none := by rwa [htext] at hfirst
      simp [hnone]
    | some text =>
      rw [htext] at hfirst
      obtain ⟨code, hcode, -⟩ := hfirst
      simp [hcode, Nat.add_comm]

/-- What is replaced is a load of a text with a bound token, and its code builds the value of the
text. -/
theorem Expands.exists_text (h : Expands catalog lookup e xs e') (he : e.Ready lookup)
    (hp : p.Closed) (hle : p ≤ e.pool) (hi : ∀ x ∈ Splice.before xs, p.Inside x.constantIndex)
    (hx : x ∈ xs) (hc : x.code = some code) :
    ∃ i text, x.insn = .ldc i ∧ p.stringValue? i = some text ∧ catalog.bindsAny text = true ∧
      Builds lookup e'.pool (Segment.ofText catalog text) code := by
  obtain ⟨k, hk⟩ := List.mem_iff_getElem?.1 hx
  have hspec := h.splice_of_closed he hp hle hi hk
  split at hspec
  · rw [hc] at hspec
    cases hspec
  · rename_i text htext
    obtain ⟨code', hcode, hbuilds⟩ := hspec
    cases hc.symm.trans hcode
    obtain ⟨i, hi, -, hvalue, hbound⟩ := eligible?_eq_some.1 htext
    exact ⟨i, text, hi, hvalue, hbound, hbuilds⟩

end Expander

theorem Splice.exists_of_replaced_pos {zs : List (Nat × Splice)}
    (h : 0 < (Splice.replaced (zs.map (·.2))).length) : ∃ z ∈ zs, z.2.code ≠ none := by
  obtain ⟨x, hx⟩ := List.exists_mem_of_length_pos h
  obtain ⟨hmem, hcode⟩ := Splice.mem_replaced.1 hx
  obtain ⟨z, hz, rfl⟩ := List.mem_map.1 hmem
  exact ⟨z, hz, Option.isSome_iff_ne_none.1 hcode⟩

/-- A method is another one with some of its loads replaced. It is the same method, or its first
code has been laid out with code in the place of the loads, which the splices tell along with the
offsets at which they were. -/
inductive Member.Spliced (m m' : Member) : List (Nat × Splice) → Prop
  | kept : m' = m → m.Spliced m' []
  | laid {c c' : Code} {decoded : List (Nat × Insn)} {pre : List Insn} {zs : List (Nat × Splice)} :
      m.code? = some c → m' = m.withCode c' →
      Splice.Relocates c.withoutCarried c' decoded pre zs → m.Spliced m' zs

/-- What the splices replace are instructions of the code, at their offsets. -/
theorem Member.Spliced.mem_decoded {m m' : Member} {zs : List (Nat × Splice)} {z : Nat × Splice}
    (h : m.Spliced m' zs) (hz : z ∈ zs) : ∃ c decoded, m.code? = some c ∧
      Insn.decode c.bytes = .ok decoded ∧ (z.1, z.2.insn) ∈ decoded := by
  cases h with
  | kept _ => cases hz
  | @laid c c' decoded pre zs hc _ hrel =>
    refine ⟨c, decoded, hc, Insn.decode_eq_ok.2 hrel.reads, ?_⟩
    rw [← hrel.spliced]
    exact List.mem_map_of_mem hz

namespace Expansion

/-- The splice is a load of a text with a bound token by a pool `p`, with code in its place that
builds the value of the text by a pool `q`. -/
structure ReplacedLoad (catalog : Catalog) (lookup : LookupMethod) (p q : Pool) (x : Splice)
    (text : String) : Prop where
  load : ∃ i, x.insn = .ldc i ∧ p.stringValue? i = some text
  bound : catalog.bindsAny text = true
  code : ∃ code, x.code = some code ∧ Builds lookup q (Segment.ofText catalog text) code

variable {catalog : Catalog} {lookup : LookupMethod} {className : String} {p q r : Pool}
  {m m' : Member} {c : Code} {b : Body} {decoded : List (Nat × Insn)} {pre : List Insn}
  {xs : List Splice} {e e' : Expander} {n : Nat} {body : Option Body} {ms : List Member}
  {progress progress' : Progress} {cls cls' : ClassFile} {summary : ExpansionSummary} {k : Nat}

/-! ### Methods -/

/-- The number of loads of a method that have to be replaced. -/
def loadCount (catalog : Catalog) (lookup : LookupMethod) (p : Pool) (m : Member) : Nat :=
  match m.code? with
  | none => 0
  | some c =>
    match Body.ofCode c with
    | .error _ => 0
    | .ok b => Expander.eligibleCount catalog lookup p b.insns

/-- In an edit of the code of a method, as many loads are replaced as have to be. -/
theorem length_replaced_eq (hm : Kept p m) (hc : m.code? = some c)
    (hedit : b.EditOf c decoded pre xs) (hx : Expander.Expands catalog lookup e xs e')
    (he : e.Ready lookup) (hp : p.Closed) (hle : p ≤ e.pool) :
    (Splice.replaced xs).length = loadCount catalog lookup p m := by
  have hinside := inside_before hedit (hm.insns c hc decoded (Insn.decode_eq_ok.2 hedit.reads))
  have hbody := Body.ofCode_eq_ok.2 ⟨decoded, hedit.reads, hedit.places, rfl⟩
  rw [hx.length_replaced he hp hle hinside, hedit.before]
  simp only [loadCount, hc, hbody]

/-- The visit of a method replaces as many loads as have to be. -/
theorem eq_loadCount (hm : Kept p m) (he : e.Ready lookup) (hp : p.Closed) (hle : p ≤ e.pool)
    (h : expandMethod catalog lookup m e = .ok ((n, body), e')) :
    n = loadCount catalog lookup p m := by
  rcases expandMethod_eq_ok h with ⟨hc, rfl, -, -⟩ | ⟨b₁, ⟨c, b, hc, hb, hrun⟩, -⟩
  · simp only [loadCount, hc]
  · obtain ⟨decoded, xs, hedit, hx, rfl⟩ := Body.editOf_expandBody hb hrun []
    rw [← length_replaced_eq hm hc hedit hx he hp hle, List.countP_eq_length_filter]
    rfl

/-- The number of loads that were replaced in a method with its new body, if it got one. -/
def replacedIn (catalog : Catalog) (lookup : LookupMethod) (p : Pool) : Member × Option Body → Nat
  | (_, none) => 0
  | (m, some _) => loadCount catalog lookup p m

/-- A method keeps its body exactly if none of its loads is replaced. -/
theorem body_eq_none_iff (h : expandMethod catalog lookup m e = .ok ((n, body), e')) :
    body = none ↔ n = 0 := by
  rcases expandMethod_eq_ok h with ⟨-, hn, hbody, -⟩ | ⟨b₁, -, hbody⟩
  · exact iff_of_true hbody hn
  · rw [hbody]
    by_cases hn : n = 0 <;> simp [hn]

theorem replacedIn_of_expandMethod (hm : Kept p m) (he : e.Ready lookup) (hp : p.Closed)
    (hle : p ≤ e.pool) (h : expandMethod catalog lookup m e = .ok ((n, body), e')) :
    replacedIn catalog lookup p (m, body) = n := by
  cases body with
  | none => exact ((body_eq_none_iff h).1 rfl).symm
  | some b => exact (eq_loadCount hm he hp hle h).symm

/-- A method that was visited has had as many loads replaced as it has to replace. -/
theorem Visited.replacedIn_eq (h : Visited catalog lookup p q m body) (hm : Kept p m)
    (hp : p.Closed) : replacedIn catalog lookup p (m, body) = loadCount catalog lookup p m := by
  obtain ⟨e₁, e₂, n, he, hle, -, hx⟩ := h
  rw [replacedIn_of_expandMethod hm he hp hle hx, eq_loadCount hm he hp hle hx]

/-- A method with a new body had loads to replace. -/
theorem Visited.loadCount_ne_zero (h : Visited catalog lookup p q m (some b)) (hm : Kept p m)
    (hp : p.Closed) : loadCount catalog lookup p m ≠ 0 := by
  obtain ⟨e₁, e₂, n, he, hle, -, hx⟩ := h
  rw [← eq_loadCount hm he hp hle hx]
  exact fun hn => Option.some_ne_none b ((body_eq_none_iff hx).2 hn)

/-- The loads that visits count are those that were replaced in the methods. -/
theorem loads_of_visitMethods (hms : ∀ m ∈ ms, Kept p m) (he : e.Ready lookup) (hp : p.Closed)
    (hle : p ≤ e.pool)
    (h : visitMethods catalog lookup progress e ms = .ok (progress', e')) :
    ∃ edits, progress'.edits.toList = progress.edits.toList ++ edits ∧
      progress'.loads = progress.loads + (edits.map (replacedIn catalog lookup p)).sum := by
  induction ms generalizing progress e with
  | nil =>
    cases h
    exact ⟨[], by simp, rfl⟩
  | cons m ms ih =>
    rw [visitMethods] at h
    split at h
    · cases h
    · rename_i progress₁ e₁ hvisit
      rw [List.forall_mem_cons] at hms
      obtain ⟨n, body, hedits, hloads, -, -, hcases⟩ := visitMethod_eq_ok hvisit
      -- a method that is passed over counts nothing and keeps its body
      have hstep : (e.pool ≤ e₁.pool ∧ e₁.Ready lookup) ∧
          replacedIn catalog lookup p (m, body) = n := by
        rcases hcases with ⟨-, -, rfl, rfl, rfl⟩ | ⟨-, hx⟩
        · exact ⟨⟨Pool.le_refl _, he⟩, rfl⟩
        · obtain ⟨hg, hr⟩ := expandMethod_grown he hx
          exact ⟨⟨hg.le, hr⟩, replacedIn_of_expandMethod hms.1 he hp hle hx⟩
      obtain ⟨edits, hlist, hsum⟩ := ih hms.2 hstep.1.2 (Pool.le_trans hle hstep.1.1) h
      refine ⟨(m, body) :: edits, by simp [hlist, hedits], ?_⟩
      rw [hsum, hloads, List.map_cons, List.sum_cons, hstep.2, Nat.add_assoc]

/-- A method with its new body laid out has its loads replaced. -/
theorem Edited.exists_spliced (h : Edited catalog lookup p q m pre b)
    (hlaid : Laid className q r m b m') (hm : Kept p m) (hp : p.Closed) (hr : q ≤ r) :
    ∃ zs, m.Spliced m' zs ∧
      (Splice.replaced (zs.map (·.2))).length = loadCount catalog lookup p m ∧
      ∀ z ∈ zs, z.2.code ≠ none → ∃ text, ReplacedLoad catalog lookup p r z.2 text := by
  obtain @⟨c, decoded, xs, e₁, e₂, hc, hedit, he, hle, hq, hx⟩ := h
  obtain ⟨c', zs, hm', hreplaced, hrel⟩ := hlaid.relocates hc hedit
  have hinside := inside_before hedit (hm.insns c hc decoded (Insn.decode_eq_ok.2 hedit.reads))
  refine ⟨zs, .laid hc hm' hrel, ?_, fun z hz hcode => ?_⟩
  · rw [hreplaced, length_replaced_eq hm hc hedit hx he hp hle]
  · obtain ⟨code, hcode⟩ := Option.ne_none_iff_exists'.1 hcode
    have hmem : z.2 ∈ Splice.replaced xs := by
      rw [← hreplaced]
      exact Splice.mem_replaced.2 ⟨List.mem_map_of_mem hz, by simp [hcode]⟩
    obtain ⟨i, text, hinsn, hvalue, hbound, hbuilds⟩ :=
      hx.exists_text he hp hle hinside (Splice.mem_replaced.1 hmem).1 hcode
    exact ⟨text, ⟨i, hinsn, hvalue⟩, hbound, code, hcode, hbuilds.mono (Pool.le_trans hq hr)⟩

/-! ### Classes -/

theorem Surveyed.mem_methods (h : Surveyed catalog lookup cls progress e)
    (hx : (m, body) ∈ progress.edits.toList) : m ∈ cls.methods := by
  rw [← h.methods]
  exact List.mem_map_of_mem hx

/-- The loads that the summary tells of are those that the visits replaced. -/
theorem Run.loads_eq (s : Run catalog lookup cls className cls' summary)
    (he : (Expander.ofPool cls.pool).Ready lookup) (hcls : cls.Closed) :
    summary.loads = (s.progress.edits.toList.map (replacedIn catalog lookup cls.pool)).sum := by
  obtain ⟨edits, hlist, hsum⟩ := loads_of_visitMethods (fun m hm => kept_of_closed hcls hm) he
    hcls.pool (Pool.le_refl _) s.visits
  have hloads : summary.loads = s.progress.loads := congrArg ExpansionSummary.loads s.summary_eq
  rw [hloads, hsum, hlist, Nat.zero_add]
  rfl

/-- Every method of the class is still there, with as many loads replaced as were counted for it. -/
theorem Run.exists_spliced (s : Run catalog lookup cls className cls' summary)
    (he : (Expander.ofPool cls.pool).Ready lookup) (hcls : cls.Closed)
    (hk : s.progress.edits.toList[k]? = some (m, body)) :
    ∃ m' zs, cls'.methods[k]? = some m' ∧ m.Spliced m' zs ∧
      (Splice.replaced (zs.map (·.2))).length = replacedIn catalog lookup cls.pool (m, body) ∧
      ∀ z ∈ zs, z.2.code ≠ none →
        ∃ text, ReplacedLoad catalog lookup cls.pool cls'.pool z.2 text := by
  have hkept := kept_of_closed hcls ((s.surveyed he).mem_methods (List.mem_of_getElem? hk))
  obtain ⟨hg, hfinishes⟩ := s.finished he
  obtain ⟨body', hbody', hnone, hedited⟩ := s.exists_edit_visited he hk
  obtain ⟨m', hget, ⟨hbody, hm', -⟩ | ⟨-, b, hb, hlaid⟩⟩ := hfinishes.getElem? hbody'
  · refine ⟨m', [], hget, .kept hm', ?_, fun z hz => (List.not_mem_nil hz).elim⟩
    rw [hnone hbody]
    rfl
  · obtain ⟨hvisited, pre, hpre, -⟩ := hedited b hb
    obtain ⟨zs, hspliced, hlength, hloads⟩ := hpre.exists_spliced hlaid hkept hcls.pool hg.le
    exact ⟨m', zs, hget, hspliced, hlength.trans (hvisited.replacedIn_eq hkept hcls.pool).symm,
      hloads⟩

/-- The splices of all methods, which are as many as the summary tells of. -/
theorem Run.exists_splices (s : Run catalog lookup cls className cls' summary)
    (he : (Expander.ofPool cls.pool).Ready lookup) (hcls : cls.Closed) :
    ∃ zss : Nat → List (Nat × Splice),
      summary.loads = ((List.range cls.methods.length).map fun k =>
        (Splice.replaced ((zss k).map (·.2))).length).sum ∧
      ∀ (k : Nat) (m : Member), cls.methods[k]? = some m → ∃ m', cls'.methods[k]? = some m' ∧
        m.Spliced m' (zss k) ∧ ∀ z ∈ zss k, z.2.code ≠ none →
          ∃ text, ReplacedLoad catalog lookup cls.pool cls'.pool z.2 text := by
  have hsurveyed := s.surveyed he
  have heach (k : Nat) : ∃ zs : List (Nat × Splice), ∀ m body,
      s.progress.edits.toList[k]? = some (m, body) → ∃ m', cls'.methods[k]? = some m' ∧
        m.Spliced m' zs ∧
        (Splice.replaced (zs.map (·.2))).length = replacedIn catalog lookup cls.pool (m, body) ∧
        ∀ z ∈ zs, z.2.code ≠ none →
          ∃ text, ReplacedLoad catalog lookup cls.pool cls'.pool z.2 text := by
    cases hk : s.progress.edits.toList[k]? with
    | none => exact ⟨[], fun m body h => by cases h⟩
    | some x =>
      obtain ⟨m, body⟩ := x
      obtain ⟨m', zs, hspliced⟩ := s.exists_spliced he hcls hk
      refine ⟨zs, ?_⟩
      rintro m body ⟨⟩
      exact ⟨m', hspliced⟩
  choose zss hzss using heach
  refine ⟨zss, ?_, fun k m hk => ?_⟩
  · rw [s.loads_eq he hcls, ← hsurveyed.methods, List.length_map]
    congr 1
    refine List.ext_getElem (by simp) fun k hk _ => ?_
    rw [List.length_map] at hk
    obtain ⟨m', -, -, hlength, -⟩ := hzss k _ _ (List.getElem?_eq_getElem hk)
    simp [hlength]
  · obtain ⟨body, hbody⟩ := hsurveyed.exists_edit hk
    obtain ⟨m', hget, hspliced, -, hloads⟩ := hzss k m body hbody
    exact ⟨m', hget, hspliced, hloads⟩

/-- A class is expanded only if a load is replaced or a constant is deferred. -/
theorem work_pos (he : (Expander.ofPool cls.pool).Ready lookup) (hcls : cls.Closed)
    (h : ofNamed catalog lookup cls className = .ok (.expanded cls' summary)) :
    0 < summary.loads + summary.deferred := by
  obtain ⟨s⟩ := nonempty_run h
  have hdeferred : summary.deferred = s.cs.length :=
    congrArg ExpansionSummary.deferred s.summary_eq
  by_contra hzero
  have hcs : s.cs = [] := List.length_eq_zero_iff.1 (by omega)
  have hloads := s.loads_eq he hcls
  rw [show summary.loads = 0 by omega, eq_comm, List.sum_eq_zero_iff_forall_eq_nat] at hloads
  -- the visits gave no method a new body, so there was nothing to do
  have hnone : ∀ x ∈ s.progress.edits.toList, x.2 = none := by
    rintro ⟨m, _ | b⟩ hx
    · rfl
    · have hsurveyed := s.surveyed he
      have hvisited := hsurveyed.visits.visited_of_mem he hx
      exact absurd (hloads _ (List.mem_map_of_mem hx))
        (hvisited.loadCount_ne_zero (kept_of_closed hcls (hsurveyed.mem_methods hx)) hcls.pool)
  have hfields : ∀ f ∈ cls.fields, templateOf? catalog cls.pool f = none := by
    have hdefers := (deferFields_spec s.defers).2
    rw [hcs] at hdefers
    simpa using List.filter_eq_nil_iff.1 (List.forall₂_nil_right_iff.1 hdefers)
  obtain ⟨hstill, -⟩ := still_of_visitMethods s.visits hnone .start
  have hopen : (s.cs.foldl Initializer.defer .new).isOpen = true := by
    rw [hcs]
    rfl
  rw [hopen] at hstill
  rw [ofNamed_of_still hfields hstill] at h
  cases h

end Expansion

end ClassTemplates
