import ClassTemplates.Proofs.Class.Finishing

/-!
# The steps of an expansion

A class is expanded in steps, each of which has what the ones before it made: fields are deferred,
methods are visited, assignments are put in, and new bodies are laid out.

## Main definitions

- `Expansion.Surveyed` — what is known once the methods have been visited
- `Expansion.Prepared` — what is known once the assignments have been put in
- `Expansion.Run` — the steps of an expansion that changed a class

## Main results

- `Expansion.surveyed_of_visitMethods`, `Surveyed.prepared` — the steps lead there
- `Expansion.nonempty_run`, `ofNamed_eq_ok` — a class that was expanded
-/

namespace ClassTemplates

namespace Expansion

/-- The methods of a class have been visited. -/
structure Surveyed (catalog : Catalog) (lookup : LookupMethod) (cls : ClassFile) (done : Progress)
    (e : Expander) : Prop where
  methods : done.edits.toList.map (·.1) = cls.methods
  visits : Visits catalog lookup true (.ofPool cls.pool) done.edits.toList
    done.initializer.isOpen e
  grown : cls.pool.GrownTo e.pool
  ready : e.Ready lookup
  waiting : done.initializer.Waiting
  found : ∀ k, done.initializer.state = .found k →
    FoundAt catalog lookup cls.pool e.pool done.edits.toList k

/-- The methods of a class with their new bodies, of which some are assignments. -/
structure Prepared (catalog : Catalog) (lookup : LookupMethod) (cls : ClassFile)
    (className : String) (isOpen : Bool) (edits edits' : List (Member × Option Body))
    (e e' : Expander) : Prop where
  methods : edits.map (·.1) = cls.methods
  visits : Visits catalog lookup true (.ofPool cls.pool) edits isOpen e
  le : e.pool ≤ e'.pool
  grown : cls.pool.GrownTo e'.pool
  ready : e'.Ready lookup
  injected : Injected catalog lookup className cls.pool e'.pool isOpen edits edits'

variable {catalog : Catalog} {lookup : LookupMethod} {className : String} {cls cls' : ClassFile}
  {e e' : Expander} {cs : List DeferredConstant} {progress : Progress}
  {summary : ExpansionSummary}

theorem state_foldl_defer {i : Initializer} :
    (cs.foldl Initializer.defer i).state = i.state := by
  induction cs generalizing i with
  | nil => rfl
  | cons c cs ih => exact ih

theorem surveyed_of_visitMethods (he : (Expander.ofPool cls.pool).Ready lookup)
    (h : visitMethods catalog lookup ⟨#[], 0, cs.foldl Initializer.defer .new⟩
      (.ofPool cls.pool) cls.methods = .ok (progress, e)) :
    Surveyed catalog lookup cls progress e := by
  obtain ⟨hg, hr, edits, hmethods, hedits, hvisits, hfinds⟩ := visitMethods_eq_ok he h
  obtain rfl : progress.edits.toList = edits := by simpa using hedits
  have hstart : (cs.foldl Initializer.defer .new).state = .notStarted := state_foldl_defer
  have hopen : (cs.foldl Initializer.defer .new).isOpen = true := by
    rw [Initializer.isOpen, hstart]
    rfl
  rw [hopen] at hvisits
  refine ⟨hmethods, hvisits, hg, hr, hfinds.waiting (.inl hstart), fun k hk => ?_⟩
  rcases hfinds.found k hk with hk | ⟨j, rfl, hj⟩
  · rw [hstart] at hk
    cases hk
  · rwa [Array.size_empty, Nat.zero_add]

/-- What the steps of an expansion lead to before the new bodies are laid out. -/
theorem Surveyed.prepared {i : Initializer} {injection : Option Injection}
    {change : Option InitializerChange} {newEdits : Edits} {e₁ : Expander}
    (h : Surveyed catalog lookup cls progress e) (he : (Expander.ofPool cls.pool).Ready lookup)
    (hfinal : progress.initializer.finalize catalog lookup className e = (.ok injection, i, e₁))
    (hinject : applyInjection className progress.edits e₁ injection =
      .ok ((newEdits, change), e')) :
    Prepared catalog lookup cls className progress.initializer.isOpen progress.edits.toList
      newEdits.toList e e' := by
  obtain ⟨hg, hr, hinjected⟩ := applyInjection_eq_ok h.ready h.grown.le h.waiting
    (fun m b hmem => h.visits.visited_of_mem he hmem) h.found hfinal hinject
  exact ⟨h.methods, h.visits, hg.le, h.grown.trans hg, hr, hinjected⟩

/-- The steps of an expansion. -/
theorem ofNamed_eq : ofNamed catalog lookup cls className =
    deferFields catalog cls.pool className cls.fields >>= fun deferred =>
    visitMethods catalog lookup ⟨#[], 0, deferred.2.foldl Initializer.defer .new⟩
      (.ofPool cls.pool) cls.methods >>= fun visited =>
    let final := visited.1.initializer.finalize catalog lookup className visited.2
    lift (final.1, final.2.2) >>= fun injection =>
    applyInjection className visited.1.edits injection.2 injection.1 >>= fun injected =>
    finish { cls with fields := deferred.1 } ⟨className, visited.1.loads, deferred.2.length, [],
      injected.1.2, injected.2.stats⟩ injected.1.1 injected.2 :=
  rfl

/-- A class with its new bodies laid out has been found to be well formed. -/
theorem finish_eq_ok {edits : Edits} {summary' : ExpansionSummary}
    (h : finish cls summary edits e = .ok (.expanded cls' summary')) :
    ∃ done e', finishMethods summary.className ⟨#[], #[]⟩ e edits.toList = .ok (done, e') ∧
      cls' = { cls with pool := e'.pool, methods := done.methods.toList } ∧
      cls'.verifyMethods (done.changed.toList.map (·.1)) = .ok () ∧
      summary' =
        { summary with methods := done.changed.toList.map (·.2), stats := e'.stats } := by
  unfold finish at h
  split at h
  · obtain ⟨⟨done, e'⟩, hdone, h⟩ := bind_eq_ok.1 h
    obtain ⟨u, hverify, h⟩ := bind_eq_ok.1 h
    cases h
    exact ⟨done, e', hdone, rfl, mapError_eq_ok.1 hverify, rfl⟩
  · cases h

/-- The steps of an expansion that changed a class, with what each of them made. -/
structure Run (catalog : Catalog) (lookup : LookupMethod) (cls : ClassFile) (className : String)
    (cls' : ClassFile) (summary : ExpansionSummary) where
  fields : List Member
  cs : List DeferredConstant
  progress : Progress
  injection : Option Injection
  edits : Edits
  change : Option InitializerChange
  done : Finished
  /-- The expander once the methods have been visited. -/
  visited : Expander
  /-- The expander once the assignments have been made. -/
  assigned : Expander
  /-- The expander once they have been put in. -/
  injected : Expander
  /-- The expander once the new bodies have been laid out. -/
  final : Expander
  initializer : Initializer
  defers : deferFields catalog cls.pool className cls.fields = .ok (fields, cs)
  visits : visitMethods catalog lookup ⟨#[], 0, cs.foldl Initializer.defer .new⟩
    (.ofPool cls.pool) cls.methods = .ok (progress, visited)
  finalizes : progress.initializer.finalize catalog lookup className visited =
    (.ok injection, initializer, assigned)
  injects : applyInjection className progress.edits assigned injection =
    .ok ((edits, change), injected)
  finishes : finishMethods className ⟨#[], #[]⟩ injected edits.toList = .ok (done, final)
  result : cls' = { cls with pool := final.pool, fields := fields, methods := done.methods.toList }
  verifies : cls'.verifyMethods (done.changed.toList.map (·.1)) = .ok ()
  summary_eq : summary = ⟨className, progress.loads, cs.length, done.changed.toList.map (·.2),
    change, final.stats⟩

/-- An expansion that changed a class took these steps. -/
theorem nonempty_run (h : ofNamed catalog lookup cls className = .ok (.expanded cls' summary)) :
    Nonempty (Run catalog lookup cls className cls' summary) := by
  rw [ofNamed_eq] at h
  obtain ⟨⟨fields, cs⟩, hfields, h⟩ := bind_eq_ok.1 h
  obtain ⟨⟨progress, e⟩, hvisit, h⟩ := bind_eq_ok.1 h
  obtain ⟨⟨injection, e₁⟩, hlift, h⟩ := bind_eq_ok.1 h
  obtain ⟨⟨⟨edits, change⟩, e₂⟩, hinject, h⟩ := bind_eq_ok.1 h
  obtain ⟨hresult, hrest⟩ := Prod.mk.inj (lift_eq_ok.1 hlift)
  obtain ⟨done, e₃, hdone, hcls, hverify, hsummary⟩ := finish_eq_ok h
  exact ⟨⟨fields, cs, progress, injection, edits, change, done, e, e₁, e₂, e₃, _, hfields, hvisit,
    Prod.ext hresult (Prod.ext rfl hrest), hinject, hdone, hcls, hverify, hsummary⟩⟩

namespace Run

variable (r : Run catalog lookup cls className cls' summary)
include r

/-- The methods of the class have been visited. -/
theorem surveyed (he : (Expander.ofPool cls.pool).Ready lookup) :
    Surveyed catalog lookup cls r.progress r.visited :=
  surveyed_of_visitMethods he r.visits

/-- The assignments have been put in. -/
theorem prepared (he : (Expander.ofPool cls.pool).Ready lookup) :
    Prepared catalog lookup cls className r.progress.initializer.isOpen r.progress.edits.toList
      r.edits.toList r.visited r.injected :=
  (r.surveyed he).prepared he r.finalizes r.injects

theorem pool_eq : cls'.pool = r.final.pool :=
  congrArg ClassFile.pool r.result

/-- The methods of the expanded class, with the positions and the names of those with new code. -/
theorem finished (he : (Expander.ofPool cls.pool).Ready lookup) :
    r.injected.pool.GrownTo cls'.pool ∧ Finishes className r.injected.pool cls'.pool 0
      r.edits.toList cls'.methods r.done.changed.toList := by
  obtain ⟨hg, -, ms, changed, hms, hchanged, hfinishes⟩ :=
    finishMethods_finishes (r.prepared he).ready r.finishes
  have hmethods : cls'.methods = r.done.methods.toList := congrArg ClassFile.methods r.result
  obtain rfl : r.done.methods.toList = ms := by simpa using hms
  obtain rfl : r.done.changed.toList = changed := by simpa using hchanged
  rw [r.pool_eq, hmethods]
  exact ⟨hg, hfinishes⟩

/-- The class was checked without its methods. -/
theorem verifyOutline_eq_ok : cls'.verifyOutline = .ok () := by
  obtain ⟨u, houtline, -⟩ := bind_eq_ok.1 r.verifies
  exact houtline

end Run

/-- A class that was expanded has its fields deferred and its new bodies laid out. -/
theorem ofNamed_eq_ok (he : (Expander.ofPool cls.pool).Ready lookup)
    (h : ofNamed catalog lookup cls className = .ok (.expanded cls' summary)) :
    ∃ fields cs isOpen edits edits' e e' done e₂,
      deferFields catalog cls.pool className cls.fields = .ok (fields, cs) ∧
      Prepared catalog lookup cls className isOpen edits edits' e e' ∧
      finishMethods className ⟨#[], #[]⟩ e' edits' = .ok (done, e₂) ∧
      cls' = { cls with pool := e₂.pool, fields := fields, methods := done.methods.toList } := by
  obtain ⟨r⟩ := nonempty_run h
  exact ⟨_, _, _, _, _, _, _, _, _, r.defers, r.prepared he, r.finishes, r.result⟩

end Expansion

end ClassTemplates
