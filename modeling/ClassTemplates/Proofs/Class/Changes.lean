import ClassTemplates.Proofs.Class.Idempotence

/-!
# What an expansion changes

An expansion keeps whatever it has no reason to touch. Fields lose the constants that are deferred,
methods get new code, there may be one more method, and the pool grows. All else of the class, and
of its fields and methods, is what it was.

## Main definitions

- `Member.HoldsTemplate` — a field whose constant has to be deferred
- `Member.Relocated` — a method with new code
- `Expansion.Run.FrontAt` — what is put in front of the body of a method
- `ClassFile.AddedInitializer` — a type initializer that the class did not have

## Main results

- `Expansion.deferFields_spec` — what becomes of the fields, and which constants are deferred
- `Expansion.Edited.relocated` — a method with its new body laid out
- `ClassFile.changes_of_expand` — what an expansion changes
-/

namespace ClassTemplates

/-! ### Fields -/

/-- The field is static and final, a string, and the string that its first constant value names is
`text`, which holds a bound token. -/
structure Member.HoldsTemplate (catalog : Catalog) (p : Pool) (f : Member) (text : String) :
    Prop where
  isStatic : Access.has f.access Access.isStatic = true
  isFinal : Access.has f.access Access.isFinal = true
  descriptor : p.utf8? f.descriptor = some Initializer.stringDescriptor
  value : ∃ i, f.constantIndex? = some i ∧ p.stringValue? i = some text
  bound : catalog.bindsAny text = true

namespace Expansion

variable {catalog : Catalog} {lookup : LookupMethod} {className : String} {p q r : Pool}
  {f m m' : Member} {fields fields' : List Member} {e e' : Expander} {b : Body} {text : String}
  {pre : List Insn}

theorem templateOf?_eq_some :
    templateOf? catalog p f = some text ↔ f.HoldsTemplate catalog p text := by
  constructor
  · intro h
    simp only [templateOf?, Option.bind_eq_bind, Option.bind_eq_some_iff, Option.guard_eq_some',
      Option.pure_def, Bool.and_eq_true, beq_iff_eq] at h
    obtain ⟨-, ⟨hstatic, hfinal⟩, -, hdescriptor, i, hi, t, ht, -, hbound, heq⟩ := h
    cases heq
    exact ⟨hstatic, hfinal, hdescriptor, ⟨i, hi, ht⟩, hbound⟩
  · rintro ⟨hstatic, hfinal, hdescriptor, ⟨i, hi, ht⟩, hbound⟩
    simp [templateOf?, hstatic, hfinal, hdescriptor, hi, ht, hbound, guard]

theorem isSome_templateOf?_iff :
    (templateOf? catalog p f).isSome = true ↔ ∃ text, f.HoldsTemplate catalog p text := by
  simp only [Option.isSome_iff_exists, templateOf?_eq_some]

/-- The constant has the name of a field and the text that is deferred from it. -/
structure Defers (catalog : Catalog) (p : Pool) (f : Member) (c : DeferredConstant) : Prop where
  field : p.utf8? f.name = some c.field
  text : f.HoldsTemplate catalog p c.text

/-- Fields whose constant is deferred lose it, and the constants come in the order of the fields. -/
theorem deferFields_spec {cs : List DeferredConstant}
    (h : deferFields catalog p className fields = .ok (fields', cs)) :
    List.Forall₂ (fun f f' => (∃ text, f.HoldsTemplate catalog p text) ∧ f' = f.withoutConstant ∨
      (¬∃ text, f.HoldsTemplate catalog p text) ∧ f' = f) fields fields' ∧
    List.Forall₂ (Defers catalog p)
      (fields.filter fun f => (templateOf? catalog p f).isSome) cs := by
  unfold deferFields at h
  rw [bind_eq_ok] at h
  obtain ⟨results, hresults, ⟨⟩⟩ := h
  rw [mapM_eq_ok] at hresults
  -- field by field, along with the result of each
  induction hresults with
  | nil => exact ⟨.nil, .nil⟩
  | @cons f x fields results hx _ ih =>
    obtain ⟨hfields, hcs⟩ := ih
    unfold deferField at hx
    split at hx
    · rename_i hnone
      cases hx
      have hno : ¬∃ text, f.HoldsTemplate catalog p text := by
        rw [← isSome_templateOf?_iff, hnone]
        exact Bool.false_ne_true
      refine ⟨.cons (.inr ⟨hno, rfl⟩) hfields, ?_⟩
      rw [List.filter_cons_of_neg (by simp [hnone])]
      exact hcs
    · rename_i text htext
      split at hx
      · cases hx
      · rename_i name hname
        cases hx
        have hholds : f.HoldsTemplate catalog p text := templateOf?_eq_some.1 htext
        refine ⟨.cons (.inl ⟨⟨text, hholds⟩, rfl⟩) hfields, ?_⟩
        rw [List.filter_cons_of_pos (by simp [htext])]
        exact .cons ⟨hname, hholds⟩ hcs

end Expansion

/-! ### Methods -/

/-- The attribute is a table of line numbers, of local variables or their types, or of stack-map
frames. -/
def Attribute.describesCode (a : Attribute) : Bool :=
  match a.content with
  | .lineNumbers _ | .localVariables _ | .localVariableTypes _ | .stackMap _ => true
  | _ => false

theorem Attribute.not_isCarried (a : Attribute) : (!a.isCarried) = a.describesCode := by
  obtain ⟨name, content⟩ := a
  cases content <;> rfl

/-- A method with new code. Only its first code differs, in which the instructions have moved and
the tables that describe the code have moved along, in order. No other attributes of it are left. -/
structure Member.Relocated (m m' : Member) : Prop where
  exists_code : ∃ c c' decoded φ, m.code? = some c ∧ m' = m.withCode c' ∧
    Insn.decode c.bytes = .ok decoded ∧ StrictMonoOn φ {o | c.IsPlace decoded o} ∧
    Code.Moved φ { c with attributes := c.attributes.filter Attribute.describesCode } c'

namespace Expansion

variable {catalog : Catalog} {lookup : LookupMethod} {className : String} {p q r : Pool}
  {m m' : Member} {b : Body} {pre : List Insn} {k n : Nat} {edits : List (Member × Option Body)}
  {ms : List Member} {changed : List (Nat × String)} {c : Code} {decoded : List (Nat × Insn)}
  {xs : List Splice}

theorem withoutCarried_eq {c : Code} :
    c.withoutCarried = { c with attributes := c.attributes.filter Attribute.describesCode } := by
  have hfun : (fun a : Attribute => !a.isCarried) = Attribute.describesCode :=
    funext Attribute.not_isCarried
  rw [Code.withoutCarried, hfun]

/-- An edit of the code of a method that has been laid out is relocated. -/
theorem Laid.relocates (hlaid : Laid className p q m b m') (hc : m.code? = some c)
    (hedit : b.EditOf c decoded pre xs) :
    ∃ c' zs, m' = m.withCode c' ∧ Splice.replaced (zs.map (·.2)) = Splice.replaced xs ∧
      Splice.Relocates c.withoutCarried c' decoded pre zs := by
  obtain ⟨s, signature, c', -, -, hlayout, hrecoded⟩ := hlaid
  obtain ⟨summary, -, hcode⟩ := layOut_eq_ok.1 hlayout
  obtain ⟨-, zs, hreplaced, hrel⟩ := hedit.withoutCarried.relocates hcode
  refine ⟨c', zs, ?_, hreplaced, hrel⟩
  rcases hrecoded.edit with ⟨-, hm'⟩ | ⟨hnone, -⟩
  · exact hm'
  · rw [hc] at hnone
    cases hnone

/-- A method with code differs in its code only once a new body of it has been laid out. -/
theorem Edited.relocated (h : Edited catalog lookup p q m pre b)
    (hlaid : Laid className q r m b m') : m.Relocated m' := by
  obtain @⟨c, decoded, xs, e₁, e₂, hc, hedit, -⟩ := h
  obtain ⟨c', zs, hm', -, hrel⟩ := hlaid.relocates hc hedit
  have hplace : {o | c.IsPlace decoded o} = {o | o ∈ zs.map (·.1) ∨ o = c.bytes.length} :=
    Set.ext fun o => Splice.isPlace_iff hrel.spliced
  have hmoved := hrel.moved
  rw [withoutCarried_eq] at hmoved
  refine ⟨c, c', decoded, _, hc, hm', Insn.decode_eq_ok.2 hedit.reads, ?_, hmoved⟩
  rw [hplace]
  exact Splice.strictMonoOn_position hrel.fresh

/-! ### Positions -/

theorem Finishes.length (h : Finishes className p q n edits ms changed) :
    ms.length = edits.length := by
  induction h with
  | nil => rfl
  | kept _ ih | laid _ _ _ _ _ ih => rw [List.length_cons, List.length_cons, ih]

theorem Finishes.le (h : Finishes className p q n edits ms changed) {i : Nat}
    (hi : i ∈ changed.map (·.1)) : n ≤ i := by
  obtain ⟨x, hx, rfl⟩ := List.mem_map.1 hi
  obtain ⟨j, -, -, hj, -⟩ := h.edit_of_mem hx
  omega

theorem Finishes.sorted (h : Finishes className p q n edits ms changed) :
    (changed.map (·.1)).Pairwise (· < ·) := by
  induction h with
  | nil => exact .nil
  | kept _ ih => exact ih
  | laid _ _ _ _ hrest ih => exact List.pairwise_cons.2 ⟨fun i hi => hrest.le hi, ih⟩

/-- The positions that are told of are those of methods with new bodies, which have been laid out.
-/
theorem Finishes.getElem? (h : Finishes className p q n edits ms changed) {body : Option Body}
    (hk : edits[k]? = some (m, body)) :
    ∃ m', ms[k]? = some m' ∧ (body = none ∧ m' = m ∧ n + k ∉ changed.map (·.1) ∨
      n + k ∈ changed.map (·.1) ∧ ∃ b, body = some b ∧ Laid className p q m b m') := by
  -- by induction on the methods that are finished; a later one has a higher index
  induction h generalizing k with
  | nil => cases hk
  | @kept n m₁ edits ms changed hrest ih =>
    cases k with
    | zero =>
      cases hk
      refine ⟨m, rfl, .inl ⟨rfl, rfl, fun hmem => ?_⟩⟩
      have := hrest.le hmem
      omega
    | succ k =>
      have hindex : n + 1 + k = n + (k + 1) := by omega
      rw [← hindex]
      exact ih (k := k) (by simpa using hk)
  | @laid n m₁ m₂ b₁ s c edits ms changed hle hle' hc hrecoded hrest ih =>
    cases k with
    | zero =>
      cases hk
      exact ⟨m₂, rfl, .inr ⟨List.mem_cons_self, b₁, rfl, s, _, c, hle, hle', hc, hrecoded⟩⟩
    | succ k =>
      obtain ⟨m', hget, hcases⟩ := ih (k := k) (by simpa using hk)
      have hindex : n + 1 + k = n + (k + 1) := by omega
      have hne : n + (k + 1) ≠ n := by omega
      rw [hindex] at hcases
      refine ⟨m', hget, ?_⟩
      rcases hcases with ⟨hbody, hm', hmem⟩ | ⟨hmem, hlaid⟩
      · exact .inl ⟨hbody, hm', by simpa [hne] using hmem⟩
      · exact .inr ⟨List.mem_cons_of_mem _ hmem, hlaid⟩

/-- A method with a new body is laid out. -/
theorem Finishes.exists_laid (h : Finishes className p q n edits ms changed)
    (hk : edits[k]? = some (m, some b)) :
    ∃ m', ms[k]? = some m' ∧ Laid className p q m b m' := by
  obtain ⟨m', hget, hcases⟩ := h.getElem? hk
  obtain ⟨-, b', ⟨⟩, hlaid⟩ := hcases.resolve_left fun h => by cases h.1
  exact ⟨m', hget, hlaid⟩

/-- The names that are told of are those of the methods at the positions. -/
theorem Finishes.signatures (h : Finishes className p q n edits ms changed) {x : Nat × String}
    (hx : x ∈ changed) :
    ∃ j m' s, x.1 = n + j ∧ ms[j]? = some m' ∧ p ≤ s ∧ s ≤ q ∧ x.2 = s.signature m' := by
  have hlater {n : Nat} {m₁ : Member} {ms : List Member}
      (hx : ∃ j m' s, x.1 = n + 1 + j ∧ ms[j]? = some m' ∧ p ≤ s ∧ s ≤ q ∧
        x.2 = Pool.signature s m') :
      ∃ j m' s, x.1 = n + j ∧ (m₁ :: ms)[j]? = some m' ∧ p ≤ s ∧ s ≤ q ∧
        x.2 = Pool.signature s m' := by
    obtain ⟨j, m', s, hj, hget, hs⟩ := hx
    exact ⟨j + 1, m', s, by omega, by simpa using hget, hs⟩
  induction h with
  | nil => cases hx
  | kept _ ih => exact hlater (ih hx)
  | @laid n m₁ m₂ b₁ s c edits ms changed hle hle' hc hrecoded hrest ih =>
    rcases List.mem_cons.1 hx with rfl | hx
    · refine ⟨0, m₂, s, rfl, rfl, hle, hle', ?_⟩
      rw [Pool.signature, Pool.signature, hrecoded.name, hrecoded.descriptor]
    · exact hlater (ih hx)

/-! ### The assignments -/

section

variable {cls cls' : ClassFile} {summary : ExpansionSummary} {i : Initializer}
  {cs : List DeferredConstant}

theorem deferred_foldl_defer :
    (cs.foldl Initializer.defer i).deferred.toList = i.deferred.toList ++ cs := by
  induction cs generalizing i with
  | nil => simp
  | cons c cs ih => simp [ih, Initializer.defer]

/-- The constants to assign are those of the fields. -/
theorem Run.deferred (s : Run catalog lookup cls className cls' summary)
    (he : (Expander.ofPool cls.pool).Ready lookup) :
    s.progress.initializer.deferred.toList = s.cs := by
  obtain ⟨-, -, edits, -, -, -, hfinds⟩ := visitMethods_eq_ok he s.visits
  rw [hfinds.deferred, deferred_foldl_defer]
  rfl

/-- Unless no constant is deferred, code that assigns all of them is put in front of the type
initializer that was found, or into a new one. -/
theorem Run.put (s : Run catalog lookup cls className cls' summary)
    (he : (Expander.ofPool cls.pool).Ready lookup) :
    s.cs = [] ∧ s.edits = s.progress.edits ∧ s.injected = s.visited ∨
      s.cs ≠ [] ∧ ∃ code k, Assigns catalog lookup className s.injected.pool s.cs code ∧
        Put catalog lookup cls.pool s.injected.pool code s.progress.edits.toList
          s.progress.initializer.state k s.edits.toList := by
  have hsurveyed := s.surveyed he
  have hdeferred := s.deferred he
  -- with nothing deferred there is nothing to put in
  by_cases hcs : s.cs = []
  · have hempty : s.progress.initializer.deferred = #[] := by
      rw [hcs] at hdeferred
      exact Array.toList_eq_nil_iff.1 hdeferred
    obtain ⟨i', hnone⟩ : ∃ i', s.progress.initializer.finalize catalog lookup className s.visited =
        (.ok none, i', s.visited) := finalize_of_deferred hempty
    obtain ⟨hinjection, hrest⟩ := Prod.mk.inj (hnone.symm.trans s.finalizes)
    have hinjects := s.injects
    rw [← Except.ok.inj hinjection, ← (Prod.mk.inj hrest).2] at hinjects
    obtain ⟨hedits, hinjected⟩ := Prod.mk.inj (Except.ok.inj hinjects)
    exact .inl ⟨hcs, (Prod.mk.inj hedits).1.symm, hinjected.symm⟩
  · obtain ⟨hg, hr, hcases⟩ :=
      Initializer.finalize_eq_ok hsurveyed.waiting hsurveyed.ready s.finalizes
    rcases hcases with ⟨hempty, -⟩ | ⟨code, ha, hinjection⟩
    · rw [hempty] at hdeferred
      exact absurd hdeferred.symm hcs
    · have hinjects := s.injects
      rw [hinjection] at hinjects
      obtain ⟨hg', -, k, hput⟩ :=
        applyInjection_put hr hg.le hsurveyed.waiting hsurveyed.found hinjects
      rw [hdeferred] at ha
      exact .inr ⟨hcs, code, k, ha.mono hg'.le, hput⟩

/-! ### The methods of an expanded class -/

/-- What is put in front of the body of the method at a position: the assignments of the deferred
constants, if it is the initializer that was found, and else nothing. -/
inductive Run.FrontAt (s : Run catalog lookup cls className cls' summary) (k : Nat) :
    List Insn → Prop
  | nothing : s.cs = [] ∨ s.progress.initializer.state ≠ .found k → s.FrontAt k []
  | assignments {pre : List Insn} : s.cs ≠ [] → s.progress.initializer.state = .found k →
      Assigns catalog lookup className s.injected.pool s.cs pre → s.FrontAt k pre

/-- What becomes of the edit that the visit of a method left. If the method has a new body in the
end, then it was visited, and the body is an edit of its code with something in front. -/
theorem Run.exists_edit_visited (s : Run catalog lookup cls className cls' summary)
    (he : (Expander.ofPool cls.pool).Ready lookup) {body : Option Body}
    (hbody : s.progress.edits.toList[k]? = some (m, body)) :
    ∃ body', s.edits.toList[k]? = some (m, body') ∧ (body' = none → body = none) ∧
      ∀ b, body' = some b → Visited catalog lookup cls.pool s.visited.pool m body ∧
        ∃ pre, Edited catalog lookup cls.pool s.injected.pool m pre b ∧ s.FrontAt k pre := by
  have hsurveyed := s.surveyed he
  -- without an injection the body is the one that the visit left
  have hold (hnone : s.cs = [] ∨ s.progress.initializer.state ≠ .found k) :
      ∀ b, body = some b → Visited catalog lookup cls.pool s.visited.pool m body ∧
        ∃ pre, Edited catalog lookup cls.pool s.injected.pool m pre b ∧ s.FrontAt k pre := by
    rintro b rfl
    have hvisited := hsurveyed.visits.visited_of_mem he (List.mem_of_getElem? hbody)
    exact ⟨hvisited, [], hvisited.edited (s.prepared he).le, .nothing hnone⟩
  rcases s.put he with ⟨hnil, hsame, -⟩ | ⟨hcs, code, k', ha, hput⟩
  · rw [hsame]
    exact ⟨body, hbody, id, hold (.inl hnil)⟩
  · have hfound := hsurveyed.found
    generalize hs : s.progress.initializer.state = state at hput hfound
    generalize s.edits.toList = edits' at hput
    cases hput with
    | @front _ m' body' b' hk' hedited =>
      by_cases hkk : k = k'
      · subst hkk
        obtain ⟨m₁, body₁, r, hk₁, -, -, -, hvisited⟩ := hfound k rfl
        cases hbody.symm.trans hk'
        cases hk'.symm.trans hk₁
        refine ⟨some b', List.getElem?_set_self (List.getElem?_eq_some_iff.1 hbody).1,
          (fun h => by cases h), ?_⟩
        rintro b ⟨⟩
        exact ⟨hvisited, code, hedited, .assignments hcs hs ha⟩
      · have hother : s.progress.initializer.state ≠ .found k := by
          rw [hs]
          rintro ⟨⟩
          exact hkk rfl
        exact ⟨body, by rw [List.getElem?_set_ne (Ne.symm hkk), hbody], id, hold (.inr hother)⟩
    | new hnew =>
      have hnone : s.progress.initializer.state ≠ .found k := by
        rw [hs]
        rintro ⟨⟩
      refine ⟨body, ?_, id, hold (.inr hnone)⟩
      rw [List.getElem?_append_left (List.getElem?_eq_some_iff.1 hbody).1, hbody]

/-- The visit of each method left an edit of it. -/
theorem Surveyed.exists_edit {progress : Progress} {e : Expander}
    (h : Surveyed catalog lookup cls progress e) (hk : cls.methods[k]? = some m) :
    ∃ body, progress.edits.toList[k]? = some (m, body) := by
  rw [← h.methods, List.getElem?_map, Option.map_eq_some_iff] at hk
  obtain ⟨⟨m', body⟩, hget, rfl⟩ := hk
  exact ⟨body, hget⟩

/-- The edit of a method of the class, with what is put in front of it. -/
theorem Run.exists_edit_front (s : Run catalog lookup cls className cls' summary)
    (he : (Expander.ofPool cls.pool).Ready lookup) (hk : cls.methods[k]? = some m) :
    ∃ body, s.edits.toList[k]? = some (m, body) ∧ ∀ b, body = some b →
      ∃ pre, Edited catalog lookup cls.pool s.injected.pool m pre b ∧ s.FrontAt k pre := by
  obtain ⟨body, hbody⟩ := (s.surveyed he).exists_edit hk
  obtain ⟨body', hbody', -, hedited⟩ := s.exists_edit_visited he hbody
  exact ⟨body', hbody', fun b hb => (hedited b hb).2⟩

/-- The edit of a method of the class. -/
theorem Run.exists_edit (s : Run catalog lookup cls className cls' summary)
    (he : (Expander.ofPool cls.pool).Ready lookup) (hk : cls.methods[k]? = some m) :
    ∃ body, s.edits.toList[k]? = some (m, body) ∧
      ∀ b, body = some b → ∃ pre, Edited catalog lookup cls.pool s.injected.pool m pre b := by
  obtain ⟨body, hbody, hedited⟩ := s.exists_edit_front he hk
  refine ⟨body, hbody, fun b hb => ?_⟩
  obtain ⟨pre, hpre, -⟩ := hedited b hb
  exact ⟨pre, hpre⟩

end

end Expansion

/-- A type initializer that a class has been given because it had none. -/
structure ClassFile.AddedInitializer (cls cls' : ClassFile) (m : Member) : Prop where
  absent : ∀ m' ∈ cls.methods, cls.pool.isInitializer m' = false
  access : m.access = Access.isStatic
  name : cls'.pool.utf8? m.name = some initializerName
  descriptor : cls'.pool.utf8? m.descriptor = some initializerDescriptor
  code : ∃ n c, m.attributes = [⟨n, .code c⟩] ∧ cls'.pool.utf8? n = some Expansion.codeName

namespace Expansion

section

variable {catalog : Catalog} {lookup : LookupMethod} {className : String} {cls cls' : ClassFile}
  {summary : ExpansionSummary} {p q : Pool} {m : Member}

/-- If no initializer was found, the class has none. -/
theorem Run.not_isInitializer (s : Run catalog lookup cls className cls' summary)
    (he : (Expander.ofPool cls.pool).Ready lookup)
    (hstate : s.progress.initializer.state = .notStarted) (hm : m ∈ cls.methods) :
    cls.pool.isInitializer m = false := by
  have hsurveyed := s.surveyed he
  have hopen : s.progress.initializer.isOpen = true := by
    rw [Initializer.isOpen, hstate]
    rfl
  rw [← hsurveyed.methods] at hm
  obtain ⟨x, hx, rfl⟩ := List.mem_map.1 hm
  obtain ⟨r, hle, -, hr⟩ := hsurveyed.visits.not_isInitializer he hopen x hx
  rw [Bool.eq_false_iff]
  intro hinit
  rw [Pool.isInitializer, Bool.and_eq_true, beq_iff_eq, beq_iff_eq] at hinit
  rw [Pool.isInitializer, Pool.utf8?_mono hle hinit.1, Pool.utf8?_mono hle hinit.2] at hr
  cases hr

/-- The methods of an expanded class are those of the class and possibly a new initializer. -/
theorem Run.exists_methods (s : Run catalog lookup cls className cls' summary)
    (he : (Expander.ofPool cls.pool).Ready lookup) :
    ∃ old new, cls'.methods = old ++ new ∧ old.length = cls.methods.length ∧
      (new = [] ∨ ∃ m, new = [m] ∧ s.cs ≠ [] ∧ cls.AddedInitializer cls' m) := by
  have hprepared := s.prepared he
  have hlength := congrArg List.length hprepared.methods
  rw [List.length_map] at hlength
  obtain ⟨hg, hfinishes⟩ := s.finished he
  rcases s.put he with ⟨-, hsame, -⟩ | ⟨hcs, code, k, -, hput⟩
  · refine ⟨_, [], (List.append_nil _).symm, ?_, .inl rfl⟩
    rw [hfinishes.length, hsame, hlength]
  · generalize hs : s.progress.initializer.state = state at hput
    generalize s.edits.toList = edits' at hput hfinishes
    -- only a new initializer adds a method
    cases hput with
    | front _ _ =>
      refine ⟨_, [], (List.append_nil _).symm, ?_, .inl rfl⟩
      rw [hfinishes.length, List.length_set, hlength]
    | @new m hnew =>
      obtain ⟨old, tail, happend, hold, htail⟩ := exists_append_of_forall₂ hfinishes.forall₂
      refine ⟨old, tail, happend, by rw [← hold.length_eq, hlength], .inr ?_⟩
      cases htail with
      | @cons _ m' _ _ hm' htail =>
        cases htail
        rcases hm' with ⟨hnone, -⟩ | ⟨b, -, r, signature, c, -, -, -, hrecoded⟩
        · cases hnone
        · refine ⟨m', rfl, hcs, ?_⟩
          rcases hrecoded.edit with ⟨⟨c₀, hc₀⟩, -⟩ | ⟨-, name, hname, rfl⟩
          · rw [Member.code?, hnew.attributes] at hc₀
            cases hc₀
          · have hnew' := hnew.mono hg.le
            refine ⟨fun m' hm' => s.not_isInitializer he hs hm', hnew.access, hnew'.name,
              hnew'.descriptor, name, c, ?_, hname⟩
            rw [hnew.attributes]
            rfl

/-- The names that are told of are those of the methods that are laid out. -/
theorem Run.signatures (s : Run catalog lookup cls className cls' summary)
    (he : (Expander.ofPool cls.pool).Ready lookup) :
    List.Forall₂ (fun k signature => ∃ m p, cls'.methods[k]? = some m ∧ cls.pool ≤ p ∧
      p ≤ cls'.pool ∧ signature = p.signature m)
      (s.done.changed.toList.map (·.1)) summary.methods := by
  have hnames : summary.methods = s.done.changed.toList.map (·.2) :=
    congrArg ExpansionSummary.methods s.summary_eq
  rw [hnames, List.forall₂_map_left_iff, List.forall₂_map_right_iff, List.forall₂_same]
  intro x hx
  obtain ⟨j, m', p, hj, hget, hle, hle', hname⟩ := (s.finished he).2.signatures hx
  rw [Nat.zero_add] at hj
  exact ⟨m', p, hj ▸ hget, Pool.le_trans (s.prepared he).grown.le hle, hle', hname⟩

end

end Expansion

namespace ClassFile

open Expansion

variable {catalog : Catalog} {lookup : LookupMethod} {cls cls' : ClassFile}
  {summary : ExpansionSummary}

/-- A class that is expanded has a name, and the pass over it was made. -/
theorem exists_ofNamed (h : cls.expand catalog lookup = .ok (.expanded cls' summary)) :
    ∃ className, cls.name? = some className ∧
      ofNamed catalog lookup cls className = .ok (.expanded cls' summary) := by
  unfold expand at h
  split at h
  · split at h
    · cases h
    · rename_i className hname
      exact ⟨className, hname, h⟩
  · cases h

/-- A class that is expanded takes the steps of an expansion. -/
theorem nonempty_run (h : cls.expand catalog lookup = .ok (.expanded cls' summary)) :
    (Expander.ofPool cls.pool).Ready lookup ∧ ∃ className, cls.name? = some className ∧
      Nonempty (Expansion.Run catalog lookup cls className cls' summary) := by
  obtain ⟨className, hname, hpass⟩ := exists_ofNamed h
  exact ⟨Expander.ready_ofPool (bounded_of_expand h).1, className, hname,
    Expansion.nonempty_run hpass⟩

/-! ### All of it -/

/-- An expansion keeps a class apart from its pool, its fields and its methods. The pool only grows.
Exactly the fields that hold a template lose their constant values. The methods stay in order, those
that are not told of as they are and the others apart from their code, and a type initializer is
added to them at most, if the class has none and a constant is deferred. -/
theorem changes_of_expand (h : cls.expand catalog lookup = .ok (.expanded cls' summary)) :
    cls' = { cls with pool := cls'.pool, fields := cls'.fields, methods := cls'.methods } ∧
    cls'.toBytes.take 8 = cls.toBytes.take 8 ∧
    cls.pool ≤ cls'.pool ∧
    List.Forall₂ (fun f f' =>
        (∃ text, f.HoldsTemplate catalog cls.pool text) ∧ f' = f.withoutConstant ∨
        (¬∃ text, f.HoldsTemplate catalog cls.pool text) ∧ f' = f) cls.fields cls'.fields ∧
    ∃ (old new : List Member) (changed : List Nat),
      cls'.methods = old ++ new ∧ old.length = cls.methods.length ∧
      (new = [] ∨ ∃ m, new = [m] ∧ 0 < summary.deferred ∧ cls.AddedInitializer cls' m) ∧
      changed.Pairwise (· < ·) ∧ cls'.verifyMethods changed = .ok () ∧
      List.Forall₂ (fun k signature => ∃ m p, cls'.methods[k]? = some m ∧ cls.pool ≤ p ∧
        p ≤ cls'.pool ∧ signature = p.signature m) changed summary.methods ∧
      ∀ k m, cls.methods[k]? = some m → ∃ m', old[k]? = some m' ∧
        (k ∉ changed ∧ m' = m ∨ k ∈ changed ∧ m.Relocated m') := by
  obtain ⟨he, className, -, ⟨s⟩⟩ := nonempty_run h
  have hpool := (bounded_of_expand h).2.1
  obtain ⟨hg, hfinishes⟩ := s.finished he
  obtain ⟨old, new, hmethods, hold, hnew⟩ := s.exists_methods he
  have hresult : cls' =
      { cls with pool := cls'.pool, fields := cls'.fields, methods := cls'.methods } := by
    have hresult := s.result
    generalize s.final.pool = pool, s.fields = fields, s.done.methods.toList = ms at hresult
    rw [hresult]
  have hfields : cls'.fields = s.fields := congrArg ClassFile.fields s.result
  have hsummary := s.summary_eq
  refine ⟨hresult, ?_, hpool, ?_, old, new, s.done.changed.toList.map (·.1), hmethods, hold, ?_,
    hfinishes.sorted, s.verifies, ?_, ?_⟩
  · rw [hresult]
    simp [toBytes, BigEndian.word32, BigEndian.word16]
  · rw [hfields]
    exact (Expansion.deferFields_spec s.defers).1
  · refine hnew.imp_right ?_
    rintro ⟨m, hm, hcs, hadded⟩
    have hdeferred : summary.deferred = s.cs.length := congrArg ExpansionSummary.deferred hsummary
    exact ⟨m, hm, hdeferred ▸ List.length_pos_iff.2 hcs, hadded⟩
  · exact s.signatures he
  · intro k m hk
    obtain ⟨body, hbody, hedited⟩ := s.exists_edit he hk
    obtain ⟨m', hget, hcases⟩ := hfinishes.getElem? hbody
    rw [Nat.zero_add] at hcases
    have hlt : k < old.length := by
      rw [hold]
      exact (List.getElem?_eq_some_iff.1 hk).1
    rw [hmethods, List.getElem?_append_left hlt] at hget
    refine ⟨m', hget, ?_⟩
    rcases hcases with ⟨-, hm', hnot⟩ | ⟨hmem, b, hb, hlaid⟩
    · exact .inl ⟨hnot, hm'⟩
    · obtain ⟨pre, hpre⟩ := hedited b hb
      exact .inr ⟨hmem, hpre.relocated hlaid⟩

theorem changes_of_expand_loop :
    ∃ cls' summary, loopClass.expand loopCatalog loopLookup = .ok (.expanded cls' summary) ∧
      cls'.fields = [loopField.withoutConstant] ∧ cls'.methods.length = 1 := by
  obtain ⟨c, summary, h, -⟩ := exists_expand_loopClass
  obtain ⟨-, -, -, hfields, old, new, changed, hmethods, hold, hnew, -⟩ := changes_of_expand h
  refine ⟨loopExpanded c, summary, h, ?_, ?_⟩
  · generalize (loopExpanded c).fields = fields at hfields
    cases hfields with
    | cons hf hrest =>
      cases hrest
      rcases hf with ⟨-, rfl⟩ | ⟨hnone, -⟩
      · rfl
      · exact absurd ⟨_, templateOf?_eq_some.1 templateOf?_loopField⟩ hnone
  · have hnil : new = [] := by
      refine hnew.resolve_right ?_
      rintro ⟨m, -, -, hadded⟩
      have hinit : loopClass.pool.isInitializer loopInitializer = true := by decide +kernel
      rw [hadded.absent loopInitializer List.mem_cons_self] at hinit
      cases hinit
    rw [hmethods, hnil, List.append_nil, hold]
    rfl

end ClassFile

end ClassTemplates
