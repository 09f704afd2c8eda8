import ClassTemplates.Proofs.Class.Visits

/-!
# Finishing a class

Once the methods have been visited, the assignments of deferred constants are put in front of the
type initializer, or into a new one. Then every new body is laid out. Every body that is laid out is
an edit of code: of that of its method, or of a bare return.

## Main definitions

- `Expansion.Edited`, `Expansion.Reworked` — a new body of a method, as an edit
- `Expansion.Put`, `Expansion.Injected` — the edits of a class with the assignments in them
- `Expansion.Laid` — a method with its new body laid out

## Main results

- `Expansion.applyInjection_eq_ok` — what putting in the assignments leads to
- `Expansion.finishMethods_eq_ok` — the methods that are laid out, and those that are not
-/

namespace ClassTemplates

namespace Expansion

variable {catalog : Catalog} {lookup : LookupMethod} {className owner : String} {m m' : Member}
  {p q q' : Pool} {e e' : Expander}

/-! ### Edits -/

/-- The code of a type initializer that does nothing. -/
def bareCode : Code :=
  ⟨0, 0, [Opcode.voidReturn], [], []⟩

/-- The method is a type initializer that has no code yet. -/
structure IsNew (q : Pool) (m : Member) : Prop where
  access : m.access = Access.isStatic
  attributes : m.attributes = []
  name : q.utf8? m.name = some initializerName
  descriptor : q.utf8? m.descriptor = some initializerDescriptor

theorem IsNew.mono (h : q ≤ q') (hm : IsNew q m) : IsNew q' m :=
  ⟨hm.access, hm.attributes, Pool.utf8?_mono h hm.name, Pool.utf8?_mono h hm.descriptor⟩

/-- A new body of a method: the loads of its code are expanded, in pools between two given ones, and
assignments stand in front. -/
inductive Reworked (catalog : Catalog) (lookup : LookupMethod) (owner : String) (p q : Pool)
    (m : Member) (b : Body) : Prop
  | mk {c : Code} {decoded : List (Nat × Insn)} {pre : List Insn} {xs : List Splice}
      {cs : List DeferredConstant} {e₁ e₂ : Expander} :
      m.code? = some c ∨ IsNew q m ∧ c = bareCode → b.EditOf c decoded pre xs →
      Assigns catalog lookup owner q cs pre → e₁.Ready lookup → p ≤ e₁.pool → e₂.pool ≤ q →
      Expander.Expands catalog lookup e₁ xs e₂ → Reworked catalog lookup owner p q m b

theorem Reworked.mono {b : Body} (h : q ≤ q') (hb : Reworked catalog lookup owner p q m b) :
    Reworked catalog lookup owner p q' m b := by
  obtain ⟨hc, hedit, ha, hr, hp, hq, hx⟩ := hb
  exact ⟨hc.imp_right fun hn => ⟨hn.1.mono h, hn.2⟩, hedit, ha.mono h, hr, hp,
    Pool.le_trans hq h, hx⟩

/-- A new body of a method with code: the loads of the code are expanded, in pools between two given
ones, and instructions stand in front. -/
inductive Edited (catalog : Catalog) (lookup : LookupMethod) (p q : Pool) (m : Member)
    (pre : List Insn) (b : Body) : Prop
  | mk {c : Code} {decoded : List (Nat × Insn)} {xs : List Splice} {e₁ e₂ : Expander} :
      m.code? = some c → b.EditOf c decoded pre xs → e₁.Ready lookup → p ≤ e₁.pool →
      e₂.pool ≤ q → Expander.Expands catalog lookup e₁ xs e₂ → Edited catalog lookup p q m pre b

theorem Edited.reworked {b : Body} {pre : List Insn} {cs : List DeferredConstant}
    (h : Edited catalog lookup p q m pre b) (ha : Assigns catalog lookup owner q cs pre) :
    Reworked catalog lookup owner p q m b := by
  obtain ⟨hc, hedit, hr, hp, hq, hx⟩ := h
  exact ⟨.inl hc, hedit, ha, hr, hp, hq, hx⟩

/-- The body of a method that was visited, with instructions in front. -/
theorem Visited.edited {b : Body} {pre : List Insn} (h : Visited catalog lookup p q m (some b))
    (hq : q ≤ q') : Edited catalog lookup p q' m pre (b.prepend pre) := by
  obtain ⟨e₁, e₂, n, hr, hle, hle', hx⟩ := h
  rcases expandMethod_eq_ok hx with ⟨-, -, hnone, -⟩ | ⟨b₁, ⟨c, b₀, hc, hb, hrun⟩, hbody⟩
  · cases hnone
  · obtain rfl : b₁ = b := by
      split at hbody
      · cases hbody
      · exact (Option.some.inj hbody).symm
    obtain ⟨decoded, xs, hedit, hexp, -⟩ := Body.editOf_expandBody hb hrun pre
    exact ⟨hc, hedit, hr, hle, Pool.le_trans hle' hq, hexp⟩

theorem Visited.reworked {b : Body} {pre : List Insn} {cs : List DeferredConstant}
    (h : Visited catalog lookup p q m (some b)) (hq : q ≤ q')
    (ha : Assigns catalog lookup owner q' cs pre) :
    Reworked catalog lookup owner p q' m (b.prepend pre) :=
  (h.edited hq).reworked ha

theorem after_of_countP_eq_zero {xs : List Splice} (h : xs.countP (·.code.isSome) = 0) :
    Splice.after xs = Splice.before xs := by
  induction xs with
  | nil => rfl
  | cons x xs ih =>
    rw [List.countP_eq_zero, List.forall_mem_cons] at h
    rw [Splice.after_cons, Splice.before_cons, ih (List.countP_eq_zero.2 h.2),
      Splice.result_of_none (by simpa using h.1)]
    rfl

/-- The body that a method keeps, with instructions in front. -/
theorem Visited.edited_of_none {c : Code} {b : Body} {pre : List Insn}
    (h : Visited catalog lookup p q m none) (hc : m.code? = some c) (hb : Body.ofCode c = .ok b)
    (hq : q ≤ q') : Edited catalog lookup p q' m pre (b.prepend pre) := by
  obtain ⟨e₁, e₂, n, hr, hle, hle', hx⟩ := h
  rcases expandMethod_eq_ok hx with ⟨hnone, -⟩ | ⟨b₁, ⟨c', b₀, hc', hb', hrun⟩, hbody⟩
  · rw [hnone] at hc
    cases hc
  · rw [hc] at hc'
    cases hc'
    rw [hb] at hb'
    cases hb'
    have hn : n = 0 := by
      by_contra hne
      rw [if_neg hne] at hbody
      cases hbody
    obtain ⟨xs, hbefore, -, rfl, hcount⟩ := Expander.expandBody_eq_ok hrun
    obtain ⟨decoded, ys, hedit, hexp, -⟩ := Body.editOf_expandBody hb hrun pre
    have hkept : { b with insns := Splice.after xs } = b := by
      rw [after_of_countP_eq_zero (hcount.symm.trans hn), hbefore]
    rw [hkept] at hedit
    exact ⟨hc, hedit, hr, hle, Pool.le_trans hle' hq, hexp⟩

theorem Visited.reworked_of_none {c : Code} {b : Body} {pre : List Insn}
    {cs : List DeferredConstant} (h : Visited catalog lookup p q m none) (hc : m.code? = some c)
    (hb : Body.ofCode c = .ok b) (hq : q ≤ q') (ha : Assigns catalog lookup owner q' cs pre) :
    Reworked catalog lookup owner p q' m (b.prepend pre) :=
  (h.edited_of_none hc hb hq).reworked ha

/-- The body of a new initializer is an edit of the code that does nothing. -/
theorem editOf_ofInsns {pre : List Insn} :
    (Body.ofInsns 0 (pre ++ [.op Opcode.voidReturn])).EditOf bareCode
      [(0, .op Opcode.voidReturn)] pre [⟨.op Opcode.voidReturn, none⟩] where
  reads := Insn.decode_eq_ok.1 (by decide +kernel)
  places := fun o ho => by cases ho
  before := rfl
  loads := fun x hx code hcode => by
    obtain rfl := List.mem_singleton.1 hx
    cases hcode
  insns := rfl
  handlers := rfl
  attributes := rfl
  maxLocals := rfl
  maxStack := rfl

theorem reworked_of_isNew {pre : List Insn} {cs : List DeferredConstant} (hm : IsNew q m)
    (he : e.Ready lookup) (hp : p ≤ e.pool) (hq : e.pool ≤ q)
    (ha : Assigns catalog lookup owner q cs pre) :
    Reworked catalog lookup owner p q m (Body.ofInsns 0 (pre ++ [.op Opcode.voidReturn])) :=
  ⟨.inr ⟨hm, rfl⟩, editOf_ofInsns, ha, he, hp, hq, .cons rfl (.nil e)⟩

/-! ### Assignments -/

theorem prependAt_eq_ok {edits edits' : Edits} {k : Nat} {insns : List Insn}
    (h : prependAt className edits k insns = .ok edits') :
    edits[k]? = none ∧ edits' = edits ∨ ∃ m body b, edits[k]? = some (m, body) ∧
      edits' = edits.setIfInBounds k (m, some (b.prepend insns)) ∧
      (body = some b ∨ body = none ∧ ∃ c, m.code? = some c ∧ Body.ofCode c = .ok b) := by
  unfold prependAt at h
  split at h
  · rename_i hk
    cases h
    exact .inl ⟨hk, rfl⟩
  · rename_i m b hk
    cases h
    exact .inr ⟨m, some b, b, hk, rfl, .inl rfl⟩
  · rename_i m hk
    split at h
    · cases h
    · rename_i c hc
      obtain ⟨b, hb, h⟩ := bind_eq_ok.1 h
      cases h
      exact .inr ⟨m, none, b, hk, rfl, .inr ⟨rfl, c, hc, mapError_eq_ok.1 hb⟩⟩

theorem newInitializer_eq_ok (hp : p.Bounded) (h : newInitializer.run p = (.ok m, q)) :
    p.GrownTo q ∧ IsNew q m := by
  obtain ⟨name, p₁, h₁, h⟩ := run_bind_eq_ok.1 h
  obtain ⟨descriptor, p₂, h₂, h⟩ := run_bind_eq_ok.1 h
  obtain ⟨rfl, rfl⟩ := run_pure_eq_ok.1 h
  obtain ⟨g₁, r₁⟩ := Pool.addUtf8_grown hp h₁
  obtain ⟨g₂, r₂⟩ := Pool.addUtf8_grown g₁.bounded h₂
  exact ⟨g₁.trans g₂, rfl, rfl, Pool.utf8?_mono g₂.le r₁, r₂⟩

/-- The edits of the methods of a class, with the assignments in front of an initializer or in a new
one. There is a new one only if none has been found. -/
def Injected (catalog : Catalog) (lookup : LookupMethod) (owner : String) (p q : Pool)
    (isOpen : Bool) (edits edits' : List (Member × Option Body)) : Prop :=
  ∃ front new, edits' = front ++ new ∧
    List.Forall₂ (fun x y => y.1 = x.1 ∧ (y.2 = none → x.2 = none) ∧
      ∀ b, y.2 = some b → Reworked catalog lookup owner p q y.1 b) edits front ∧
    (new = [] ∨ isOpen = true ∧ ∃ m b, new = [(m, some b)] ∧ IsNew q m ∧
      Reworked catalog lookup owner p q m b)

/-- The bodies of methods that were visited are edits. -/
theorem forall₂_reworked {edits : List (Member × Option Body)}
    (hv : ∀ m b, (m, some b) ∈ edits → Visited catalog lookup p q m (some b)) (hq : q ≤ q') :
    List.Forall₂ (fun x y => y.1 = x.1 ∧ (y.2 = none → x.2 = none) ∧
      ∀ b, y.2 = some b → Reworked catalog lookup owner p q' y.1 b) edits edits := by
  rw [List.forall₂_same]
  rintro ⟨m, body⟩ hmem
  refine ⟨rfl, id, ?_⟩
  rintro b rfl
  exact (hv m b hmem).reworked hq .nil

/-- The edits of the methods of a class once instructions have been put in front of its type
initializer, which has a position. The initializer is the one that was found, or a new one. -/
inductive Put (catalog : Catalog) (lookup : LookupMethod) (p q : Pool) (insns : List Insn)
    (edits : List (Member × Option Body)) :
    InitializerState → Nat → List (Member × Option Body) → Prop
  | front {k : Nat} {m : Member} {body : Option Body} {b : Body} : edits[k]? = some (m, body) →
      Edited catalog lookup p q m insns b →
      Put catalog lookup p q insns edits (.found k) k (edits.set k (m, some b))
  | new {m : Member} : IsNew q m → Put catalog lookup p q insns edits .notStarted edits.length
      (edits ++ [(m, some (Body.ofInsns 0 (insns ++ [.op Opcode.voidReturn])))])

/-- Instructions are put in front of the initializer that was found, or into a new one. -/
theorem applyInjection_put {edits edits' : Edits} {i : Initializer} {insns : List Insn}
    {change : Option InitializerChange} (he : e.Ready lookup) (hq : q ≤ e.pool) (hw : i.Waiting)
    (hfound : ∀ k, i.state = .found k → FoundAt catalog lookup p q edits.toList k)
    (h : applyInjection className edits e (some (Initializer.inject i.state insns)) =
      .ok ((edits', change), e')) :
    e.pool.GrownTo e'.pool ∧ e'.Ready lookup ∧
      ∃ k, Put catalog lookup p e'.pool insns edits.toList i.state k edits'.toList := by
  rcases hw with hs | ⟨k, hs⟩
  · -- a new initializer
    rw [hs] at h ⊢
    obtain ⟨⟨m, e₁⟩, hnew, h⟩ := bind_eq_ok.1 h
    cases h
    obtain ⟨hrun, hm⟩ := Expander.onPool_eq_ok (lift_eq_ok.1 hnew)
    obtain ⟨hg, hnew⟩ := newInitializer_eq_ok he.bounded hrun
    refine ⟨hg, he.grown hg hm, edits.toList.length, ?_⟩
    rw [Array.toList_push]
    exact .new hnew
  · -- the initializer that was found
    obtain ⟨m, body, r, hk, -, -, -, hvisited⟩ := hfound k hs
    rw [hs] at h ⊢
    obtain ⟨edits'', hprepend, h⟩ := bind_eq_ok.1 h
    cases h
    rw [Array.getElem?_toList] at hk
    rcases prependAt_eq_ok hprepend with ⟨hnone, -⟩ | ⟨m', body', b, hk', rfl, hbody⟩
    · rw [hk] at hnone
      cases hnone
    · rw [hk] at hk'
      cases hk'
      have hedited : Edited catalog lookup p e.pool m insns (b.prepend insns) := by
        rcases hbody with rfl | ⟨rfl, c, hc, hb⟩
        · exact hvisited.edited hq
        · exact hvisited.edited_of_none hc hb hq
      refine ⟨.refl he.bounded, he, k, ?_⟩
      rw [Array.toList_setIfInBounds]
      exact .front (by rwa [Array.getElem?_toList]) hedited

/-- With assignments put in front of an initializer, every new body is an edit. -/
theorem Put.injected {edits edits' : List (Member × Option Body)} {insns : List Insn}
    {cs : List DeferredConstant} {i : Initializer} {k : Nat}
    (h : Put catalog lookup p q' insns edits i.state k edits') (he : e.Ready lookup)
    (hp : p ≤ e.pool) (hq : e.pool ≤ q')
    (hv : ∀ m b, (m, some b) ∈ edits → Visited catalog lookup p e.pool m (some b))
    (ha : Assigns catalog lookup owner q' cs insns) :
    Injected catalog lookup owner p q' i.isOpen edits edits' := by
  generalize hs : i.state = s at h
  cases h with
  | @front _ m body b hk hedited =>
    refine ⟨_, [], (List.append_nil _).symm, ?_, .inl rfl⟩
    refine forall₂_set (x := (m, body)) (forall₂_reworked hv hq) hk ⟨rfl, ?_, ?_⟩
    · intro hnone
      cases hnone
    · intro b' hb'
      cases hb'
      exact hedited.reworked ha
  | @new m hnew =>
    refine ⟨edits, _, rfl, forall₂_reworked hv hq, .inr ⟨?_, m, _, rfl, hnew, ?_⟩⟩
    · rw [Initializer.isOpen, hs]
      rfl
    · exact reworked_of_isNew hnew he hp hq ha

/-- A new body is one of the method that it belongs to. -/
theorem Injected.reworked {isOpen : Bool} {edits edits' : List (Member × Option Body)}
    {b : Body} (h : Injected catalog lookup owner p q isOpen edits edits')
    (hx : (m, some b) ∈ edits') :
    Reworked catalog lookup owner p q m b := by
  obtain ⟨front, new, rfl, hfront, hnew⟩ := h
  rcases List.mem_append.1 hx with hx | hx
  · obtain ⟨y, -, -, -, hreworked⟩ := exists_left_of_forall₂ hfront hx
    exact hreworked b rfl
  · rcases hnew with rfl | ⟨-, m', b', rfl, -, hreworked⟩
    · cases hx
    · cases List.mem_singleton.1 hx
      exact hreworked

theorem applyInjection_eq_ok {edits : Edits} {edits' : Edits} {i i' : Initializer}
    {injection : Option Injection} {change : Option InitializerChange} {e₁ e₂ : Expander}
    (he : e.Ready lookup) (hp : p ≤ e.pool) (hw : i.Waiting)
    (hv : ∀ m b, (m, some b) ∈ edits.toList → Visited catalog lookup p e.pool m (some b))
    (hfound : ∀ k, i.state = .found k → FoundAt catalog lookup p e.pool edits.toList k)
    (hfinal : i.finalize catalog lookup className e = (.ok injection, i', e₁))
    (h : applyInjection className edits e₁ injection = .ok ((edits', change), e₂)) :
    e.pool.GrownTo e₂.pool ∧ e₂.Ready lookup ∧
      Injected catalog lookup className p e₂.pool i.isOpen edits.toList edits'.toList := by
  obtain ⟨hg, hr, hcases⟩ := Initializer.finalize_eq_ok hw he hfinal
  rcases hcases with ⟨-, rfl, rfl⟩ | ⟨code, ha, rfl⟩
  · cases h
    exact ⟨hg, hr, edits.toList, [], by simp, forall₂_reworked hv (Pool.le_refl _), .inl rfl⟩
  · obtain ⟨hg', hr', k, hput⟩ := applyInjection_put hr hg.le hw hfound h
    exact ⟨hg.trans hg', hr', hput.injected he hp (hg.trans hg').le hv (ha.mono hg'.le)⟩

/-! ### New code -/

theorem firstCode?_replaceCode {c c' : Code} {attributes : List Attribute}
    (h : Attribute.firstCode? attributes = some c') :
    Attribute.firstCode? (Member.replaceCode c attributes) = some c ∧
      ((attributes.filterMap Attribute.code?).length ≤ 1 →
        (Member.replaceCode c attributes).filterMap Attribute.code? = [c]) := by
  induction attributes with
  | nil => cases h
  | cons a rest ih =>
    obtain ⟨name, content⟩ := a
    cases content with
    | code c₀ =>
      have hcons (c : Code) : (⟨name, .code c⟩ :: rest : List Attribute).filterMap
          Attribute.code? = c :: rest.filterMap Attribute.code? := rfl
      refine ⟨rfl, fun hle => ?_⟩
      rw [hcons, List.length_cons] at hle
      have hnil : rest.filterMap Attribute.code? = [] := List.length_eq_zero_iff.1 (by omega)
      rw [Member.replaceCode, hcons, hnil]
    | _ => exact ih h

/-- A method with new code is the same otherwise. The code takes the place of the first code that
the method had; if it had none, there is an attribute for it now. -/
structure Recoded (q : Pool) (m m' : Member) (c : Code) : Prop where
  access : m'.access = m.access
  name : m'.name = m.name
  descriptor : m'.descriptor = m.descriptor
  code : m'.code? = some c
  single : (m.attributes.filterMap Attribute.code?).length ≤ 1 →
    m'.attributes.filterMap Attribute.code? = [c]
  edit : (∃ c₀, m.code? = some c₀) ∧ m' = m.withCode c ∨ m.code? = none ∧
    ∃ name, q.utf8? name = some codeName ∧
      m' = { m with attributes := m.attributes ++ [⟨name, .code c⟩] }

theorem Recoded.mono {c : Code} (h : q ≤ q') (hm : Recoded q m m' c) : Recoded q' m m' c := by
  refine ⟨hm.access, hm.name, hm.descriptor, hm.code, hm.single, ?_⟩
  rcases hm.edit with hedit | ⟨hnone, name, hname, hedit⟩
  · exact .inl hedit
  · exact .inr ⟨hnone, name, Pool.utf8?_mono h hname, hedit⟩

theorem setCode_eq_ok {c : Code} (hp : p.Bounded) (h : (setCode m c).run p = (.ok m', q)) :
    p.GrownTo q ∧ Recoded q m m' c := by
  unfold setCode at h
  split at h
  · rename_i c' hc
    obtain ⟨rfl, rfl⟩ := run_pure_eq_ok.1 h
    obtain ⟨hcode, hsingle⟩ := firstCode?_replaceCode (c := c) hc
    exact ⟨.refl hp, rfl, rfl, rfl, hcode, hsingle, .inl ⟨⟨c', hc⟩, rfl⟩⟩
  · rename_i hnone
    obtain ⟨name, p₁, h₁, h⟩ := run_bind_eq_ok.1 h
    obtain ⟨rfl, rfl⟩ := run_pure_eq_ok.1 h
    obtain ⟨hg, hname⟩ := Pool.addUtf8_grown hp h₁
    have hno : ∀ a ∈ m.attributes, a.code? = none := List.findSome?_eq_none_iff.1 hnone
    refine ⟨hg, rfl, rfl, rfl, ?_, fun _ => ?_, .inr ⟨hnone, name, hname, rfl⟩⟩
    · rw [Member.code?, Attribute.firstCode?, List.findSome?_append,
        List.findSome?_eq_none_iff.2 hno]
      rfl
    · rw [List.filterMap_append, List.filterMap_eq_nil_iff.2 hno]
      rfl

/-- A method with its new body laid out, in a pool between two given ones. -/
def Laid (className : String) (p q : Pool) (m : Member) (b : Body) (m' : Member) : Prop :=
  ∃ r signature c, p ≤ r ∧ r ≤ q ∧ layOut className signature r b = .ok c ∧ Recoded q m m' c

theorem Laid.isInitializer {b : Body} {r : Pool} (h : Laid className p q m b m') :
    r.isInitializer m' = r.isInitializer m := by
  obtain ⟨_, _, _, -, -, -, hrecoded⟩ := h
  rw [Pool.isInitializer, hrecoded.name, hrecoded.descriptor, Pool.isInitializer]

theorem finishMethod_eq_ok {b : Body} {signature : String} (he : e.Ready lookup)
    (h : finishMethod className m b e = .ok ((m', signature), e')) :
    e.pool.GrownTo e'.pool ∧ e'.Ready lookup ∧ Laid className e.pool e'.pool m b m' := by
  obtain ⟨c, hc, h⟩ := bind_eq_ok.1 h
  obtain ⟨⟨m₁, e₁⟩, hset, h⟩ := bind_eq_ok.1 h
  cases h
  obtain ⟨hrun, hm⟩ := Expander.onPool_eq_ok (lift_eq_ok.1 hset)
  obtain ⟨hg, hrecoded⟩ := setCode_eq_ok he.bounded hrun
  exact ⟨hg, he.grown hg hm, e.pool, _, c, Pool.le_refl _, hg.le, hc, hrecoded⟩

/-- The methods once the new bodies among them have been laid out, with the positions and the names
of those that got one. The first method has the position `n`. -/
inductive Finishes (className : String) (p q : Pool) :
    Nat → List (Member × Option Body) → List Member → List (Nat × String) → Prop
  | nil {n : Nat} : Finishes className p q n [] [] []
  | kept {n : Nat} {m : Member} {edits : List (Member × Option Body)} {ms : List Member}
      {changed : List (Nat × String)} : Finishes className p q (n + 1) edits ms changed →
      Finishes className p q n ((m, none) :: edits) (m :: ms) changed
  | laid {n : Nat} {m m' : Member} {b : Body} {r : Pool} {c : Code}
      {edits : List (Member × Option Body)} {ms : List Member} {changed : List (Nat × String)} :
      p ≤ r → r ≤ q → layOut className (r.signature m) r b = .ok c → Recoded q m m' c →
      Finishes className p q (n + 1) edits ms changed →
      Finishes className p q n ((m, some b) :: edits) (m' :: ms) ((n, r.signature m) :: changed)

theorem Finishes.of_le {p' : Pool} {n : Nat} {edits : List (Member × Option Body)}
    {ms : List Member} {changed : List (Nat × String)} (hp : p' ≤ p)
    (h : Finishes className p q n edits ms changed) :
    Finishes className p' q n edits ms changed := by
  induction h with
  | nil => exact .nil
  | kept _ ih => exact .kept ih
  | laid hle hle' hc hrecoded _ ih => exact .laid (Pool.le_trans hp hle) hle' hc hrecoded ih

theorem finishMethods_finishes {done done' : Finished} {edits : List (Member × Option Body)}
    (he : e.Ready lookup) (h : finishMethods className done e edits = .ok (done', e')) :
    e.pool.GrownTo e'.pool ∧ e'.Ready lookup ∧ ∃ ms changed,
      done'.methods.toList = done.methods.toList ++ ms ∧
      done'.changed.toList = done.changed.toList ++ changed ∧
      Finishes className e.pool e'.pool done.methods.size edits ms changed := by
  induction edits generalizing done e with
  | nil =>
    cases h
    exact ⟨.refl he.bounded, he, [], [], by simp, by simp, .nil⟩
  | cons edit rest ih =>
    obtain ⟨m, body⟩ := edit
    cases body with
    | none =>
      rw [finishMethods] at h
      obtain ⟨hg, hr, ms, changed, hms, hchanged, hrest⟩ := ih he h
      rw [Array.size_push] at hrest
      exact ⟨hg, hr, m :: ms, changed, by simp [hms], hchanged, .kept hrest⟩
    | some b =>
      rw [finishMethods] at h
      split at h
      · cases h
      · rename_i m' signature e₁ hfinish
        obtain ⟨c, hc, hfinish⟩ := bind_eq_ok.1 hfinish
        obtain ⟨⟨m₁, e₂⟩, hset, hfinish⟩ := bind_eq_ok.1 hfinish
        cases hfinish
        obtain ⟨hrun, hm⟩ := Expander.onPool_eq_ok (lift_eq_ok.1 hset)
        obtain ⟨hg₁, hrecoded⟩ := setCode_eq_ok he.bounded hrun
        obtain ⟨hg, hr, ms, changed, hms, hchanged, hrest⟩ := ih (he.grown hg₁ hm) h
        rw [Array.size_push] at hrest
        refine ⟨hg₁.trans hg, hr, _ :: ms, _ :: changed, ?_, ?_, .laid (Pool.le_refl _)
          (hg₁.trans hg).le hc (hrecoded.mono hg.le) (hrest.of_le hg₁.le)⟩
        · simp [hms]
        · simp [hchanged]

/-- Methods stay, or have their new bodies laid out. -/
theorem Finishes.forall₂ {n : Nat} {edits : List (Member × Option Body)} {ms : List Member}
    {changed : List (Nat × String)} (h : Finishes className p q n edits ms changed) :
    List.Forall₂ (fun x m' => (x.2 = none ∧ m' = x.1) ∨
      ∃ b, x.2 = some b ∧ Laid className p q x.1 b m') edits ms := by
  induction h with
  | nil => exact .nil
  | kept _ ih => exact .cons (.inl ⟨rfl, rfl⟩) ih
  | laid hle hle' hc hrecoded _ ih =>
    exact .cons (.inr ⟨_, rfl, _, _, _, hle, hle', hc, hrecoded⟩) ih

/-- Only methods with new bodies are told of. -/
theorem Finishes.edit_of_mem {n : Nat} {edits : List (Member × Option Body)} {ms : List Member}
    {changed : List (Nat × String)} (h : Finishes className p q n edits ms changed)
    {x : Nat × String} (hx : x ∈ changed) :
    ∃ j m b, x.1 = n + j ∧ edits[j]? = some (m, some b) := by
  have hlater {n : Nat} {edit : Member × Option Body} {edits : List (Member × Option Body)}
      (hx : ∃ j m b, x.1 = n + 1 + j ∧ edits[j]? = some (m, some b)) :
      ∃ j m b, x.1 = n + j ∧ (edit :: edits)[j]? = some (m, some b) := by
    obtain ⟨j, m, b, hj, hget⟩ := hx
    exact ⟨j + 1, m, b, by omega, by simpa using hget⟩
  induction h with
  | nil => cases hx
  | kept _ ih => exact hlater (ih hx)
  | laid _ _ _ _ _ ih =>
    rcases List.mem_cons.1 hx with rfl | hx
    · exact ⟨0, _, _, rfl, rfl⟩
    · exact hlater (ih hx)

/-- The methods that are laid out, and those that stay. Only positions of the former are told of. -/
theorem finishMethods_eq_ok {done done' : Finished} {edits : List (Member × Option Body)}
    (he : e.Ready lookup) (h : finishMethods className done e edits = .ok (done', e')) :
    e.pool.GrownTo e'.pool ∧ e'.Ready lookup ∧ ∃ ms,
      done'.methods.toList = done.methods.toList ++ ms ∧
      List.Forall₂ (fun x m' => (x.2 = none ∧ m' = x.1) ∨
        ∃ b, x.2 = some b ∧ Laid className e.pool e'.pool x.1 b m') edits ms ∧
      ∀ x ∈ done'.changed.toList, x ∈ done.changed.toList ∨
        ∃ j m b, x.1 = done.methods.size + j ∧ edits[j]? = some (m, some b) := by
  obtain ⟨hg, hr, ms, changed, hms, hchanged, hfinishes⟩ := finishMethods_finishes he h
  refine ⟨hg, hr, ms, hms, hfinishes.forall₂, fun x hx => ?_⟩
  rw [hchanged, List.mem_append] at hx
  exact hx.imp_right hfinishes.edit_of_mem

end Expansion

end ClassTemplates
