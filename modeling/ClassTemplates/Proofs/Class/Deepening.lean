import ClassTemplates.Proofs.Class.Approval
import ClassTemplates.Proofs.Class.Changes
import ClassTemplates.Proofs.Depth.Peaks
import ClassTemplates.Proofs.Expansion.Eligible

/-!
# How deep the stacks of an expanded class are

The code of a method that changed declares the deepest of three things: what it declared before,
four slots above the stack in front of each load that is replaced and that control reaches, and four
slots if assignments have been put in front. Which loads these are can be read off the class. A type
initializer that the class did not have declares four slots.

## Main definitions

- `Body.ExpandsAt` — how deep the stack is in front of the loads that are replaced
- `ClassFile.Fronts` — the method that assignments are put in front of

## Main results

- `Expansion.isGreatest_of_layOut` — what an edit declares once it is laid out
- `Expansion.Run.FrontAt.ne_nil_iff` — which methods assignments are put in front of
- `ClassFile.maxStack_of_expand` — what the methods of an expanded class declare
-/

namespace ClassTemplates

/-- Control reaches a load that has to be expanded, with that depth in front of it. -/
def Body.ExpandsAt (catalog : Catalog) (lookup : LookupMethod) (p : Pool) (b : Body)
    (known : List (Option UInt16)) (d : UInt16) : Prop :=
  ∃ i insn text, b.insns[i]? = some insn ∧
    Expander.eligible? catalog lookup p insn (b.insns.drop (i + 1)) = some text ∧
    known[i]? = some (some d)

/-- Assignments have to be put in front of the method: it is a type initializer, and constants of
the class have to be deferred. -/
def ClassFile.Fronts (catalog : Catalog) (cls : ClassFile) (m : Member) : Prop :=
  cls.pool.isInitializer m = true ∧
    ∃ f ∈ cls.fields, ∃ text, f.HoldsTemplate catalog cls.pool text

/-! ### Loads that are replaced -/

section

variable {catalog : Catalog} {lookup : LookupMethod} {p : Pool} {b : Body} {limit d : UInt16}
  {reached : Nat → UInt16 → Prop} {e e' : Expander} {xs : List Splice} {x : Splice} {k : Nat}
  {known : List (Option UInt16)}

/-- A load that is reached is replaced if it is eligible in the pool in which its body has depths.
-/
theorem Expander.Expands.code_ne_none_iff (h : Expands catalog lookup e xs e')
    (he : e.Ready lookup) (hflows : b.Flows p limit reached) (hp : p.Closed) (hle : p ≤ e.pool)
    (hbefore : Splice.before xs = b.insns) (hr : b.Reaches k) (hk : xs[k]? = some x) :
    x.code ≠ none ↔
      ∃ text, eligible? catalog lookup p x.insn (b.insns.drop (k + 1)) = some text := by
  obtain ⟨r, hle', -, hx⟩ := h.splice_of_getElem? he hk
  have hinsn : b.insns[k]? = some x.insn := by
    rw [← hbefore, Splice.getElem?_before, hk]
    rfl
  rw [← Splice.drop_before, hbefore,
    hflows.eligible?_eq hp (Pool.le_trans hle hle') hr hinsn] at hx
  cases htext : eligible? catalog lookup p x.insn (b.insns.drop (k + 1)) with
  | none =>
    rw [htext] at hx
    simp [show x.code = none from hx]
  | some text =>
    rw [htext] at hx
    obtain ⟨code, hcode, -⟩ := hx
    simp [hcode]

theorem Expander.Expands.expandsAt_iff (h : Expands catalog lookup e xs e')
    (he : e.Ready lookup) (hflows : b.Flows p limit fun i d => known[i]? = some (some d))
    (hp : p.Closed) (hle : p ≤ e.pool) (hbefore : Splice.before xs = b.insns)
    (hreaches : ∀ i d, known[i]? = some (some d) → b.Reaches i) :
    (∃ (k : Nat) (x : Splice), xs[k]? = some x ∧ x.code ≠ none ∧ known[k]? = some (some d)) ↔
      b.ExpandsAt catalog lookup p known d := by
  constructor
  · rintro ⟨k, x, hk, hc, hd⟩
    obtain ⟨text, htext⟩ :=
      (h.code_ne_none_iff he hflows hp hle hbefore (hreaches k d hd) hk).1 hc
    refine ⟨k, x.insn, text, ?_, htext, hd⟩
    rw [← hbefore, Splice.getElem?_before, hk]
    rfl
  · rintro ⟨k, insn, text, hinsn, htext, hd⟩
    rw [← hbefore, Splice.getElem?_before, Option.map_eq_some_iff] at hinsn
    obtain ⟨x, hk, rfl⟩ := hinsn
    exact ⟨k, x, hk, (h.code_ne_none_iff he hflows hp hle hbefore (hreaches k d hd) hk).2
      ⟨text, htext⟩, hd⟩

end

theorem Assigns.ne_nil {catalog : Catalog} {lookup : LookupMethod} {owner : String} {p : Pool}
    {cs : List DeferredConstant} {code : List Insn} (h : Assigns catalog lookup owner p cs code)
    (hcs : cs ≠ []) : code ≠ [] := by
  cases h with
  | nil => exact absurd rfl hcs
  | cons => simp

/-! ### Classes that the checks accept -/

namespace ClassFile

variable {cls : ClassFile} {m : Member} {c : Code}

/-- The body of code that the checks accept has depths, which keep to what the code declares. -/
theorem exists_flows (h : cls.verify = .ok ()) (hm : m ∈ cls.methods) (hc : m.code? = some c) :
    ∃ b depths known, Body.ofCode c = .ok b ∧ b.depths cls.pool = .ok (depths, known) ∧
      b.Flows cls.pool c.maxStack (fun i d => known[i]? = some (some d)) ∧
      ∀ i d, known[i]? = some (some d) → b.Reaches i := by
  obtain ⟨-, -, d, -, hcheck⟩ := checkCode_of_verify h hm hc
  obtain ⟨b, hb, -, hflows⟩ := checkCode_eq_ok.1 hcheck
  obtain ⟨depths, hdepths, hle⟩ := Body.analyze_eq_ok.2 hflows
  obtain ⟨⟨_, known⟩, hout, rfl⟩ := map_eq_ok.1 hdepths
  obtain ⟨depth, -, hreport⟩ := Body.exists_levels hout
  exact ⟨b, _, known, hb, hout, (Body.flows_of_depths hout).mono_limit hle,
    fun i d hd => ((hreport.known_iff i d).1 hd).1⟩

end ClassFile

namespace Expansion

variable {catalog : Catalog} {lookup : LookupMethod} {className owner signature : String}
  {cls cls' : ClassFile} {summary : ExpansionSummary} {p q r : Pool} {m m' : Member} {b : Body}
  {c c' : Code} {decoded : List (Nat × Insn)} {pre : List Insn} {xs : List Splice}
  {cs : List DeferredConstant} {e e' : Expander} {reached : Nat → UInt16 → Prop} {k : Nat}

/-- What an edit declares once it is laid out. -/
theorem isGreatest_of_layOut (h : b.EditOf c decoded pre xs)
    (ha : Assigns catalog lookup owner q cs pre) (hcs : ∀ c ∈ cs, catalog.bindsAny c.text = true)
    (hx : Expander.Expands catalog lookup e xs e') (he : e.Ready lookup) (hp : p ≤ e.pool)
    (hq : e'.pool ≤ q) (hflows : (Body.decodedAs c decoded).Flows p c.maxStack reached)
    (hreaches : ∀ k d, reached k d → (Body.decodedAs c decoded).Reaches k)
    (hdepth : ∀ k d, reached k d → d ≤ 65531) (hlayout : layOut className signature q b = .ok c') :
    IsGreatest (stackDemand c.maxStack.toNat (pre ≠ [])
        fun d => ∃ k x, xs[k]? = some x ∧ x.code ≠ none ∧ reached k d) c'.maxStack.toNat := by
  obtain ⟨depths, hdepths, hcode⟩ := layOut_eq_ok.1 hlayout
  obtain ⟨⟨_, known⟩, hout, rfl⟩ := map_eq_ok.1 hdepths
  rw [(h.withoutCarried.relocates hcode).1]
  exact h.isGreatest_stackDemand ha hcs hx he hp hq hflows hreaches hdepth hout

/-! ### The assignments -/

theorem Run.cs_ne_nil_iff (s : Run catalog lookup cls className cls' summary) :
    s.cs ≠ [] ↔ ∃ f ∈ cls.fields, ∃ text, f.HoldsTemplate catalog cls.pool text := by
  have hlength := (deferFields_spec s.defers).2.length_eq
  rw [← List.length_pos_iff, ← hlength, List.length_pos_iff_exists_mem]
  simp only [List.mem_filter, isSome_templateOf?_iff]

theorem Run.bindsAny_of_mem (s : Run catalog lookup cls className cls' summary) :
    ∀ c ∈ s.cs, catalog.bindsAny c.text = true := by
  intro c hc
  obtain ⟨f, -, hf⟩ := exists_left_of_forall₂ (deferFields_spec s.defers).2 hc
  exact hf.text.bound

/-- Elements that are counted at most once stand in one place. -/
theorem eq_of_countP_le_one {α : Type} {P : α → Bool} {ys : List α} {i j : Nat} {x y : α}
    (h : ys.countP P ≤ 1) (hi : ys[i]? = some x) (hj : ys[j]? = some y) (hx : P x = true)
    (hy : P y = true) : i = j := by
  by_contra hne
  wlog hlt : i < j generalizing i j x y
  · exact this hj hi hy hx (Ne.symm hne) (by omega)
  -- otherwise one of them is counted in front of the other
  have hfront : 0 < (ys.take j).countP P := by
    refine List.countP_pos_iff.2 ⟨x, List.mem_of_getElem? (i := i) ?_, hx⟩
    rw [List.getElem?_take_of_lt hlt, hi]
  have hback : 0 < (ys.drop j).countP P := by
    refine List.countP_pos_iff.2 ⟨y, List.mem_of_getElem? (i := 0) ?_, hy⟩
    rw [List.getElem?_drop, Nat.add_zero, hj]
  rw [← List.take_append_drop j ys, List.countP_append] at h
  omega

/-- Of the methods of a class that the checks accept, the initializer is found. -/
theorem Run.state_eq_found_iff (s : Run catalog lookup cls className cls' summary)
    (he : (Expander.ofPool cls.pool).Ready lookup) (hverify : cls.verify = .ok ())
    (hk : cls.methods[k]? = some m) :
    s.progress.initializer.state = .found k ↔ cls.pool.isInitializer m = true := by
  have hsurveyed := s.surveyed he
  obtain ⟨houtline, hchecks⟩ := ClassFile.verify_eq_ok.1 hverify
  have hfound {j : Nat} (hj : s.progress.initializer.state = .found j) :
      ∃ m, cls.methods[j]? = some m ∧ cls.pool.isInitializer m = true := by
    obtain ⟨m, body, r, hget, hle, -, hinit, -⟩ := hsurveyed.found j hj
    have hm : cls.methods[j]? = some m := by
      rw [← hsurveyed.methods, List.getElem?_map, hget]
      rfl
    obtain ⟨hname, d, hd, -⟩ :=
      ClassFile.checkMethod_eq_ok.1 (hchecks m (List.mem_of_getElem? hm))
    rw [Pool.isInitializer_eq hle hname ⟨d, hd⟩] at hinit
    exact ⟨m, hm, hinit⟩
  constructor
  · intro hj
    obtain ⟨m', hm', hinit⟩ := hfound hj
    rw [hk] at hm'
    cases hm'
    exact hinit
  · intro hinit
    rcases hsurveyed.waiting with hstate | ⟨j, hj⟩
    · rw [s.not_isInitializer he hstate (List.mem_of_getElem? hk)] at hinit
      cases hinit
    · obtain ⟨m', hm', hinit'⟩ := hfound hj
      -- there is one initializer at most
      obtain ⟨-, -, -, hcount⟩ := ClassFile.verifyOutline_eq_ok.1 houtline
      rw [eq_of_countP_le_one hcount hk hm' hinit hinit', hj]

/-! ### The methods of an expanded class -/

/-- A method that changed has a new body that has been laid out. -/
theorem Run.exists_laid (s : Run catalog lookup cls className cls' summary)
    (he : (Expander.ofPool cls.pool).Ready lookup) (hk : cls.methods[k]? = some m)
    (hk' : cls'.methods[k]? = some m') (hne : m' ≠ m) :
    ∃ pre b, Edited catalog lookup cls.pool s.injected.pool m pre b ∧
      Laid className s.injected.pool cls'.pool m b m' ∧ s.FrontAt k pre := by
  obtain ⟨body, hbody, hedit⟩ := s.exists_edit_front he hk
  obtain ⟨m₁, hget, hcases⟩ := (s.finished he).2.getElem? hbody
  cases hk'.symm.trans hget
  obtain ⟨-, b, rfl, hlaid⟩ := hcases.resolve_left fun h => hne h.2.1
  obtain ⟨pre, hedited, hfront⟩ := hedit b rfl
  exact ⟨pre, b, hedited, hlaid, hfront⟩

/-- What is put in front of a body are assignments of texts with bound tokens, if any. -/
theorem Run.FrontAt.exists_assigns {s : Run catalog lookup cls className cls' summary}
    (h : s.FrontAt k pre) : ∃ cs, Assigns catalog lookup className s.injected.pool cs pre ∧
      ∀ c ∈ cs, catalog.bindsAny c.text = true := by
  cases h with
  | nothing => exact ⟨[], .nil, fun c hc => (List.not_mem_nil hc).elim⟩
  | assignments _ _ ha => exact ⟨s.cs, ha, s.bindsAny_of_mem⟩

/-- In a class that the checks accept, something is put in front of the type initializer if there
are constants to defer, and of no other method. -/
theorem Run.FrontAt.ne_nil_iff {s : Run catalog lookup cls className cls' summary}
    (h : s.FrontAt k pre) (he : (Expander.ofPool cls.pool).Ready lookup)
    (hverify : cls.verify = .ok ()) (hk : cls.methods[k]? = some m) :
    pre ≠ [] ↔ cls.Fronts catalog m := by
  rw [ClassFile.Fronts, ← s.state_eq_found_iff he hverify hk, ← s.cs_ne_nil_iff]
  cases h with
  | nothing hnone =>
    refine ⟨fun h => absurd rfl h, ?_⟩
    rintro ⟨hstate, hcs⟩
    exact absurd hstate (hnone.resolve_left hcs)
  | assignments hcs hstate ha => exact ⟨fun _ => ⟨hstate, hcs⟩, fun _ => ha.ne_nil hcs⟩

/-- A method that changed declares what is demanded of it. -/
theorem Run.maxStack_of_ne (s : Run catalog lookup cls className cls' summary)
    (he : (Expander.ofPool cls.pool).Ready lookup) (hverify : cls.verify = .ok ())
    (hdepth : ∀ c, m.code? = some c → ∀ b, Body.ofCode c = .ok b → ∀ depths known,
      b.depths cls.pool = .ok (depths, known) → ∀ d, some d ∈ known → d ≤ 65531)
    (hk : cls.methods[k]? = some m) (hk' : cls'.methods[k]? = some m') (hne : m' ≠ m) :
    ∃ c c' b depths known, m.code? = some c ∧ m'.code? = some c' ∧ Body.ofCode c = .ok b ∧
      b.depths cls.pool = .ok (depths, known) ∧
      IsGreatest (stackDemand c.maxStack.toNat (cls.Fronts catalog m)
        (b.ExpandsAt catalog lookup cls.pool known)) c'.maxStack.toNat := by
  obtain ⟨hpool, -⟩ := ClassFile.verifyOutline_eq_ok.1 (ClassFile.verify_eq_ok.1 hverify).1
  have hclosed := ClassFile.closed_of_poolFault? hpool
  obtain ⟨pre, b, @⟨c, decoded, xs, e₁, e₂, hc, hedit, hready, hp, hq, hx⟩, hlaid, hfront⟩ :=
    s.exists_laid he hk hk' hne
  obtain ⟨r, signature, c', hle, -, hlayout, hrecoded⟩ := hlaid
  obtain ⟨cs, ha, hcs⟩ := hfront.exists_assigns
  obtain ⟨old, depths, known, hold, hdepths, hflows, hreaches⟩ :=
    ClassFile.exists_flows hverify (List.mem_of_getElem? hk) hc
  cases hold.symm.trans (Body.ofCode_eq_ok.2 ⟨_, hedit.reads, hedit.places, rfl⟩)
  have hgreatest := isGreatest_of_layOut hedit (ha.mono hle) hcs hx hready hp
    (Pool.le_trans hq hle) hflows hreaches
    (fun k d hd => hdepth c hc _ hold _ _ hdepths d (List.mem_of_getElem? hd)) hlayout
  have hloads : (fun d => ∃ (k : Nat) (x : Splice), _) = _ := funext fun d => propext
    (hx.expandsAt_iff hready hflows hclosed hp hedit.before hreaches (d := d))
  rw [hloads, propext (hfront.ne_nil_iff he hverify hk)] at hgreatest
  exact ⟨c, c', _, depths, known, hc, hrecoded.code, hold, hdepths, hgreatest⟩

/-- A method that the class did not have is an initializer of assignments that has been laid out. -/
theorem Run.exists_laid_new (s : Run catalog lookup cls className cls' summary)
    (he : (Expander.ofPool cls.pool).Ready lookup) (hk : cls.methods.length ≤ k)
    (hm : cls'.methods[k]? = some m') :
    ∃ m pre, s.cs ≠ [] ∧ Assigns catalog lookup className s.injected.pool s.cs pre ∧
      Laid className s.injected.pool cls'.pool m
        (Body.ofInsns 0 (pre ++ [.op Opcode.voidReturn])) m' := by
  obtain ⟨-, hfinishes⟩ := s.finished he
  have hlength := congrArg List.length (s.surveyed he).methods
  rw [List.length_map] at hlength
  have hlt := (List.getElem?_eq_some_iff.1 hm).1
  rw [hfinishes.length] at hlt
  rcases s.put he with ⟨-, hsame, -⟩ | ⟨hcs, pre, j, ha, hput⟩
  · rw [hsame] at hlt
    omega
  · generalize s.progress.initializer.state = state at hput
    generalize s.edits.toList = edits' at hput hfinishes hlt
    cases hput with
    | front _ _ =>
      rw [List.length_set] at hlt
      omega
    | @new m hnew =>
      rw [List.length_append, List.length_singleton] at hlt
      obtain rfl : k = s.progress.edits.toList.length := by omega
      obtain ⟨m₁, hm₁, hlaid⟩ := hfinishes.exists_laid List.getElem?_concat_length
      cases hm.symm.trans hm₁
      exact ⟨m, pre, hcs, ha, hlaid⟩

/-- An initializer of assignments and a return declares four slots. -/
theorem maxStack_of_ofInsns (ha : Assigns catalog lookup owner q cs pre) (hcs : cs ≠ [])
    (hbound : ∀ c ∈ cs, catalog.bindsAny c.text = true) (he : e.Ready lookup) (hq : e.pool ≤ q)
    (hlayout : layOut className signature q (Body.ofInsns 0 (pre ++ [.op Opcode.voidReturn])) =
      .ok c') : c'.maxStack = 4 := by
  have hentry : ∀ (k : Nat) (d : UInt16), k = 0 ∧ d = 0 →
      (Body.decodedAs bareCode [(0, .op Opcode.voidReturn)]).Reaches k := by
    rintro k d ⟨rfl, -⟩
    exact .entry
  have hempty : ∀ (k : Nat) (d : UInt16), k = 0 ∧ d = 0 → d ≤ 65531 := by
    rintro k d ⟨-, rfl⟩
    exact UInt16.zero_le
  obtain ⟨hmem, hupper⟩ := isGreatest_of_layOut editOf_ofInsns ha hbound (.cons rfl (.nil e)) he
    (Pool.le_refl _) hq flows_bareCode hentry hempty hlayout
  have hfour : 4 ≤ c'.maxStack.toNat := hupper (.inr (.inl ⟨ha.ne_nil hcs, rfl⟩))
  -- the return behind the assignments demands nothing
  rcases hmem with hzero | ⟨-, hvalue⟩ | ⟨d, ⟨k, x, hx, hc, -⟩, -⟩
  · rw [hzero] at hfour
    exact absurd hfour (by decide)
  · exact UInt16.toNat_inj.1 hvalue
  · obtain rfl := List.mem_singleton.1 (List.mem_of_getElem? hx)
    exact absurd rfl hc

end Expansion

namespace ClassFile

open Expansion

variable {catalog : Catalog} {lookup : LookupMethod} {cls cls' : ClassFile}
  {summary : ExpansionSummary}

/-- Of a class that the checks accept, with depths that leave room for four slots more, every method
that an expansion changes declares the greatest of these: the depth that it declared, four slots
above the depth in front of each load that control reaches and that has to be expanded, and four
slots if it is the type initializer that assignments are put in front of. A type initializer that
the class did not have declares four slots. -/
theorem maxStack_of_expand (hverify : cls.verify = .ok ())
    (hdepth : ∀ m ∈ cls.methods, ∀ c, m.code? = some c → ∀ b, Body.ofCode c = .ok b →
      ∀ depths known, b.depths cls.pool = .ok (depths, known) → ∀ d, some d ∈ known → d ≤ 65531)
    (h : cls.expand catalog lookup = .ok (.expanded cls' summary)) :
    (∀ (k : Nat) (m m' : Member), cls.methods[k]? = some m → cls'.methods[k]? = some m' → m' ≠ m →
      ∃ c c' b depths known, m.code? = some c ∧ m'.code? = some c' ∧ Body.ofCode c = .ok b ∧
        b.depths cls.pool = .ok (depths, known) ∧
        IsGreatest (stackDemand c.maxStack.toNat (cls.Fronts catalog m)
          (b.ExpandsAt catalog lookup cls.pool known)) c'.maxStack.toNat) ∧
    ∀ (k : Nat) (m' : Member), cls.methods.length ≤ k → cls'.methods[k]? = some m' →
      cls.AddedInitializer cls' m' ∧ ∃ c', m'.code? = some c' ∧ c'.maxStack = 4 := by
  obtain ⟨he, className, -, ⟨s⟩⟩ := nonempty_run h
  refine ⟨fun k m m' hk hk' hne => ?_, fun k m' hk hm => ?_⟩
  · exact s.maxStack_of_ne he hverify (hdepth m (List.mem_of_getElem? hk)) hk hk' hne
  · obtain ⟨m, pre, hcs, ha, r, signature, c', hle, -, hlayout, hrecoded⟩ :=
      s.exists_laid_new he hk hm
    refine ⟨?_, c', hrecoded.code, maxStack_of_ofInsns (ha.mono hle) hcs s.bindsAny_of_mem
      (s.prepared he).ready hle hlayout⟩
    obtain ⟨old, new, hmethods, hold, hnew⟩ := s.exists_methods he
    rw [hmethods, List.getElem?_append_right (by omega)] at hm
    rcases hnew with rfl | ⟨m, rfl, -, hadded⟩
    · cases hm
    · obtain rfl := List.mem_singleton.1 (List.mem_of_getElem? hm)
      exact hadded

/-- The load of the initializer has a number below it, and so its expansion takes five slots. That
is more than the code declared, and more than the assignments in front take. -/
theorem maxStack_of_expand_loading :
    ∃ cls' c summary, loadingClass.verify = .ok () ∧
      loadingClass.expand loopCatalog loopLookup = .ok (.expanded cls' summary) ∧
      cls'.methods = [loadingInitializer.withCode c] ∧
      loadingClass.Fronts loopCatalog loadingInitializer ∧
      loadingCode.maxStack = 2 ∧ c.maxStack = 5 := by
  obtain ⟨cls', c, summary, h, hmethods, hlength, -⟩ := exists_expand_loadingClass
  have hfronts : loadingClass.Fronts loopCatalog loadingInitializer :=
    ⟨by decide +kernel, loopField, List.mem_cons_self, _,
      templateOf?_eq_some.1 templateOf?_loopField⟩
  refine ⟨cls', c, summary, loadingClass_expandable.verified, h, hmethods, hfronts, rfl, ?_⟩
  have hdepth : ∀ m ∈ loadingClass.methods, ∀ c, m.code? = some c → ∀ b, Body.ofCode c = .ok b →
      ∀ depths known, b.depths loadingClass.pool = .ok (depths, known) →
        ∀ d, some d ∈ known → d ≤ 65531 := by
    intro m hm c hc b hb depths known hdepths d hd
    obtain ⟨i, hi⟩ := List.mem_iff_getElem?.1 hd
    exact UInt16.le_trans ((Body.flows_of_depths hdepths).respects.le_limit hi)
      (loadingClass_expandable.depth m hm c hc b hb depths (map_eq_ok.2 ⟨_, hdepths, rfl⟩))
  have hne : loadingInitializer.withCode c ≠ loadingInitializer := by
    intro heq
    have hcode : (loadingInitializer.withCode c).code? = loadingInitializer.code? := by rw [heq]
    cases hcode
    cases hlength
  have hget : cls'.methods[0]? = some (loadingInitializer.withCode c) := by
    rw [hmethods]
    rfl
  obtain ⟨_, _, b, depths, known, ⟨⟩, ⟨⟩, hb, hdepths, hmem, hupper⟩ :=
    (maxStack_of_expand loadingClass_expandable.verified hdepth h).1 0 loadingInitializer _ rfl
      hget hne
  cases ofCode_loadingCode.symm.trans hb
  have hinsns : (Body.decodedAs loadingCode loadingInsns).insns =
      [.op 0x03, .ldc 8, .op 0x58, .op 0xb1] := by decide +kernel
  have hone : known[1]? = some (some 1) := by
    have hflows := Body.flows_of_depths hdepths
    obtain ⟨insn, deeper, next, hinsn, hstep, -, hnext⟩ := hflows.respects.step 0 0 hflows.entry
    cases hinsn
    cases hstep
    exact hnext _ List.mem_cons_self
  have hexpands : (Body.decodedAs loadingCode loadingInsns).ExpandsAt loopCatalog loopLookup
      loadingClass.pool known 1 :=
    ⟨1, .ldc 8, "\x60BuildConfig#m#v\x60", rfl, by decide +kernel, hone⟩
  have hfive : 5 ≤ c.maxStack.toNat := hupper (.inr (.inr ⟨1, hexpands, rfl⟩))
  rcases hmem with htwo | ⟨-, hfour⟩ | ⟨d, ⟨i, insn, text, hinsn, htext, hd⟩, hvalue⟩
  · rw [htwo] at hfive
    exact absurd hfive (by decide)
  · rw [hfour] at hfive
    exact absurd hfive (by decide)
  · -- the code has one load only
    obtain ⟨j, rfl, -⟩ := Expander.eligible?_eq_some.1 htext
    obtain rfl : i = 1 := by
      rw [hinsns] at hinsn
      match i, hinsn with
      | 1, _ => rfl
      | _ + 4, hinsn => cases hinsn
    cases hone.symm.trans hd
    exact UInt16.toNat_inj.1 hvalue

end ClassFile

end ClassTemplates
