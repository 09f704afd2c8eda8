import ClassTemplates.Proofs.Body.Control
import ClassTemplates.Proofs.Class.Changes
import ClassTemplates.Proofs.Machine.Assigning
import ClassTemplates.Proofs.Machine.Simulation

/-!
# Deferred constants are assigned first

A class from which constants are deferred has one type initializer in the end. Its body starts with
the assignments of the constants, in the order of the fields, and goes on with the body of the
initializer that the class had, or with a return. Nothing in the code points to where the
assignments stand, so they run once, before everything else.

## Main definitions

- `Expansion.Continues` — what stands behind the assignments

## Main results

- `Expansion.Run.exists_front` — the type initializer of an expanded class
- `ClassFile.assigns_first_of_expand` — its code, and the paths through it
-/

namespace ClassTemplates

namespace Expansion

/-- What stands behind the assignments in the type initializer at a position, with the handlers that
are left: the body of the initializer that the class has there, with its loads expanded and its
labels renamed apart, or a return in an initializer that the class does not have. -/
inductive Continues (catalog : Catalog) (lookup : LookupMethod) (cls : ClassFile) (q : Pool)
    (k : Nat) : List Insn → List (Handler Label) → Prop
  | kept {m : Member} {c : Code} {b : Body} {xs : List Splice} {f : Label → Label} :
      cls.methods[k]? = some m → cls.pool.isInitializer m = true → m.code? = some c →
      Body.ofCode c = .ok b → Splice.before xs = b.insns →
      Machine.Replaces lookup q xs (Expander.planned catalog lookup cls.pool b.insns) →
      (∀ l l', .label l ∈ Splice.after xs → .label l' ∈ Splice.after xs → f l = f l' → l = l') →
      Continues catalog lookup cls q k ((Splice.after xs).map (Insn.relabel f))
        (b.handlers.map (Handler.relabel f))
  | bare : k = cls.methods.length → (∀ m ∈ cls.methods, cls.pool.isInitializer m = false) →
      Continues catalog lookup cls q k [.op Opcode.voidReturn] []

variable {catalog : Catalog} {lookup : LookupMethod} {className : String} {cls cls' : ClassFile}
  {summary : ExpansionSummary} {p q r : Pool} {m m' : Member} {b : Body} {pre : List Insn}
  {c : Code} {decoded : List (Nat × Insn)} {xs : List Splice} {k : Nat}

/-! ### The code of an edit -/

/-- The code that an edit has been laid out as, taken apart: the instructions in front stand in
front of it, and the offsets that it mentions lie behind them. -/
structure Fronted (c : Code) (pre rest : List Insn) (handlers : List (Handler Label)) : Prop where
  exists_body : ∃ b, Body.ofCode c = .ok b ∧ b.insns = pre ++ rest ∧ b.handlers = handlers
  exists_decoded : ∃ behind, Insn.decode c.bytes = .ok (Layout.located 0 pre ++ behind) ∧
    ∀ o ∈ c.references (Layout.located 0 pre ++ behind), Layout.stop 0 pre ≤ o

theorem exists_fronted (h : b.EditOf c decoded pre xs) (hpre : ∀ i ∈ pre, i.assigning) {c' : Code}
    {signature : String} (hc : layOut className signature p b = .ok c') :
    ∃ f, (∀ l l', .label l ∈ b.insns → .label l' ∈ b.insns → f l = f l' → l = l') ∧
      Fronted c' pre ((Splice.after xs).map (Insn.relabel f))
        (b.handlers.map (Handler.relabel f)) := by
  obtain ⟨b', f, hb', hf, -⟩ := exists_renames_of_layOut h hpre hc
  obtain ⟨summary, -, hcode⟩ := layOut_eq_ok.1 hc
  have hdescribes := (h.withoutCarried.readable hpre).describes hcode
  have hlabels := (h.withoutCarried.readable hpre).labels_relocate hcode
  obtain ⟨zs, -, -, -, -, hnamed⟩ := h.withoutCarried.exists_insns hpre
  have hfront (g : Label → Label) : pre.map (Insn.relabel g) = pre := by
    rw [List.map_congr_left fun i hi => Insn.relabel_of_assigning (hpre i hi), List.map_id']
  have hinsns : b'.insns = pre ++ (Splice.after xs).map (Insn.relabel f) := by
    rw [hf.insns, h.insns, List.map_append, hfront]
  have hlocated (g : Label → Label) :
      Layout.located 0 (b.withoutCarried.relocate g).insns = Layout.located 0 pre ++
        Layout.located (Layout.stop 0 pre) ((Splice.after xs).map (Insn.relabel g)) := by
    show Layout.located 0 (b.insns.map (Insn.relabel g)) = _
    rw [h.insns, List.map_append, hfront, Layout.located_append]
  have hreads := hdescribes.reads
  have hreferences := hdescribes.references
  rw [hlocated] at hreads hreferences
  refine ⟨f, hf.injective, ⟨b', hb', hinsns, hf.handlers⟩, _, Insn.decode_eq_ok.2 hreads,
    fun o ho => ?_⟩
  rw [hreferences, hlabels, List.map_map] at ho
  obtain ⟨l, hl, rfl⟩ := List.mem_map.1 ho
  rw [Function.comp_apply, (hnamed l hl).2]
  exact Splice.le_position

/-- What is behind the assignments in front of an initializer is what the class had there. -/
theorem Edited.exists_continues (h : Edited catalog lookup cls.pool r m pre b) (hr : r ≤ q)
    (hcls : cls.Closed) (hm : cls.methods[k]? = some m) (hinit : cls.pool.isInitializer m = true)
    (hpre : ∀ i ∈ pre, i.assigning) {c' : Code} {signature : String}
    (hc' : layOut className signature p b = .ok c') :
    ∃ rest handlers, Fronted c' pre rest handlers ∧
      Continues catalog lookup cls q k rest handlers := by
  obtain @⟨c, decoded, xs, e₁, e₂, hc, hedit, he₁, hle, hle', hx⟩ := h
  have hkept := kept_of_closed hcls (List.mem_of_getElem? hm)
  obtain ⟨f, hf, hfronted⟩ := exists_fronted hedit hpre hc'
  have hbody := Body.ofCode_eq_ok.2 ⟨decoded, hedit.reads, hedit.places, rfl⟩
  have hinside := inside_before hedit
    (hkept.insns c hc decoded (Insn.decode_eq_ok.2 hedit.reads))
  have hreplaces := hx.replaces_of_le he₁ hcls.pool hle (Pool.le_trans hle' hr) hinside
  rw [hedit.before] at hreplaces
  refine ⟨_, _, hfronted, ?_⟩
  rw [hedit.handlers]
  refine .kept hm hinit hc hbody hedit.before hreplaces fun l l' hl hl' => hf l l' ?_ ?_
  · rw [hedit.insns]
    exact List.mem_append_right _ hl
  · rw [hedit.insns]
    exact List.mem_append_right _ hl'

/-! ### The type initializer -/

/-- The initializer that was found in a class is one of its methods. -/
theorem Run.initializer_of_found (s : Run catalog lookup cls className cls' summary)
    (hcls : cls.Closed) (he : (Expander.ofPool cls.pool).Ready lookup)
    (hstate : s.progress.initializer.state = .found k) {body : Option Body}
    (hk : s.progress.edits.toList[k]? = some (m, body)) :
    cls.methods[k]? = some m ∧ cls.pool.isInitializer m = true := by
  have hsurveyed := s.surveyed he
  obtain ⟨m₁, body₁, r, hk₁, hr₁, -, hinit, -⟩ := hsurveyed.found k hstate
  cases hk.symm.trans hk₁
  have hm : cls.methods[k]? = some m := by
    rw [← hsurveyed.methods, List.getElem?_map, hk]
    rfl
  have hkept := kept_of_closed hcls (List.mem_of_getElem? hm)
  exact ⟨hm, (isInitializer_eq_of_kept hr₁ hkept).symm.trans hinit⟩

/-- The type initializer of an expanded class assigns the deferred constants, and then goes on with
what the class had. -/
theorem Run.exists_front (s : Run catalog lookup cls className cls' summary) (hcls : cls.Closed)
    (he : (Expander.ofPool cls.pool).Ready lookup) (hcs : s.cs ≠ []) :
    ∃ k m' c pre rest handlers, cls'.methods[k]? = some m' ∧
      cls'.pool.isInitializer m' = true ∧ m'.code? = some c ∧
      Assigns catalog lookup className cls'.pool s.cs pre ∧ Fronted c pre rest handlers ∧
      Continues catalog lookup cls cls'.pool k rest handlers := by
  have hprepared := s.prepared he
  obtain ⟨hg, hfinishes⟩ := s.finished he
  have hpool := (hprepared.grown.trans hg).le
  rcases s.put he with ⟨hnil, -⟩ | ⟨-, code, k, ha, hput⟩
  · exact absurd hnil hcs
  have hpre := ha.assigning
  have hassigns := ha.mono hg.le
  generalize hstate : s.progress.initializer.state = state at hput
  generalize s.edits.toList = edits' at hput hfinishes
  -- the assignments stand in front of the initializer that was found, or in a new one
  cases hput with
  | @front _ m body b hk hedited =>
    obtain ⟨hm, hinit⟩ := s.initializer_of_found hcls he hstate hk
    obtain ⟨m', hget, hlaid⟩ := hfinishes.exists_laid
      (List.getElem?_set_self (List.getElem?_eq_some_iff.1 hk).1)
    obtain ⟨r, signature, c', -, -, hlayout, hrecoded⟩ := id hlaid
    obtain ⟨rest, handlers, hfronted, hcontinues⟩ :=
      hedited.exists_continues hg.le hcls hm hinit hpre hlayout
    have hinit' : cls'.pool.isInitializer m' = true := by
      have hkept := kept_of_closed hcls (List.mem_of_getElem? hm)
      rw [hlaid.isInitializer, isInitializer_eq_of_kept hpool hkept, hinit]
    exact ⟨k, m', c', code, rest, handlers, hget, hinit', hrecoded.code, hassigns, hfronted,
      hcontinues⟩
  | @new m hnew =>
    have hlength := congrArg List.length (s.surveyed he).methods
    rw [List.length_map] at hlength
    obtain ⟨m', hget, hlaid⟩ := hfinishes.exists_laid List.getElem?_concat_length
    obtain ⟨r, signature, c', -, -, hlayout, hrecoded⟩ := id hlaid
    obtain ⟨f, -, hfronted⟩ := exists_fronted editOf_ofInsns hpre hlayout
    have hinit' : cls'.pool.isInitializer m' = true := by
      have hnew' := hnew.mono hg.le
      rw [hlaid.isInitializer, Pool.isInitializer, hnew'.name, hnew'.descriptor]
      rfl
    exact ⟨_, m', c', code, _, _, hget, hinit', hrecoded.code, hassigns, hfronted,
      .bare hlength fun m hm => s.not_isInitializer he hstate hm⟩

end Expansion

namespace ClassFile

open Expansion

variable {catalog : Catalog} {lookup : LookupMethod} {cls cls' : ClassFile}
  {summary : ExpansionSummary}

/-- A class whose indices lie inside of its pool, and from which constants are deferred, has one
type initializer once it is expanded. The initializer first assigns the value of every deferred
constant to its field, in the order of the fields, and goes on with what the class had. No offset in
its code lies in front of the end of the assignments, every path runs them once, before everything
else, and running them on a machine does assign the values. -/
theorem assigns_first_of_expand (hcls : cls.Closed)
    (h : cls.expand catalog lookup = .ok (.expanded cls' summary)) (hd : 0 < summary.deferred) :
    cls'.initializerCount = 1 ∧
    ∃ (owner : String) (cs : List DeferredConstant) (k : Nat) (m : Member) (c : Code) (b : Body)
        (pre rest : List Insn),
      cls.name? = some owner ∧ cs.length = summary.deferred ∧
      List.Forall₂ (Defers catalog cls.pool)
        (cls.fields.filter fun f => (templateOf? catalog cls.pool f).isSome) cs ∧
      cls'.methods[k]? = some m ∧ cls'.pool.isInitializer m = true ∧ m.code? = some c ∧
      Body.ofCode c = .ok b ∧ b.insns = pre ++ rest ∧
      Assigns catalog lookup owner cls'.pool cs pre ∧
      Continues catalog lookup cls cls'.pool k rest b.handlers ∧
      (∃ behind, Insn.decode c.bytes = .ok (Layout.located 0 pre ++ behind) ∧
        ∀ o ∈ c.references (Layout.located 0 pre ++ behind), Layout.stop 0 pre ≤ o) ∧
      (∀ path : List Nat, path.IsChain b.Goes → path[0]? = some 0 → ∀ n j, path[n]? = some j →
        (n < pre.length → j = n) ∧ (pre.length ≤ n → pre.length ≤ j)) ∧
      ∀ {α ω : Type} (M : Machine α ω) (store : MemberRef → Machine.Value α → ω → ω)
        (start : Machine.Memory α ω), M.Stores cls'.pool store → ∃ builders,
          Relation.ReflTransGen (M.Step lookup cls'.pool b fun _ => none) (some 0, start)
            (some pre.length, ⟨start.stack, builders,
              start.calls ++ Machine.callsOf catalog cs,
              M.assigned store catalog owner cs start.world⟩) := by
  obtain ⟨he, owner, hname, ⟨s⟩⟩ := nonempty_run h
  have hdeferred : summary.deferred = s.cs.length :=
    congrArg ExpansionSummary.deferred s.summary_eq
  have hcs : s.cs ≠ [] := by
    rw [hdeferred] at hd
    exact List.length_pos_iff.1 hd
  obtain ⟨k, m, c, pre, rest, handlers, hk, hinit, hc, ha, ⟨⟨b, hb, hinsns, hhandlers⟩, hdecoded⟩,
    hcontinues⟩ := s.exists_front hcls he hcs
  have hdefers := (deferFields_spec s.defers).2
  refine ⟨?_, owner, s.cs, k, m, c, b, pre, rest, hname, hdeferred.symm, hdefers, hk, hinit, hc, hb,
    hinsns, ha, hhandlers ▸ hcontinues, hdecoded, ?_, ?_⟩
  · -- the checks allow one initializer at most
    obtain ⟨-, -, -, hle⟩ := verifyOutline_eq_ok.1 s.verifyOutline_eq_ok
    have hpos : 0 < cls'.initializerCount :=
      List.countP_pos_iff.2 ⟨m, List.mem_of_getElem? hk, hinit⟩
    omega
  · intro path hpath hstart n j hj
    exact Body.front_first hinsns ha.assigning hpath hstart hj
  · intro α ω M store start hM
    have hbound : ∀ c ∈ s.cs, catalog.bindsAny c.text = true := by
      intro c hc
      obtain ⟨f, -, hf⟩ := exists_left_of_forall₂ hdefers hc
      exact hf.text.bound
    obtain ⟨builders, hrun⟩ := Machine.runsThrough_of_assigns (m := start) hM hbound ha
    have hfront : b.insns = [] ++ pre ++ rest := hinsns
    have hsteps := hrun.steps hfront
    rw [List.length_nil, Nat.zero_add] at hsteps
    exact ⟨builders, hsteps⟩

theorem assigns_first_of_expand_loop :
    ∃ cls' summary, loopClass.Closed ∧ 0 < ExpansionSummary.deferred summary ∧
      loopClass.expand loopCatalog loopLookup = .ok (.expanded cls' summary) ∧
      cls'.initializerCount = 1 := by
  obtain ⟨c, summary, h, hdeferred, -⟩ := exists_expand_loopClass
  have hpos : 0 < summary.deferred := hdeferred ▸ Nat.one_pos
  exact ⟨loopExpanded c, summary, loopClass_closed, hpos, h,
    (assigns_first_of_expand loopClass_closed h hpos).1⟩

end ClassFile

end ClassTemplates
