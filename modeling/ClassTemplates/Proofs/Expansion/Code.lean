import ClassTemplates.Expansion.Loads
import ClassTemplates.Proofs.Pool.Additions

/-!
# The code of an expansion

An expansion makes a builder, appends the value of each segment to it and takes its text. Every
index in it resolves in the pool that the expansion leaves behind, and in every larger one.

## Main definitions

- `BuilderMembers.Resolves` — the indices stand for the members of the builder and for the lookup
- `Loads`, `Pushes`, `Appends`, `Builds` — the code of a text, a segment, segments, and of it all
- `Insn.emitted` — the kinds of instructions that occur in such code
- `Expander.Ready` — the members that were added before are still in the pool
- `Expander.Emits` — the code of segments with the members of an expander, whatever these are

## Main results

- `Expander.expand_emits`, `expand_eq_ok` — what an expansion does to the expander, and which code
  it is
- `Expander.emitted_of_expand` — the kinds of instructions in it, whatever the pool
-/

namespace ClassTemplates

/-- The indices stand for the class that builds strings, its members and the lookup method. -/
structure BuilderMembers.Resolves (lookup : LookupMethod) (p : Pool) (m : BuilderMembers) :
    Prop where
  builder : p.className? m.builder = some Expander.builderClass
  init : p.member? m.init = some ⟨Expander.builderClass, "<init>", "()V"⟩
  append : p.member? m.append =
    some ⟨Expander.builderClass, "append", "(Ljava/lang/String;)Ljava/lang/StringBuilder;"⟩
  toText : p.member? m.toText = some ⟨Expander.builderClass, "toString", "()Ljava/lang/String;"⟩
  lookup : p.member? m.lookup = some ⟨lookup.owner, lookup.name, LookupMethod.descriptor⟩

/-- The instruction loads a text. -/
def Loads (p : Pool) (text : String) (insn : Insn) : Prop :=
  ∃ index, insn = .ldc index ∧ p.stringValue? index = some text

/-- The code puts the value of a segment on the stack. -/
inductive Pushes (m : BuilderMembers) (p : Pool) : Segment → List Insn → Prop
  | literal {text : String} {x : Insn} : Loads p text x → Pushes m p (.literal text) [x]
  | unbound {token : String} {x : Insn} : Loads p token x → Pushes m p (.unbound token) [x]
  | bound {b : Binding} {x y z : Insn} : Loads p b.moduleId x → Loads p b.key y →
      Loads p b.fallback z →
      Pushes m p (.bound b) [x, y, z, .invoke Opcode.invokestatic m.lookup]

/-- The code appends the value of each segment to the builder on the stack. -/
inductive Appends (m : BuilderMembers) (p : Pool) : List Segment → List Insn → Prop
  | nil : Appends m p [] []
  | cons {s : Segment} {rest : List Segment} {xs ys : List Insn} : Pushes m p s xs →
      Appends m p rest ys →
      Appends m p (s :: rest) (xs ++ .invoke Opcode.invokevirtual m.append :: ys)

/-- The code builds the value of segments. -/
def Builds (lookup : LookupMethod) (p : Pool) (segments : List Segment) (code : List Insn) : Prop :=
  ∃ m middle, BuilderMembers.Resolves lookup p m ∧ Appends m p segments middle ∧
    code = (Expander.start m).toList ++ middle ++ [.invoke Opcode.invokevirtual m.toText]

/-- The kinds of instructions that expansions are made of. -/
def Insn.emitted : Insn → Bool
  | .ldc _ => true
  | .op opcode => opcode == Opcode.dup
  | .type opcode _ => opcode == Opcode.newObject
  | .invoke opcode _ =>
    opcode == Opcode.invokespecial || opcode == Opcode.invokevirtual
      || opcode == Opcode.invokestatic
  | _ => false

section

variable {lookup : LookupMethod} {p q : Pool} {m : BuilderMembers}

/-! ### Larger pools -/

theorem BuilderMembers.Resolves.mono (h : p ≤ q) (hm : m.Resolves lookup p) :
    m.Resolves lookup q where
  builder := Pool.className?_mono h hm.builder
  init := Pool.member?_mono h hm.init
  append := Pool.member?_mono h hm.append
  toText := Pool.member?_mono h hm.toText
  lookup := Pool.member?_mono h hm.lookup

theorem Loads.mono (h : p ≤ q) {text : String} {x : Insn} (hx : Loads p text x) :
    Loads q text x := by
  obtain ⟨i, rfl, ht⟩ := hx
  exact ⟨i, rfl, Pool.stringValue?_mono h ht⟩

theorem Pushes.mono (h : p ≤ q) {s : Segment} {xs : List Insn} (hx : Pushes m p s xs) :
    Pushes m q s xs := by
  cases hx with
  | literal hx => exact .literal (hx.mono h)
  | unbound hx => exact .unbound (hx.mono h)
  | bound hx hy hz => exact .bound (hx.mono h) (hy.mono h) (hz.mono h)

theorem Appends.mono (h : p ≤ q) {ss : List Segment} {xs : List Insn} (hx : Appends m p ss xs) :
    Appends m q ss xs := by
  induction hx with
  | nil => exact .nil
  | cons hs _ ih => exact .cons (hs.mono h) ih

/-- What is appended for segments with a bound token loads the module, the key and the fallback of
a binding behind what is appended for the segments in front of it. -/
theorem Appends.exists_bound {ss : List Segment} {xs : List Insn} (h : Appends m p ss xs)
    (hs : ss.any Segment.isBound = true) :
    ∃ ss₁ xs₁ ys b x y z, xs = xs₁ ++ [x, y, z] ++ ys ∧ Appends m p ss₁ xs₁ ∧
      Loads p (Binding.moduleId b) x ∧ Loads p b.key y ∧ Loads p b.fallback z := by
  induction h with
  | nil => cases hs
  | @cons s rest xs zs hpush _ ih =>
    cases hpush with
    | @bound b x y z hx hy hz =>
      exact ⟨[], [], .invoke Opcode.invokestatic m.lookup :: .invoke Opcode.invokevirtual m.append
        :: zs, b, x, y, z, rfl, .nil, hx, hy, hz⟩
    | literal hx =>
      obtain ⟨ss₁, xs₁, ys, b, x, y, z, rfl, happ, hload⟩ := ih hs
      exact ⟨_, _, ys, b, x, y, z, by simp, .cons (.literal hx) happ, hload⟩
    | unbound hx =>
      obtain ⟨ss₁, xs₁, ys, b, x, y, z, rfl, happ, hload⟩ := ih hs
      exact ⟨_, _, ys, b, x, y, z, by simp, .cons (.unbound hx) happ, hload⟩

theorem Builds.mono (h : p ≤ q) {ss : List Segment} {code : List Insn}
    (hc : Builds lookup p ss code) : Builds lookup q ss code := by
  obtain ⟨m, middle, hm, ha, hcode⟩ := hc
  exact ⟨m, middle, hm.mono h, ha.mono h, hcode⟩

end

namespace Expander

variable {lookup : LookupMethod} {catalog : Catalog} {e e' : Expander}

/-- The pool is bounded, and the members that were added before still resolve in it. -/
structure Ready (lookup : LookupMethod) (e : Expander) : Prop where
  bounded : e.pool.Bounded
  members : ∀ m, e.members = some m → m.Resolves lookup e.pool

theorem ready_ofPool {p : Pool} (hp : p.Bounded) : (ofPool p).Ready lookup :=
  ⟨hp, fun _ h => nomatch h⟩

/-- The members stay ready while the pool grows. -/
theorem Ready.grown (h : e.Ready lookup) (hg : e.pool.GrownTo e'.pool)
    (hm : e'.members = e.members) : e'.Ready lookup :=
  ⟨hg.bounded, fun m hm' => (h.members m (hm ▸ hm')).mono hg.le⟩

/-- The code builds the value of segments by way of the members of an expander. -/
def Emits (e : Expander) (segments : List Segment) (code : List Insn) : Prop :=
  ∃ m middle, e.members = some m ∧ Appends m e.pool segments middle ∧
    code = (start m).toList ++ middle ++ [.invoke Opcode.invokevirtual m.toText]

theorem Emits.builds {ss : List Segment} {code : List Insn} (h : e.Emits ss code)
    (he : e.Ready lookup) : Builds lookup e.pool ss code := by
  obtain ⟨m, middle, hm, ha, hcode⟩ := h
  exact ⟨m, middle, he.members m hm, ha, hcode⟩

/-! ### The parts of an expansion -/

theorem onPool_eq_ok {α : Type} {x : PoolM α} {a : α} (h : (onPool x).run e = (.ok a, e')) :
    x.run e.pool = (.ok a, e'.pool) ∧ e'.members = e.members := by
  obtain ⟨pool, members, stats⟩ := e
  have hrun : (((x.run pool).1, ⟨(x.run pool).2, members, stats⟩) : Except PoolError α × Expander) =
      (.ok a, e') := h
  obtain ⟨h1, rfl⟩ := Prod.mk.inj hrun
  exact ⟨Prod.ext h1 rfl, rfl⟩

theorem count_eq_ok {f : ExpansionStats → ExpansionStats} {u : Unit}
    (h : (count f).run e = (.ok u, e')) : e'.pool = e.pool ∧ e'.members = e.members := by
  obtain ⟨pool, members, stats⟩ := e
  cases h
  exact ⟨rfl, rfl⟩

theorem addMembers_grown {p q : Pool} {m : BuilderMembers} (hp : p.Bounded)
    (h : (addMembers lookup).run p = (.ok m, q)) : p.GrownTo q ∧ m.Resolves lookup q := by
  obtain ⟨builder, p₁, h₁, h⟩ := run_bind_eq_ok.1 h
  obtain ⟨init, p₂, h₂, h⟩ := run_bind_eq_ok.1 h
  obtain ⟨append, p₃, h₃, h⟩ := run_bind_eq_ok.1 h
  obtain ⟨toText, p₄, h₄, h⟩ := run_bind_eq_ok.1 h
  obtain ⟨find, p₅, h₅, h⟩ := run_bind_eq_ok.1 h
  obtain ⟨rfl, rfl⟩ := run_pure_eq_ok.1 h
  obtain ⟨g₁, r₁⟩ := Pool.addClass_grown hp h₁
  obtain ⟨g₂, r₂⟩ := Pool.addMethodRef_grown g₁.bounded h₂
  obtain ⟨g₃, r₃⟩ := Pool.addMethodRef_grown g₂.bounded h₃
  obtain ⟨g₄, r₄⟩ := Pool.addMethodRef_grown g₃.bounded h₄
  obtain ⟨g₅, r₅⟩ := Pool.addMethodRef_grown g₄.bounded h₅
  have g₄₅ := g₄.trans g₅
  have g₃₅ := g₃.trans g₄₅
  have g₂₅ := g₂.trans g₃₅
  exact ⟨g₁.trans g₂₅, Pool.className?_mono g₂₅.le r₁, Pool.member?_mono g₃₅.le r₂,
    Pool.member?_mono g₄₅.le r₃, Pool.member?_mono g₅.le r₄, r₅⟩

/-- The members are kept once they have been added. -/
theorem getMembers_eq_ok {m : BuilderMembers} (hb : e.pool.Bounded)
    (h : (getMembers lookup).run e = (.ok m, e')) :
    e.pool.GrownTo e'.pool ∧ e'.members = some m ∧ (e.Ready lookup → e'.Ready lookup) := by
  obtain ⟨f, e₁, h₁, h⟩ := run_bind_eq_ok.1 h
  obtain ⟨rfl, rfl⟩ : e = f ∧ e = e₁ := by
    cases h₁
    exact ⟨rfl, rfl⟩
  split at h
  · rename_i m' hm
    obtain ⟨rfl, rfl⟩ := run_pure_eq_ok.1 h
    exact ⟨.refl hb, hm, id⟩
  · obtain ⟨m', e₂, h₂, h⟩ := run_bind_eq_ok.1 h
    obtain ⟨u, e₃, h₃, h⟩ := run_bind_eq_ok.1 h
    obtain ⟨rfl, rfl⟩ := run_pure_eq_ok.1 h
    obtain ⟨hadd, -⟩ := onPool_eq_ok h₂
    obtain ⟨hg, hr⟩ := addMembers_grown hb hadd
    cases h₃
    refine ⟨hg, rfl, fun _ => ⟨hg.bounded, fun m hm => ?_⟩⟩
    cases hm
    exact hr

theorem load_eq_ok {text : String} {x : Insn} (hb : e.pool.Bounded)
    (h : (load text).run e = (.ok x, e')) :
    e.pool.GrownTo e'.pool ∧ e'.members = e.members ∧ Loads e'.pool text x := by
  obtain ⟨i, e₁, h₁, h⟩ := run_bind_eq_ok.1 h
  obtain ⟨rfl, rfl⟩ := run_pure_eq_ok.1 h
  obtain ⟨hadd, hm⟩ := onPool_eq_ok h₁
  obtain ⟨hg, hi⟩ := Pool.addString_grown hb hadd
  exact ⟨hg, hm, i, rfl, hi⟩

theorem push_eq_ok {m : BuilderMembers} {s : Segment} {xs : List Insn} (hb : e.pool.Bounded)
    (h : (push m s).run e = (.ok xs, e')) :
    e.pool.GrownTo e'.pool ∧ e'.members = e.members ∧ Pushes m e'.pool s xs := by
  cases s with
  | literal text =>
    obtain ⟨x, e₁, h₁, h⟩ := run_bind_eq_ok.1 h
    obtain ⟨rfl, rfl⟩ := run_pure_eq_ok.1 h
    obtain ⟨hg, hm, hx⟩ := load_eq_ok hb h₁
    exact ⟨hg, hm, .literal hx⟩
  | unbound token =>
    obtain ⟨x, e₁, h₁, h⟩ := run_bind_eq_ok.1 h
    obtain ⟨u, e₂, h₂, h⟩ := run_bind_eq_ok.1 h
    obtain ⟨rfl, rfl⟩ := run_pure_eq_ok.1 h
    obtain ⟨hg, hm, hx⟩ := load_eq_ok hb h₁
    obtain ⟨hp, hm'⟩ := count_eq_ok h₂
    exact ⟨hp ▸ hg, hm'.trans hm, hp ▸ .unbound hx⟩
  | bound b =>
    obtain ⟨x, e₁, h₁, h⟩ := run_bind_eq_ok.1 h
    obtain ⟨y, e₂, h₂, h⟩ := run_bind_eq_ok.1 h
    obtain ⟨z, e₃, h₃, h⟩ := run_bind_eq_ok.1 h
    obtain ⟨u, e₄, h₄, h⟩ := run_bind_eq_ok.1 h
    obtain ⟨rfl, rfl⟩ := run_pure_eq_ok.1 h
    obtain ⟨hg₁, hm₁, hx⟩ := load_eq_ok hb h₁
    obtain ⟨hg₂, hm₂, hy⟩ := load_eq_ok hg₁.bounded h₂
    obtain ⟨hg₃, hm₃, hz⟩ := load_eq_ok hg₂.bounded h₃
    obtain ⟨hp, hm₄⟩ := count_eq_ok h₄
    rw [hp]
    refine ⟨(hg₁.trans hg₂).trans hg₃, hm₄.trans (hm₃.trans (hm₂.trans hm₁)), ?_⟩
    exact .bound (hx.mono (hg₂.trans hg₃).le) (hy.mono hg₃.le) hz

theorem appendOnto_eq_ok {m : BuilderMembers} {done out : Array Insn} {ss : List Segment}
    (hb : e.pool.Bounded) (h : appendOnto m done ss e = (.ok out, e')) :
    e.pool.GrownTo e'.pool ∧ e'.members = e.members ∧
      ∃ xs, Appends m e'.pool ss xs ∧ out.toList = done.toList ++ xs := by
  induction ss generalizing done e with
  | nil =>
    cases h
    exact ⟨.refl hb, rfl, [], .nil, by simp⟩
  | cons s rest ih =>
    rw [appendOnto] at h
    split at h
    · cases h
    · rename_i xs e₁ hpush
      obtain ⟨hg, hm, hx⟩ := push_eq_ok hb hpush
      obtain ⟨hg', hm', ys, hys, hout⟩ := ih hg.bounded h
      refine ⟨hg.trans hg', hm'.trans hm, _, .cons (hx.mono hg'.le) hys, ?_⟩
      simp [hout]

theorem build_eq_ok {ss : List Segment} {code : List Insn} (hb : e.pool.Bounded)
    (h : (build lookup ss).run e = (.ok code, e')) :
    e.pool.GrownTo e'.pool ∧ (e.Ready lookup → e'.Ready lookup) ∧ e'.Emits ss code := by
  obtain ⟨m, e₁, h₁, h⟩ := run_bind_eq_ok.1 h
  obtain ⟨out, e₂, h₂, h⟩ := run_bind_eq_ok.1 h
  obtain ⟨u, e₃, h₃, h⟩ := run_bind_eq_ok.1 h
  obtain ⟨rfl, rfl⟩ := run_pure_eq_ok.1 h
  obtain ⟨hg, hm, hr⟩ := getMembers_eq_ok hb h₁
  obtain ⟨hg', hm', xs, hxs, hout⟩ := appendOnto_eq_ok hg.bounded h₂
  obtain ⟨hp, hm₃⟩ := count_eq_ok h₃
  refine ⟨hp ▸ hg.trans hg', fun he => ?_, m, xs, hm₃.trans (hm'.trans hm), hp ▸ hxs,
    by simp [hout]⟩
  have hr' := (hr he).grown hg' hm'
  exact ⟨hp ▸ hr'.bounded, fun n hn => hp ▸ hr'.members n (hm₃ ▸ hn)⟩

/-- An expansion that succeeds leaves a grown pool, and gives code for a text with a bound token
only. -/
theorem expand_emits {text : String} {code? : Option (List Insn)} (hb : e.pool.Bounded)
    (h : (expand catalog lookup text).run e = (.ok code?, e')) :
    e.pool.GrownTo e'.pool ∧ (e.Ready lookup → e'.Ready lookup) ∧
      ((catalog.bindsAny text = false ∧ code? = none ∧ e' = e) ∨
        (catalog.bindsAny text = true ∧ ∃ code, code? = some code ∧
          e'.Emits (Segment.ofText catalog text) code)) := by
  unfold expand at h
  simp only at h
  split at h
  · rename_i hbinds
    obtain ⟨code, e₁, h₁, h⟩ := run_bind_eq_ok.1 h
    obtain ⟨rfl, rfl⟩ := run_pure_eq_ok.1 h
    obtain ⟨hg, hr, hc⟩ := build_eq_ok hb h₁
    exact ⟨hg, hr, .inr ⟨hbinds, code, rfl, hc⟩⟩
  · rename_i hbinds
    obtain ⟨rfl, rfl⟩ := run_pure_eq_ok.1 h
    exact ⟨.refl hb, id, .inl ⟨Bool.eq_false_iff.2 hbinds, rfl, rfl⟩⟩

/-- With members that resolve, the code of an expansion builds the value of its text. -/
theorem expand_eq_ok {text : String} {code? : Option (List Insn)} (he : e.Ready lookup)
    (h : (expand catalog lookup text).run e = (.ok code?, e')) :
    e.pool.GrownTo e'.pool ∧ e'.Ready lookup ∧
      ((catalog.bindsAny text = false ∧ code? = none ∧ e' = e) ∨
        (catalog.bindsAny text = true ∧ ∃ code, code? = some code ∧
          Builds lookup e'.pool (Segment.ofText catalog text) code)) := by
  obtain ⟨hg, hr, hcases⟩ := expand_emits he.bounded h
  refine ⟨hg, hr he, hcases.imp_right ?_⟩
  rintro ⟨hbinds, code, hcode, hemits⟩
  exact ⟨hbinds, code, hcode, hemits.builds (hr he)⟩

/-! ### The instructions of an expansion

Which instructions an expansion is made of does not depend on the pool. -/

theorem emitted_of_load {text : String} {x : Insn} (h : (load text).run e = (.ok x, e')) :
    x.emitted := by
  obtain ⟨i, e₁, -, h⟩ := run_bind_eq_ok.1 h
  obtain ⟨rfl, -⟩ := run_pure_eq_ok.1 h
  rfl

theorem emitted_of_push {m : BuilderMembers} {s : Segment} {xs : List Insn}
    (h : (push m s).run e = (.ok xs, e')) : ∀ x ∈ xs, x.emitted := by
  cases s with
  | literal text =>
    obtain ⟨x, e₁, h₁, h⟩ := run_bind_eq_ok.1 h
    obtain ⟨rfl, -⟩ := run_pure_eq_ok.1 h
    simpa using emitted_of_load h₁
  | unbound token =>
    obtain ⟨x, e₁, h₁, h⟩ := run_bind_eq_ok.1 h
    obtain ⟨u, e₂, -, h⟩ := run_bind_eq_ok.1 h
    obtain ⟨rfl, -⟩ := run_pure_eq_ok.1 h
    simpa using emitted_of_load h₁
  | bound b =>
    obtain ⟨x, e₁, h₁, h⟩ := run_bind_eq_ok.1 h
    obtain ⟨y, e₂, h₂, h⟩ := run_bind_eq_ok.1 h
    obtain ⟨z, e₃, h₃, h⟩ := run_bind_eq_ok.1 h
    obtain ⟨u, e₄, -, h⟩ := run_bind_eq_ok.1 h
    obtain ⟨rfl, -⟩ := run_pure_eq_ok.1 h
    simpa using ⟨emitted_of_load h₁, emitted_of_load h₂, emitted_of_load h₃, rfl⟩

theorem emitted_of_appendOnto {m : BuilderMembers} {done out : Array Insn} {ss : List Segment}
    (hd : ∀ x ∈ done.toList, x.emitted) (h : appendOnto m done ss e = (.ok out, e')) :
    ∀ x ∈ out.toList, x.emitted := by
  induction ss generalizing done e with
  | nil =>
    cases h
    exact hd
  | cons s rest ih =>
    rw [appendOnto] at h
    split at h
    · cases h
    · rename_i xs e₁ hpush
      refine ih ?_ h
      intro x hx
      simp only [Array.toList_push, Array.toList_appendList, List.mem_append, List.mem_singleton]
        at hx
      rcases hx with (hx | hx) | rfl
      · exact hd x hx
      · exact emitted_of_push hpush x hx
      · rfl

/-- The code of an expansion is not empty and takes no branch. -/
theorem emitted_of_expand {text : String} {code : List Insn}
    (h : (expand catalog lookup text).run e = (.ok (some code), e')) :
    code ≠ [] ∧ ∀ x ∈ code, x.emitted := by
  unfold expand at h
  simp only at h
  split at h
  · obtain ⟨code', e₁, h₁, h⟩ := run_bind_eq_ok.1 h
    obtain ⟨hcode, -⟩ := run_pure_eq_ok.1 h
    cases hcode
    obtain ⟨m, e₂, -, h₁⟩ := run_bind_eq_ok.1 h₁
    obtain ⟨out, e₃, h₃, h₁⟩ := run_bind_eq_ok.1 h₁
    obtain ⟨u, e₄, -, h₁⟩ := run_bind_eq_ok.1 h₁
    obtain ⟨rfl, -⟩ := run_pure_eq_ok.1 h₁
    have hout := emitted_of_appendOnto (by simp [start, Insn.emitted]) h₃
    refine ⟨by simp, fun x hx => ?_⟩
    simp only [Array.toList_push, List.mem_append, List.mem_singleton] at hx
    rcases hx with hx | rfl
    · exact hout x hx
    · rfl
  · obtain ⟨hcode, -⟩ := run_pure_eq_ok.1 h
    cases hcode

end Expander

end ClassTemplates
