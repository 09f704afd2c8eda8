import ClassTemplates.Expansion.Initializer
import ClassTemplates.Proofs.Expansion.Lasting

/-!
# The code of a type initializer

Each deferred constant is assigned by code that puts its value on the stack and takes it off again.
The assignments come in order, and their indices resolve in the pool that they leave behind. Those
of the members by which values are built are the ones of the expander, which resolve if it is ready.

## Main definitions

- `Gives` — code that puts the value of a text on the stack
- `Assigns` — code that assigns constants to the fields of a class
- `Expander.Puts`, `Fills` — the same with the members of an expander, whatever these are
- `Insn.assigning` — the kinds of instructions that occur in such code
- `Initializer.Finalizes` — what comes of asking for the code

## Main results

- `Expander.Fills.assigns` — with members that resolve, the fields are assigned
- `Initializer.finalize_fills`, `finalize_eq_ok` — the code to add to a class, and what it does to
  the pool
-/

namespace ClassTemplates

/-- The code puts the value of a text on the stack. It loads a text without bound tokens. -/
def Gives (catalog : Catalog) (lookup : LookupMethod) (p : Pool) (text : String)
    (code : List Insn) : Prop :=
  Builds lookup p (Segment.ofText catalog text) code ∨
    catalog.bindsAny text = false ∧ ∃ x, code = [x] ∧ Loads p text x

/-- The code assigns constants to fields of the class `owner`, in order. -/
inductive Assigns (catalog : Catalog) (lookup : LookupMethod) (owner : String) (p : Pool) :
    List DeferredConstant → List Insn → Prop
  | nil : Assigns catalog lookup owner p [] []
  | cons {c : DeferredConstant} {rest : List DeferredConstant} {xs ys : List Insn} {i : UInt16} :
      Gives catalog lookup p c.text xs →
      p.member? i = some ⟨owner, c.field, Initializer.stringDescriptor⟩ →
      Assigns catalog lookup owner p rest ys →
      Assigns catalog lookup owner p (c :: rest) (xs ++ .field Opcode.putstatic i :: ys)

namespace Expander

/-- The code puts the value of a text on the stack by way of the members of an expander. It loads a
text without bound tokens. -/
def Puts (e : Expander) (catalog : Catalog) (text : String) (code : List Insn) : Prop :=
  e.Emits (Segment.ofText catalog text) code ∨
    catalog.bindsAny text = false ∧ ∃ x, code = [x] ∧ Loads e.pool text x

/-- The code assigns constants to fields of the class `owner`, in order and by way of the members of
an expander. -/
inductive Fills (e : Expander) (catalog : Catalog) (owner : String) :
    List DeferredConstant → List Insn → Prop
  | nil : Fills e catalog owner [] []
  | cons {c : DeferredConstant} {rest : List DeferredConstant} {xs ys : List Insn} {i : UInt16} :
      e.Puts catalog c.text xs →
      e.pool.member? i = some ⟨owner, c.field, Initializer.stringDescriptor⟩ →
      Fills e catalog owner rest ys →
      Fills e catalog owner (c :: rest) (xs ++ .field Opcode.putstatic i :: ys)

variable {catalog : Catalog} {lookup : LookupMethod} {owner text : String} {e e' : Expander}
  {ss : List Segment} {code : List Insn} {cs : List DeferredConstant}

/-! ### Expanders that go on -/

theorem Emits.mono (h : Onward lookup e e') (hc : e.Emits ss code) : e'.Emits ss code := by
  obtain ⟨m, middle, hm, happ, hcode⟩ := hc
  exact ⟨m, middle, h.members hm, happ.mono h.pool.le, hcode⟩

theorem Puts.mono (h : Onward lookup e e') (hc : e.Puts catalog text code) :
    e'.Puts catalog text code := by
  rcases hc with hc | ⟨hb, x, rfl, hx⟩
  · exact .inl (hc.mono h)
  · exact .inr ⟨hb, x, rfl, hx.mono h.pool.le⟩

/-! ### Expanders that are ready -/

theorem Puts.gives (he : e.Ready lookup) (hc : e.Puts catalog text code) :
    Gives catalog lookup e.pool text code :=
  hc.imp_left fun hc => hc.builds he

theorem Fills.assigns (he : e.Ready lookup) (hc : e.Fills catalog owner cs code) :
    Assigns catalog lookup owner e.pool cs code := by
  induction hc with
  | nil => exact .nil
  | cons hx hi _ ih => exact .cons (hx.gives he) hi ih

end Expander

/-- The kinds of instructions that assignments are made of. -/
def Insn.assigning : Insn → Bool
  | .field opcode _ => opcode == Opcode.putstatic
  | insn => insn.emitted

section

variable {catalog : Catalog} {lookup : LookupMethod} {owner text : String} {p q : Pool}
  {code : List Insn}

theorem Gives.mono (h : p ≤ q) (hc : Gives catalog lookup p text code) :
    Gives catalog lookup q text code := by
  rcases hc with hc | ⟨hb, x, rfl, hx⟩
  · exact .inl (hc.mono h)
  · exact .inr ⟨hb, x, rfl, hx.mono h⟩

theorem Assigns.mono (h : p ≤ q) {cs : List DeferredConstant}
    (hc : Assigns catalog lookup owner p cs code) : Assigns catalog lookup owner q cs code := by
  induction hc with
  | nil => exact .nil
  | cons hg hi _ ih => exact .cons (hg.mono h) (Pool.member?_mono h hi) ih

/-! ### The instructions -/

theorem Insn.assigning_of_emitted {insn : Insn} (h : insn.emitted) : insn.assigning := by
  cases insn <;> first | exact h | cases h

theorem Insn.assigning_cases {insn : Insn} (h : insn.assigning) :
    insn.emitted ∨ ∃ i, insn = .field Opcode.putstatic i := by
  cases insn with
  | field opcode i =>
    obtain rfl : opcode = Opcode.putstatic := eq_of_beq h
    exact .inr ⟨i, rfl⟩
  | _ => exact .inl h

theorem Loads.emitted {x : Insn} (h : Loads p text x) : x.emitted := by
  obtain ⟨i, rfl, -⟩ := h
  rfl

theorem Pushes.emitted {m : BuilderMembers} {s : Segment} (h : Pushes m p s code) :
    ∀ x ∈ code, x.emitted := by
  cases h with
  | literal hx | unbound hx => simpa using hx.emitted
  | bound hx hy hz => simpa using ⟨hx.emitted, hy.emitted, hz.emitted, rfl⟩

theorem Appends.emitted {m : BuilderMembers} {ss : List Segment} (h : Appends m p ss code) :
    ∀ x ∈ code, x.emitted := by
  induction h with
  | nil => simp
  | cons hs _ ih =>
    intro x hx
    rcases List.mem_append.1 hx with hx | hx
    · exact hs.emitted x hx
    · rcases List.mem_cons.1 hx with rfl | hx
      · rfl
      · exact ih x hx

theorem Builds.emitted {ss : List Segment} (h : Builds lookup p ss code) :
    ∀ x ∈ code, x.emitted := by
  obtain ⟨m, middle, -, ha, rfl⟩ := h
  intro x hx
  rcases List.mem_append.1 hx with hx | hx
  · rcases List.mem_append.1 hx with hx | hx
    · have hall : ∀ y ∈ (Expander.start m).toList, y.emitted := by
        simp [Expander.start, Insn.emitted]
      exact hall x hx
    · exact ha.emitted x hx
  · rw [List.mem_singleton.1 hx]
    rfl

theorem Gives.emitted (h : Gives catalog lookup p text code) : ∀ x ∈ code, x.emitted := by
  rcases h with h | ⟨-, x, rfl, hx⟩
  · exact h.emitted
  · simpa using hx.emitted

theorem Assigns.assigning {cs : List DeferredConstant}
    (h : Assigns catalog lookup owner p cs code) : ∀ x ∈ code, x.assigning := by
  induction h with
  | nil => simp
  | cons hg _ _ ih =>
    intro x hx
    rcases List.mem_append.1 hx with hx | hx
    · exact Insn.assigning_of_emitted (hg.emitted x hx)
    · rcases List.mem_cons.1 hx with rfl | hx
      · rfl
      · exact ih x hx

end

namespace Initializer

open Expander (Onward Ready)

variable {catalog : Catalog} {lookup : LookupMethod} {owner : String} {i i' : Initializer}
  {e e' : Expander} {code : List Insn}

theorem value_eq_ok {text : String} (hb : e.pool.Bounded)
    (h : (value catalog lookup text).run e = (.ok code, e')) :
    e.pool.GrownTo e'.pool ∧ Onward lookup e e' ∧ e'.Puts catalog text code := by
  obtain ⟨code?, e₁, h₁, hrest⟩ := run_bind_eq_ok.1 h
  obtain ⟨hg, -, hcases⟩ := Expander.expand_emits hb h₁
  rcases hcases with ⟨hbinds, rfl, rfl⟩ | ⟨-, insns, rfl, hemits⟩
  · obtain ⟨x, e₂, h₂, hrest⟩ := run_bind_eq_ok.1 hrest
    obtain ⟨rfl, rfl⟩ := run_pure_eq_ok.1 hrest
    obtain ⟨hg', hm, hx⟩ := Expander.load_eq_ok hb h₂
    exact ⟨hg', Expander.onward_of_pool hg'.onward hm, .inr ⟨hbinds, x, rfl, hx⟩⟩
  · obtain ⟨rfl, rfl⟩ := run_pure_eq_ok.1 hrest
    exact ⟨hg, Expander.expand_onward h₁, .inl hemits⟩

theorem assignOnto_eq_ok {done out : Array Insn} {cs : List DeferredConstant}
    (hb : e.pool.Bounded) (h : assignOnto catalog lookup owner done cs e = (.ok out, e')) :
    e.pool.GrownTo e'.pool ∧ Onward lookup e e' ∧
      ∃ xs, e'.Fills catalog owner cs xs ∧ out.toList = done.toList ++ xs := by
  induction cs generalizing done e with
  | nil =>
    cases h
    exact ⟨.refl hb, Std.Refl.refl _, [], .nil, by simp⟩
  | cons c rest ih =>
    rw [assignOnto] at h
    split at h
    · cases h
    · rename_i insns e₃ hassign
      obtain ⟨xs, e₁, h₁, hassign⟩ := run_bind_eq_ok.1 hassign
      obtain ⟨i, e₂, h₂, hassign⟩ := run_bind_eq_ok.1 hassign
      obtain ⟨rfl, rfl⟩ := run_pure_eq_ok.1 hassign
      obtain ⟨hg₁, ho₁, hxs⟩ := value_eq_ok hb h₁
      obtain ⟨hadd, hm⟩ := Expander.onPool_eq_ok h₂
      obtain ⟨hg₂, hi⟩ := Pool.addFieldRef_grown hg₁.bounded hadd
      have ho₂ : Onward lookup e₁ _ := Expander.onward_of_pool hg₂.onward hm
      obtain ⟨hg₃, ho₃, ys, hys, hout⟩ := ih hg₂.bounded h
      have ho₂₃ := IsTrans.trans _ _ _ ho₂ ho₃
      refine ⟨(hg₁.trans hg₂).trans hg₃, IsTrans.trans _ _ _ ho₁ ho₂₃, _,
        .cons (hxs.mono ho₂₃) (Pool.member?_mono hg₃.le hi) hys, ?_⟩
      simp [hout]

theorem assignAll_eq_ok {cs : List DeferredConstant} (hb : e.pool.Bounded)
    (h : (assignAll catalog lookup owner cs).run e = (.ok code, e')) :
    e.pool.GrownTo e'.pool ∧ Onward lookup e e' ∧ e'.Fills catalog owner cs code := by
  obtain ⟨out, e₁, h₁, h⟩ := run_bind_eq_ok.1 h
  obtain ⟨rfl, rfl⟩ := run_pure_eq_ok.1 h
  obtain ⟨hg, ho, xs, hxs, hout⟩ := assignOnto_eq_ok hb h₁
  have hout : out.toList = xs := by simpa using hout
  exact ⟨hg, ho, hout ▸ hxs⟩

/-- After a method has been found, no other one counts. -/
theorem isOpen_found {method : Nat} : (i.found method).isOpen = false := by
  obtain ⟨state, deferred⟩ := i
  cases state <;> rfl

/-- Nothing has been asked for yet. -/
def Waiting (i : Initializer) : Prop :=
  i.state = .notStarted ∨ ∃ k, i.state = .found k

/-- There is no more code, whatever is asked. -/
def IsOver (i : Initializer) : Prop :=
  i.state = .finalized ∨ i.state = .synthesizing

/-- What comes of asking an initializer for its code. -/
inductive Finalizes (catalog : Catalog) (lookup : LookupMethod) (owner : String) (i : Initializer)
    (e : Expander) : Except PoolError (Option Injection) → Initializer → Expander → Prop
  | ended : i.IsOver → Finalizes catalog lookup owner i e (.ok none) i e
  | nothing : i.Waiting → i.deferred = #[] →
      Finalizes catalog lookup owner i e (.ok none) { i with state := .finalized } e
  | made {code : List Insn} {e' : Expander} : i.Waiting → i.deferred ≠ #[] →
      (assignAll catalog lookup owner i.deferred.toList).run e = (.ok code, e') →
      Finalizes catalog lookup owner i e (.ok (some (inject i.state code))) ⟨.finalized, #[]⟩ e'
  | failed {fault : PoolError} {e' : Expander} : i.Waiting → i.deferred ≠ #[] →
      (assignAll catalog lookup owner i.deferred.toList).run e = (.error fault, e') →
      Finalizes catalog lookup owner i e (.error fault) ⟨working i.state, #[]⟩ e'

theorem isOver_iff :
    (i.state == .finalized || i.state == .synthesizing) = true ↔ i.IsOver := by
  simp [IsOver]

theorem waiting_iff : i.Waiting ↔ ¬i.IsOver := by
  obtain ⟨state, deferred⟩ := i
  cases state <;> simp [Waiting, IsOver]

theorem finalizes {result : Except PoolError (Option Injection)}
    (h : i.finalize catalog lookup owner e = (result, i', e')) :
    Finalizes catalog lookup owner i e result i' e' := by
  unfold finalize at h
  split at h
  · rename_i hover
    cases h
    exact .ended (isOver_iff.1 hover)
  · rename_i hover
    have hwaiting : i.Waiting := waiting_iff.2 fun hi => hover (isOver_iff.2 hi)
    split at h
    · rename_i hempty
      cases h
      exact .nothing hwaiting (Array.isEmpty_iff.1 hempty)
    · rename_i hempty
      have hne : i.deferred ≠ #[] := mt Array.isEmpty_iff.2 hempty
      split at h <;> rename_i hassign <;> cases h
      · exact .failed hwaiting hne hassign
      · exact .made hwaiting hne hassign

/-- The first time that the code of an initializer is asked for and made, it fills the fields of the
deferred constants, if there are any. -/
theorem finalize_fills {injection : Option Injection} (hi : i.Waiting) (hb : e.pool.Bounded)
    (h : finalize catalog lookup owner i e = (.ok injection, i', e')) :
    e.pool.GrownTo e'.pool ∧ Onward lookup e e' ∧
      ((i.deferred = #[] ∧ injection = none ∧ e' = e) ∨ ∃ code,
        i.deferred ≠ #[] ∧ e'.Fills catalog owner i.deferred.toList code ∧
          injection = some (inject i.state code)) := by
  cases finalizes h with
  | ended hover => exact absurd hover (waiting_iff.1 hi)
  | nothing _ hempty => exact ⟨.refl hb, Std.Refl.refl _, .inl ⟨hempty, rfl, rfl⟩⟩
  | made _ hne hassign =>
    obtain ⟨hg, ho, hcode⟩ := assignAll_eq_ok hb hassign
    exact ⟨hg, ho, .inr ⟨_, hne, hcode, rfl⟩⟩

/-- The first time that the code of an initializer is asked for it assigns the deferred constants.
-/
theorem finalize_eq_ok {injection : Option Injection} (hi : i.Waiting)
    (he : e.Ready lookup)
    (h : finalize catalog lookup owner i e = (.ok injection, i', e')) :
    e.pool.GrownTo e'.pool ∧ e'.Ready lookup ∧
      ((i.deferred = #[] ∧ injection = none ∧ e' = e) ∨ ∃ code,
        Assigns catalog lookup owner e'.pool i.deferred.toList code ∧
          injection = some (inject i.state code)) := by
  obtain ⟨hg, ho, hcases⟩ := finalize_fills hi he.bounded h
  refine ⟨hg, ho.ready he, hcases.imp_right ?_⟩
  rintro ⟨code, -, hcode, hinjection⟩
  exact ⟨code, hcode.assigns (ho.ready he), hinjection⟩

end Initializer

end ClassTemplates
