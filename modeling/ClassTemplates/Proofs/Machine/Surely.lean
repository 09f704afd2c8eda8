import Mathlib.Data.Fintype.EquivFin
import ClassTemplates.Proofs.Machine.Straight

/-!
# Code that surely runs through

Straight code may be able to run to its end and yet, on another run, go elsewhere or get stuck.
Here this is ruled out: the instructions of an expansion all have a meaning of their own that fits
the stack they find, so that nothing else can happen than what is said of them. Only the reference
of the builder is left open.

## Main definitions

- `Machine.Surely` — every run of the instructions gets to the end and keeps to a condition
- `Memory.Above` — a memory with some values on top of a stack

## Main results

- `Machine.Surely.append` — one piece of code after the other
- `Machine.Surely.of_runsThrough` — what holds at every point on the way
- `Machine.surely_of_builds` — the code of an expansion
- `Machine.exists_peak_of_builds` — a point on the way with four values on top
-/

namespace ClassTemplates

namespace Machine

variable {α ω : Type} {M : Machine α ω} {lookup : LookupMethod} {p : Pool}
  {P Q : Memory α ω → Prop} {m m' : Memory α ω} {x : Insn} {xs ys rest : List Insn}

/-! ### Instructions with a meaning of their own -/

theorem Primitive.Does.accepts {a : Primitive} (h : a.Does M m m') : a.accepts m.stack = true := by
  cases h <;> rfl

/-- Only a builder that is made has a reference that is left open. -/
theorem Primitive.Does.unique {a : Primitive} {m₁ m₂ : Memory α ω} (ha : a ≠ .allocate)
    (h₁ : a.Does M m m₁) (h₂ : a.Does M m m₂) : m₂ = m₁ := by
  cases h₁ with
  | allocate => exact absurd rfl ha
  | append hs =>
    cases h₂ with
    | append hs' =>
      rw [hs] at hs'
      cases hs'
      rfl
  | toText hs =>
    cases h₂ with
    | toText hs' =>
      rw [hs] at hs'
      cases hs'
      rfl
  | _ =>
    cases h₂
    rfl

theorem Primitive.isLabel_of_ofInsn? {a : Primitive} (h : Primitive.ofInsn? lookup p x = some a) :
    x.isLabel = false := by
  cases x with
  | label => cases h
  | _ => rfl

/-- An instruction whose own meaning fits the stack does what this says and goes on. -/
theorem Executes.own_iff {a : Primitive} {o : Transfer α}
    (ha : Primitive.ofInsn? lookup p x = some a) (hst : a.accepts m.stack = true) :
    Executes M lookup p x m o m' ↔ o = .next ∧ a.Does M m m' := by
  constructor
  · intro h
    cases h with
    | own ha' _ hdo =>
      rw [ha] at ha'
      cases ha'
      exact ⟨rfl, hdo⟩
    | other hno _ =>
      rw [hno a ha] at hst
      cases hst
  · rintro ⟨rfl, hdo⟩
    exact .own ha hst hdo

/-! ### Every run -/

/-- Whatever happens, the instructions run one after the other to the end. All memories on the way
meet the first condition, and the last one the second as well. -/
def Surely (M : Machine α ω) (lookup : LookupMethod) (p : Pool) (P Q : Memory α ω → Prop) :
    List Insn → Memory α ω → Prop
  | [], m => P m ∧ Q m
  | x :: rest, m =>
    P m ∧ x.isLabel = false ∧ (∃ m', Executes M lookup p x m .next m') ∧
      ∀ o m', Executes M lookup p x m o m' → o = .next ∧ Surely M lookup p P Q rest m'

theorem Surely.start (h : Surely M lookup p P Q xs m) : P m := by
  cases xs with
  | nil => exact h.1
  | cons x rest => exact h.1

theorem Surely.append (h : Surely M lookup p P (Surely M lookup p P Q ys) xs m) :
    Surely M lookup p P Q (xs ++ ys) m := by
  induction xs generalizing m with
  | nil => exact h.2
  | cons x rest ih =>
    obtain ⟨hp, hl, hgo, hall⟩ := h
    exact ⟨hp, hl, hgo, fun o m' hx => (hall o m' hx).imp_right ih⟩

theorem Surely.exists_run (h : Surely M lookup p P Q xs m) :
    ∃ m', RunsThrough M lookup p xs m m' := by
  induction xs generalizing m with
  | nil => exact ⟨m, .nil⟩
  | cons x rest ih =>
    obtain ⟨-, hl, ⟨m₁, hx⟩, hall⟩ := h
    obtain ⟨m', hrest⟩ := ih (hall _ _ hx).2
    exact ⟨m', .cons hl hx hrest⟩

/-- Behind any part of the code that has run, the rest of it surely runs through. -/
theorem Surely.of_runsThrough (h : Surely M lookup p P Q (xs ++ ys) m)
    (hx : RunsThrough M lookup p xs m m') : Surely M lookup p P Q ys m' := by
  induction hx with
  | nil => exact h
  | cons _ hi _ ih => exact ih (h.2.2.2 _ _ hi).2

theorem Surely.stop (h : Surely M lookup p P Q xs m) (hx : RunsThrough M lookup p xs m m') :
    Q m' := by
  rw [← List.append_nil xs] at h
  exact (h.of_runsThrough hx).2

/-- An instruction with a meaning of its own, in front of code that surely runs through. -/
theorem surely_cons {a : Primitive} (ha : Primitive.ofInsn? lookup p x = some a)
    (hne : a ≠ .allocate) (hdo : a.Does M m m') (hp : P m)
    (hrest : Surely M lookup p P Q rest m') : Surely M lookup p P Q (x :: rest) m := by
  refine ⟨hp, Primitive.isLabel_of_ofInsn? ha, ⟨m', .own ha hdo.accepts hdo⟩, fun o m₁ hx => ?_⟩
  obtain ⟨rfl, hdo₁⟩ := (Executes.own_iff ha hdo.accepts).1 hx
  rw [hdo.unique hne hdo₁]
  exact ⟨rfl, hrest⟩

/-! ### The code of an expansion -/

/-- A memory with at most a number of values on top of a stack. -/
def Memory.Above (st : List (Value α)) (n : Nat) (m : Memory α ω) : Prop :=
  ∃ above, m.stack = above ++ st ∧ above.length ≤ n

theorem Memory.Above.mono {st : List (Value α)} {n k : Nat} (h : m.Above st n) (hn : n ≤ k) :
    m.Above st k := by
  obtain ⟨above, hst, hlen⟩ := h
  exact ⟨above, hst, Nat.le_trans hlen hn⟩

theorem Memory.Above.push {st : List (Value α)} {v : Value α} {n : Nat}
    (h : m.Above (v :: st) n) : m.Above st (n + 1) := by
  obtain ⟨above, hst, hlen⟩ := h
  exact ⟨above ++ [v], by simp [hst], by simpa using hlen⟩

section

variable {mb : BuilderMembers} {st : List (Value α)} {b : Finmap fun _ : Nat => String}
  {c : List Call} {w : ω} {r : Nat}

theorem surely_of_loads {text : String} (h : Loads p text x) (hp : P m)
    (hrest : Surely M lookup p P Q rest { m with stack := .text text :: m.stack }) :
    Surely M lookup p P Q (x :: rest) m := by
  obtain ⟨i, rfl, ht⟩ := h
  exact surely_cons (a := .load text) (by simp [Primitive.ofInsn?, ht]) (by simp) .load hp hrest

/-- The value of a segment is pushed with no more than two other values on top of the stack. -/
theorem surely_of_pushes {s : Segment} (hm : mb.Resolves lookup p) (h : Pushes mb p s xs)
    (hP : ∀ m₁ : Memory α ω, m₁.Above m.stack 3 → P m₁)
    (hQ : Q { m with
      stack := .text (M.value s) :: m.stack, calls := m.calls ++ (call? s).toList }) :
    Surely M lookup p P Q xs m := by
  have hp (above : List (Value α)) (b : Finmap fun _ : Nat => String) (c : List Call) (w : ω)
      (hlen : above.length ≤ 3) : P ⟨above ++ m.stack, b, c, w⟩ :=
    hP _ ⟨above, rfl, hlen⟩
  cases h with
  | literal hx =>
    refine surely_of_loads hx (hp [] _ _ _ (by simp)) ⟨hp [_] _ _ _ (by simp), ?_⟩
    simpa [value, call?] using hQ
  | unbound hx =>
    refine surely_of_loads hx (hp [] _ _ _ (by simp)) ⟨hp [_] _ _ _ (by simp), ?_⟩
    simpa [value, call?] using hQ
  | @bound b x y z hx hy hz =>
    refine surely_of_loads hx (hp [] _ _ _ (by simp)) ?_
    refine surely_of_loads hy (hp [_] _ _ _ (by simp)) ?_
    refine surely_of_loads hz (hp [_, _] _ _ _ (by simp)) ?_
    exact surely_cons hm.ofInsn?_lookup (by simp) .lookup (hp [_, _, _] _ _ _ (by simp))
      ⟨hp [_] _ _ _ (by simp), hQ⟩

/-- Segments are appended with no more than three values on top of the builder. -/
theorem surely_of_appends {ss : List Segment} {text : String} (hm : mb.Resolves lookup p)
    (h : Appends mb p ss xs)
    (hP : ∀ m₁ : Memory α ω, m₁.Above (.builder r :: st) 3 → P m₁)
    (hQ : Q ⟨.builder r :: st, b.insert r (text ++ M.valueOf ss),
      c ++ ss.filterMap call?, w⟩) :
    Surely M lookup p P Q xs ⟨.builder r :: st, b.insert r text, c, w⟩ := by
  induction h generalizing text c with
  | nil =>
    refine ⟨hP _ ⟨[], rfl, by simp⟩, ?_⟩
    simpa [valueOf] using hQ
  | @cons s rest xs ys hs _ ih =>
    have hone := hP ⟨.text (M.value s) :: .builder r :: st, b.insert r text,
      c ++ (call? s).toList, w⟩ ⟨[_], rfl, by simp⟩
    refine (surely_of_pushes hm hs hP ?_).append
    refine surely_cons hm.ofInsn?_append (by simp) (.append (Finmap.lookup_insert _)) hone ?_
    rw [Finmap.insert_insert]
    refine ih ?_
    rwa [append_valueOf_cons, append_calls_cons]

/-- What makes a builder leaves it on top, empty. -/
theorem surely_of_start (hm : mb.Resolves lookup p)
    (hP : ∀ m₁ : Memory α ω, m₁.Above m.stack 2 → P m₁)
    (hQ : ∀ r ∉ m.builders,
      Q ⟨.builder r :: m.stack, m.builders.insert r "", m.calls, m.world⟩) :
    Surely M lookup p P Q (Expander.start mb).toList m := by
  obtain ⟨st, b, c, w⟩ := m
  have hp (above : List (Value α)) (b : Finmap fun _ : Nat => String) (hlen : above.length ≤ 2) :
      P ⟨above ++ st, b, c, w⟩ :=
    hP _ ⟨above, rfl, hlen⟩
  refine ⟨hp [] _ (by simp), rfl, ?_, fun o m₁ hx => ?_⟩
  · obtain ⟨r, hr⟩ := Infinite.exists_notMem_finset b.keys
    exact ⟨_, .own hm.ofInsn?_builder rfl (.allocate fun hb => hr (Finmap.mem_keys.2 hb))⟩
  · obtain ⟨rfl, hdo⟩ := (Executes.own_iff hm.ofInsn?_builder rfl).1 hx
    cases hdo with
    | @allocate r _ _ _ _ hr =>
      refine ⟨rfl, surely_cons rfl (by simp) .duplicate (hp [_] _ (by simp)) ?_⟩
      exact surely_cons hm.ofInsn?_init (by simp) .construct (hp [_, _] _ (by simp))
        ⟨hp [_] _ (by simp), hQ r hr⟩

/-- The code of an expansion surely pushes the value of its segments, with no more than four values
on top of the stack at any time. -/
theorem surely_of_builds {ss : List Segment} {code : List Insn} (h : Builds lookup p ss code) :
    Surely M lookup p (·.Above m.stack 4)
      (fun m' => ∃ r ∉ m.builders,
        m' = { M.pushValue ss m with builders := m.builders.insert r (M.valueOf ss) }) code m := by
  obtain ⟨mb, middle, hm, happ, rfl⟩ := h
  refine Surely.append (Surely.append ?_)
  refine surely_of_start hm (fun m₁ h₁ => h₁.mono (by omega)) fun r hr => ?_
  refine surely_of_appends hm happ (fun m₁ h₁ => h₁.push) ?_
  rw [String.empty_append]
  refine surely_cons hm.ofInsn?_toText (by simp) (.toText (Finmap.lookup_insert _))
    ⟨[_], rfl, by simp⟩ ?_
  exact ⟨⟨[_], rfl, by simp⟩, r, hr, rfl⟩

/-- The code of an expansion with a lookup has a point that every run reaches with four values on
top of the stack: the builder and what the lookup is called with. -/
theorem exists_peak_of_builds {ss : List Segment} {code : List Insn} (h : Builds lookup p ss code)
    (hs : ss.any Segment.isBound = true) :
    ∃ front back, code = front ++ back ∧ Surely M lookup p (·.Above m.stack 4)
      (fun m₁ => ∃ above, m₁.stack = above ++ m.stack ∧ above.length = 4) front m := by
  obtain ⟨mb, middle, hm, happ, rfl⟩ := h
  obtain ⟨ss₁, xs, ys, b, x, y, z, rfl, happ₁, hx, hy, hz⟩ := happ.exists_bound hs
  refine ⟨(Expander.start mb).toList ++ xs ++ [x, y, z],
    ys ++ [.invoke Opcode.invokevirtual mb.toText], by simp, ?_⟩
  refine Surely.append (Surely.append ?_)
  refine surely_of_start hm (fun m₁ h₁ => h₁.mono (by omega)) fun r hr => ?_
  refine surely_of_appends hm happ₁ (fun m₁ h₁ => h₁.push) ?_
  refine surely_of_loads hx ⟨[_], rfl, by simp⟩ ?_
  refine surely_of_loads hy ⟨[_, _], rfl, by simp⟩ ?_
  refine surely_of_loads hz ⟨[_, _, _], rfl, by simp⟩ ?_
  exact ⟨⟨[_, _, _, _], rfl, by simp⟩, [_, _, _, _], rfl, rfl⟩

end

end Machine

end ClassTemplates
