import ClassTemplates.Proofs.Machine.Basic

/-!
# Straight code on the machine

The code of an expansion, run on the symbolic machine, pushes the value of its segments and leaves a
builder behind that nothing knows. Such builders, and a larger pool, make no difference to any other
instruction.

## Main definitions

- `Machine.RunsThrough` — running instructions one after the other

## Main results

- `Machine.Executes.beside`, `Executes.of_le` — more builders, and a larger pool
- `Machine.RunsThrough.steps` — straight code inside of a body
- `Machine.runsThrough_of_builds` — the code of an expansion pushes the value of its segments
-/

namespace ClassTemplates

namespace Machine

variable {α ω : Type} {M : Machine α ω} {lookup : LookupMethod} {p q : Pool}

/-! ### Builders that nothing knows -/

theorem union_insert {r : Nat} {t : String} {a g : Finmap fun _ : Nat => String} (h : r ∉ a) :
    a ∪ g.insert r t = (a ∪ g).insert r t := by
  refine Finmap.ext_lookup fun x => ?_
  by_cases hx : x = r
  · subst hx
    rw [Finmap.lookup_union_right h, Finmap.lookup_insert, Finmap.lookup_insert]
  · rw [Finmap.lookup_insert_of_ne _ hx]
    by_cases ha : x ∈ a
    · rw [Finmap.lookup_union_left ha, Finmap.lookup_union_left ha]
    · rw [Finmap.lookup_union_right ha, Finmap.lookup_union_right ha,
        Finmap.lookup_insert_of_ne _ hx]

theorem Primitive.Does.beside {a : Primitive} {m m' : Memory α ω}
    {g : Finmap fun _ : Nat => String} (h : a.Does M m m') (hg' : m'.builders.Disjoint g) :
    a.Does M (m.beside g) (m'.beside g) := by
  cases h with
  | load => exact .load
  | allocate hr =>
    have hrg := hg' _ (Finmap.mem_insert.2 (.inl rfl))
    simp only [Memory.beside, ← Finmap.insert_union]
    exact .allocate fun hr' => (Finmap.mem_union.1 hr').elim hr hrg
  | duplicate => exact .duplicate
  | construct => exact .construct
  | append hs =>
    simp only [Memory.beside, ← Finmap.insert_union]
    exact .append ((Finmap.lookup_union_left (Finmap.mem_of_lookup_eq_some hs)).trans hs)
  | toText hs =>
    exact .toText ((Finmap.lookup_union_left (Finmap.mem_of_lookup_eq_some hs)).trans hs)
  | lookup => exact .lookup

theorem Executes.beside {i : Insn} {m m' : Memory α ω} {o : Transfer α}
    {g : Finmap fun _ : Nat => String} (h : Executes M lookup p i m o m')
    (hg : m.builders.Disjoint g) (hg' : m'.builders.Disjoint g) :
    Executes M lookup p i (m.beside g) o (m'.beside g) := by
  cases h with
  | own ha hst hdo => exact .own ha hst (hdo.beside hg')
  | other hno hact => exact .other hno (M.act_beside hact hg hg')

/-! ### Larger pools -/

/-- An instruction that stays inside a closed pool has the same meaning in a larger one. -/
theorem Primitive.ofInsn?_eq_of_inside {i : Insn} (h : p ≤ q) (hp : p.Closed)
    (hi : p.Inside i.constantIndex) : ofInsn? lookup q i = ofInsn? lookup p i := by
  cases i with
  | ldc index => rw [ofInsn?, ofInsn?, Pool.stringValue?_eq_of_inside (i := index) h hp hi]
  | type opcode index => rw [ofInsn?, ofInsn?, Pool.className?_eq_of_inside (i := index) h hp hi]
  | invoke opcode index => rw [ofInsn?, ofInsn?, Pool.member?_eq_of_inside (i := index) h hp hi]
  | _ => rfl

theorem Executes.of_le {i : Insn} {m m' : Memory α ω} {o : Transfer α} (h : p ≤ q)
    (hp : p.Closed) (hi : p.Inside i.constantIndex) (hx : Executes M lookup p i m o m') :
    Executes M lookup q i m o m' := by
  have hsame : Primitive.ofInsn? lookup q i = Primitive.ofInsn? lookup p i :=
    Primitive.ofInsn?_eq_of_inside h hp hi
  cases hx with
  | own ha hst hdo => exact .own (hsame.trans ha) hst hdo
  | other hno hact => exact .other (fun a ha => hno a (hsame.symm.trans ha)) hact

end Machine

/-! ### The members of an expansion -/

namespace BuilderMembers.Resolves

open Machine

variable {lookup : LookupMethod} {p : Pool} {m : BuilderMembers} (h : m.Resolves lookup p)

include h

theorem ofInsn?_builder :
    Primitive.ofInsn? lookup p (.type Opcode.newObject m.builder) = some .allocate := by
  simp [Primitive.ofInsn?, h.builder]

theorem ofInsn?_init :
    Primitive.ofInsn? lookup p (.invoke Opcode.invokespecial m.init) = some .construct := by
  simp [Primitive.ofInsn?, h.init, Primitive.ofCall?]

theorem ofInsn?_append :
    Primitive.ofInsn? lookup p (.invoke Opcode.invokevirtual m.append) = some .append := by
  simp [Primitive.ofInsn?, h.append, Primitive.ofCall?, Opcode.invokespecial,
    Opcode.invokevirtual]

theorem ofInsn?_toText :
    Primitive.ofInsn? lookup p (.invoke Opcode.invokevirtual m.toText) = some .toText := by
  simp [Primitive.ofInsn?, h.toText, Primitive.ofCall?, Opcode.invokespecial,
    Opcode.invokevirtual]

theorem ofInsn?_lookup :
    Primitive.ofInsn? lookup p (.invoke Opcode.invokestatic m.lookup) = some .lookup := by
  simp [Primitive.ofInsn?, h.lookup, Primitive.ofCall?, Opcode.invokestatic,
    Opcode.invokespecial, Opcode.invokevirtual]

end BuilderMembers.Resolves

namespace Machine

variable {α ω : Type} {M : Machine α ω} {lookup : LookupMethod} {p q : Pool}

/-! ### Straight code -/

/-- Running instructions one after the other. -/
inductive RunsThrough (M : Machine α ω) (lookup : LookupMethod) (p : Pool) :
    List Insn → Memory α ω → Memory α ω → Prop
  | nil {m} : RunsThrough M lookup p [] m m
  | cons {i rest m m' m''} : i.isLabel = false → Executes M lookup p i m .next m' →
      RunsThrough M lookup p rest m' m'' → RunsThrough M lookup p (i :: rest) m m''

theorem RunsThrough.append {xs ys : List Insn} {m m' m'' : Memory α ω}
    (hx : RunsThrough M lookup p xs m m') (hy : RunsThrough M lookup p ys m' m'') :
    RunsThrough M lookup p (xs ++ ys) m m'' := by
  induction hx with
  | nil => exact hy
  | cons hl hi _ ih => exact .cons hl hi (ih hy)

theorem RunsThrough.single {i : Insn} {m m' : Memory α ω} (hl : i.isLabel = false)
    (h : Executes M lookup p i m .next m') : RunsThrough M lookup p [i] m m' :=
  .cons hl h .nil

/-- Straight code inside of a body takes the body from its start to its end. -/
theorem RunsThrough.steps {b : Body} {front code back : List Insn} {m m' : Memory α ω}
    (h : RunsThrough M lookup p code m m') (hb : b.insns = front ++ code ++ back) :
    Relation.ReflTransGen (Step M lookup p b fun _ => none) (some front.length, m)
      (some (front.length + code.length), m') := by
  induction h generalizing front with
  | nil => exact .refl
  | @cons i rest m m' m'' hl hi _ ih =>
    have hget : b.insns[front.length]? = some i := by simp [hb]
    have hsplit : b.insns = (front ++ [i]) ++ rest ++ back := by simp [hb]
    have hrest := ih hsplit
    rw [List.length_append, List.length_singleton] at hrest
    rw [List.length_cons, Nat.add_comm rest.length, ← Nat.add_assoc]
    exact .head (.insn hget hl rfl hi .next) hrest

section

variable {mb : BuilderMembers} {m : Memory α ω}

theorem append_valueOf_cons (text : String) (s : Segment) (rest : List Segment) :
    text ++ M.value s ++ M.valueOf rest = text ++ M.valueOf (s :: rest) := by
  simp [valueOf, String.append_assoc]

theorem append_calls_cons (c : List Call) (s : Segment) (rest : List Segment) :
    c ++ (call? s).toList ++ rest.filterMap call? = c ++ (s :: rest).filterMap call? := by
  cases hc : call? s <;> simp [hc]

theorem executes_of_loads {text : String} {x : Insn} (h : Loads p text x) :
    Executes M lookup p x m .next { m with stack := .text text :: m.stack } := by
  obtain ⟨i, rfl, ht⟩ := h
  exact .own (a := .load text) (by simp [Primitive.ofInsn?, ht]) rfl .load

theorem runsThrough_of_loads {text : String} {x : Insn} (h : Loads p text x) :
    RunsThrough M lookup p [x] m { m with stack := .text text :: m.stack } := by
  refine .single ?_ (executes_of_loads h)
  obtain ⟨i, rfl, -⟩ := h
  rfl

theorem runsThrough_of_pushes {s : Segment} {xs : List Insn} (hm : mb.Resolves lookup p)
    (h : Pushes mb p s xs) :
    RunsThrough M lookup p xs m
      { m with stack := .text (M.value s) :: m.stack, calls := m.calls ++ (call? s).toList } := by
  cases h with
  | literal hx => simpa [value, call?] using runsThrough_of_loads hx
  | unbound hx => simpa [value, call?] using runsThrough_of_loads hx
  | @bound b x y z hx hy hz =>
    have hloads : RunsThrough M lookup p [x, y, z] m
        { m with stack := .text b.fallback :: .text b.key :: .text b.moduleId :: m.stack } :=
      ((runsThrough_of_loads hx).append (runsThrough_of_loads hy)).append
        (runsThrough_of_loads hz)
    exact hloads.append (.single rfl (.own hm.ofInsn?_lookup rfl .lookup))

theorem runsThrough_of_appends {ss : List Segment} {xs : List Insn} {r : Nat} {text : String}
    {st : List (Value α)} {b : Finmap fun _ : Nat => String} {c : List Call} {w : ω}
    (hm : mb.Resolves lookup p) (h : Appends mb p ss xs) :
    RunsThrough M lookup p xs ⟨.builder r :: st, b.insert r text, c, w⟩
      ⟨.builder r :: st, b.insert r (text ++ M.valueOf ss), c ++ ss.filterMap call?, w⟩ := by
  induction h generalizing text c with
  | nil => simpa [valueOf] using RunsThrough.nil
  | @cons s rest xs ys hs _ ih =>
    have hpush := runsThrough_of_pushes (M := M)
      (m := ⟨.builder r :: st, b.insert r text, c, w⟩) hm hs
    have happend : Executes M lookup p (.invoke Opcode.invokevirtual mb.append)
        ⟨.text (M.value s) :: .builder r :: st, b.insert r text, c ++ (call? s).toList, w⟩ .next
        ⟨.builder r :: st, b.insert r (text ++ M.value s), c ++ (call? s).toList, w⟩ := by
      have hinsert : (b.insert r text).insert r (text ++ M.value s) =
          b.insert r (text ++ M.value s) := Finmap.insert_insert b
      rw [← hinsert]
      exact .own hm.ofInsn?_append rfl (.append (Finmap.lookup_insert _))
    have hrest := hpush.append (.cons rfl happend ih)
    rw [append_valueOf_cons, append_calls_cons] at hrest
    exact hrest

/-- The code of an expansion pushes the value of its segments and leaves a builder behind. -/
theorem runsThrough_of_builds {ss : List Segment} {code : List Insn} {r : Nat}
    (h : Builds lookup p ss code) (hr : r ∉ m.builders) :
    RunsThrough M lookup p code m
      { M.pushValue ss m with builders := m.builders.insert r (M.valueOf ss) } := by
  obtain ⟨mb, middle, hm, happ, rfl⟩ := h
  have hstart : RunsThrough M lookup p (Expander.start mb).toList m
      ⟨.builder r :: m.stack, m.builders.insert r "", m.calls, m.world⟩ :=
    .cons rfl (.own hm.ofInsn?_builder rfl (.allocate hr)) (.cons rfl (.own rfl rfl .duplicate)
      (.single rfl (.own hm.ofInsn?_init rfl .construct)))
  have hmiddle := hstart.append (runsThrough_of_appends (M := M) hm happ)
  rw [String.empty_append] at hmiddle
  exact hmiddle.append (.single rfl (.own hm.ofInsn?_toText rfl (.toText (Finmap.lookup_insert _))))

end

end Machine

end ClassTemplates
