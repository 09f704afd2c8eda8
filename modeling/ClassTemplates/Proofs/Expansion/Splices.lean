import ClassTemplates.Depth.Effect
import ClassTemplates.Proofs.Expansion.Code

/-!
# Code in place of instructions

Expanding the loads of a method puts code in the place of some of its instructions and leaves the
others, in order. The result is described by a list of splices: the instructions that were there,
each with the code that took its place, if any did.

## Main definitions

- `Splice`, `Splice.before`, `Splice.after` — what was there, and what is there now
- `Splice.replaced` — the instructions that were replaced
- `Splice.place` — where the code for an instruction starts
- `Expander.eligible?` — the text of a load that has to be expanded
- `Expander.Expands` — the splices of a run over instructions

## Main results

- `Expander.expandBody_eq_ok` — expanding a body is a list of splices
- `Expander.Expands.grown`, `splice_of_getElem?` — what it does to the pool, and what each splice is
- `Expander.Expands.splice_of_closed` — the same by a pool that the instructions stay inside of
-/

namespace ClassTemplates

/-- An instruction, and the code that is put in its place, if any is. -/
structure Splice where
  insn : Insn
  code : Option (List Insn)

namespace Splice

/-- What stands in the place of the instruction. -/
def result (x : Splice) : List Insn :=
  x.code.getD [x.insn]

/-- The instructions that were there. -/
def before (xs : List Splice) : List Insn :=
  xs.map insn

/-- The instructions that are there now. -/
def after (xs : List Splice) : List Insn :=
  xs.flatMap result

/-- The instructions that were replaced, each with its code. -/
def replaced (xs : List Splice) : List Splice :=
  xs.filter (·.code.isSome)

/-- The index at which the code for the instruction with an index starts. -/
def place (xs : List Splice) (k : Nat) : Nat :=
  (after (xs.take k)).length

/-- Code in the place of an instruction is never empty. -/
def Filled (xs : List Splice) : Prop :=
  ∀ x ∈ xs, x.result ≠ []

/-- Only loads are replaced, and by the kinds of instructions that expansions are made of. -/
def OfLoads (xs : List Splice) : Prop :=
  ∀ x ∈ xs, ∀ code, x.code = some code →
    (∃ i, x.insn = .ldc i) ∧ code ≠ [] ∧ ∀ y ∈ code, y.emitted

variable {xs ys : List Splice} {x : Splice} {k l : Nat}

@[simp] theorem before_nil : before [] = [] := rfl

@[simp] theorem before_cons : before (x :: xs) = x.insn :: before xs := rfl

@[simp] theorem after_nil : after [] = [] := rfl

@[simp] theorem after_cons : after (x :: xs) = x.result ++ after xs := rfl

@[simp] theorem after_append : after (xs ++ ys) = after xs ++ after ys := by
  simp [after]

theorem replaced_cons :
    replaced (x :: xs) = if x.code.isSome then x :: replaced xs else replaced xs :=
  List.filter_cons

theorem replaced_append : replaced (xs ++ ys) = replaced xs ++ replaced ys :=
  List.filter_append ..

theorem mem_replaced : x ∈ replaced xs ↔ x ∈ xs ∧ x.code.isSome = true :=
  List.mem_filter

theorem replaced_eq_nil : replaced xs = [] ↔ ∀ x ∈ xs, x.code = none := by
  simp [replaced]

@[simp] theorem length_before : (before xs).length = xs.length := by
  simp [before]

theorem result_of_none (h : x.code = none) : x.result = [x.insn] := by
  simp [result, h]

theorem result_of_some {code : List Insn} (h : x.code = some code) : x.result = code := by
  simp [result, h]

theorem OfLoads.filled (h : OfLoads xs) : Filled xs := by
  intro x hx
  cases hc : x.code with
  | none => simp [result_of_none hc]
  | some code =>
    rw [result_of_some hc]
    exact (h x hx code hc).2.1

theorem getElem?_before : (before xs)[k]? = (xs[k]?).map insn := by
  simp [before]

theorem drop_before : (before xs).drop k = before (xs.drop k) := by
  simp [before]

/-! ### Places -/

@[simp] theorem place_zero : place xs 0 = 0 := rfl

theorem place_succ (h : xs[k]? = some x) : place xs (k + 1) = place xs k + x.result.length := by
  simp [place, List.take_add_one, h]

/-- The code for an instruction stands at its place. -/
theorem after_eq (h : xs[k]? = some x) :
    ∃ front back, after xs = front ++ x.result ++ back ∧ front.length = place xs k := by
  obtain ⟨hk, hx⟩ := List.getElem?_eq_some_iff.1 h
  refine ⟨after (xs.take k), after (xs.drop (k + 1)), ?_, rfl⟩
  have hsplit : xs = xs.take k ++ x :: xs.drop (k + 1) := by
    rw [← hx, List.getElem_cons_drop, List.take_append_drop]
  rw [List.append_assoc, ← after_cons, ← after_append, ← hsplit]

theorem getElem?_after (h : xs[k]? = some x) {i : Nat} (hi : i < x.result.length) :
    (after xs)[place xs k + i]? = x.result[i]? := by
  obtain ⟨front, back, hafter, hfront⟩ := after_eq h
  rw [hafter, ← hfront, List.append_assoc, List.getElem?_append_right (Nat.le_add_right _ _),
    Nat.add_sub_cancel_left, List.getElem?_append_left hi]

/-- A later instruction has its code behind that of an earlier one. -/
theorem place_lt_place (hxs : Filled xs) (hkl : k < l) (hl : l ≤ xs.length) :
    place xs k < place xs l := by
  induction l with
  | zero => omega
  | succ l ih =>
    have hlt : l < xs.length := by omega
    have hsucc := place_succ (List.getElem?_eq_getElem hlt)
    have hpos := List.length_pos_iff.2 (hxs _ (List.getElem_mem hlt))
    by_cases hkl' : k < l
    · have := ih hkl' (by omega)
      omega
    · obtain rfl : k = l := by omega
      omega

theorem place_lt_iff (hxs : Filled xs) (hk : k ≤ xs.length) (hl : l ≤ xs.length) :
    place xs k < place xs l ↔ k < l := by
  constructor
  · intro h
    by_contra hn
    rcases Nat.lt_or_eq_of_le (Nat.le_of_not_lt hn) with hlk | rfl
    · have := place_lt_place hxs hlk hk
      omega
    · omega
  · intro h
    exact place_lt_place hxs h hl

/-- The code for an instruction that is kept is that instruction. -/
theorem getElem?_after_of_none (h : xs[k]? = some x) (hc : x.code = none) :
    (after xs)[place xs k]? = some x.insn := by
  have := getElem?_after h (i := 0) (by simp [result_of_none hc])
  simpa [result_of_none hc] using this

end Splice

namespace Expander

variable {catalog : Catalog} {lookup : LookupMethod} {e e' : Expander}

/-- The text that an instruction in front of `rest` loads, if it holds a bound token and does not go
to the lookup method. -/
def eligible? (catalog : Catalog) (lookup : LookupMethod) (p : Pool) (insn : Insn)
    (rest : List Insn) : Option String :=
  (loadedText? lookup p insn rest).filter catalog.bindsAny

/-- Expanding instructions one after the other, with the outcome for each. -/
inductive Expands (catalog : Catalog) (lookup : LookupMethod) :
    Expander → List Splice → Expander → Prop
  | nil (e : Expander) : Expands catalog lookup e [] e
  | cons {e e₁ e₂ : Expander} {x : Splice} {xs : List Splice} :
      (expandInsn catalog lookup x.insn (Splice.before xs)).run e = (.ok x.code, e₁) →
      Expands catalog lookup e₁ xs e₂ → Expands catalog lookup e (x :: xs) e₂

theorem expandOnto_eq_ok {done out : Array Insn} {count n : Nat} {insns : List Insn}
    (h : expandOnto catalog lookup done count insns e = (.ok (n, out), e')) :
    ∃ xs, Splice.before xs = insns ∧ Expands catalog lookup e xs e' ∧
      out.toList = done.toList ++ Splice.after xs ∧ n = count + xs.countP (·.code.isSome) := by
  induction insns generalizing done count e with
  | nil =>
    cases h
    exact ⟨[], rfl, .nil _, by simp, by simp⟩
  | cons insn rest ih =>
    rw [expandOnto] at h
    split at h
    · cases h
    · rename_i code e₁ hcode
      obtain ⟨xs, rfl, hx, hout, hn⟩ := ih h
      refine ⟨⟨insn, some code⟩ :: xs, rfl, .cons hcode hx, ?_, ?_⟩
      · simp [hout, Splice.result]
      · rw [hn, List.countP_cons_of_pos rfl]
        omega
    · rename_i e₁ hcode
      obtain ⟨xs, rfl, hx, hout, hn⟩ := ih h
      refine ⟨⟨insn, none⟩ :: xs, rfl, .cons hcode hx, ?_, ?_⟩
      · simp [hout, Splice.result]
      · rw [hn, List.countP_cons_of_neg (by simp)]

/-- Expanding a body puts splices in the place of its instructions and changes nothing else. -/
theorem expandBody_eq_ok {b b' : Body} {n : Nat}
    (h : (expandBody catalog lookup b).run e = (.ok (n, b'), e')) :
    ∃ xs, Splice.before xs = b.insns ∧ Expands catalog lookup e xs e' ∧
      b' = { b with insns := Splice.after xs } ∧ n = xs.countP (·.code.isSome) := by
  obtain ⟨⟨n', insns⟩, e₁, h₁, h⟩ := run_bind_eq_ok.1 h
  obtain ⟨hpair, rfl⟩ := run_pure_eq_ok.1 h
  cases hpair
  obtain ⟨⟨n'', out⟩, e₂, h₂, h₁⟩ := run_bind_eq_ok.1 h₁
  obtain ⟨hpair, rfl⟩ := run_pure_eq_ok.1 h₁
  cases hpair
  obtain ⟨xs, hb, hx, hout, hn⟩ := expandOnto_eq_ok h₂
  exact ⟨xs, hb, hx, by simp [hout], by simpa using hn⟩

/-! ### Any pool -/

theorem expandInsn_eq_ok {insn : Insn} {rest : List Insn} {code : Option (List Insn)}
    (h : (expandInsn catalog lookup insn rest).run e = (.ok code, e')) :
    (loadedText? lookup e.pool insn rest = none ∧ code = none ∧ e' = e) ∨
      ∃ text, loadedText? lookup e.pool insn rest = some text ∧
        (expand catalog lookup text).run e = (.ok code, e') := by
  obtain ⟨f, e₁, h₁, h⟩ := run_bind_eq_ok.1 h
  obtain ⟨rfl, rfl⟩ : e = f ∧ e = e₁ := by
    cases h₁
    exact ⟨rfl, rfl⟩
  split at h
  · rename_i text ht
    exact .inr ⟨text, ht, h⟩
  · rename_i ht
    obtain ⟨rfl, rfl⟩ := run_pure_eq_ok.1 h
    exact .inl ⟨ht, rfl, rfl⟩

theorem exists_ldc_of_loadedText? {p : Pool} {insn : Insn} {rest : List Insn} {text : String}
    (h : loadedText? lookup p insn rest = some text) :
    ∃ i, insn = .ldc i ∧ feedsLookup lookup p rest = false ∧ p.stringValue? i = some text := by
  unfold loadedText? at h
  split at h
  · rename_i i
    split at h
    · cases h
    · rename_i hf
      exact ⟨i, rfl, Bool.eq_false_iff.2 hf, h⟩
  · cases h

theorem Expands.ofLoads {xs : List Splice} (h : Expands catalog lookup e xs e') :
    Splice.OfLoads xs := by
  induction h with
  | nil => intro x hx; cases hx
  | @cons e e₁ e₂ y ys hy _ ih =>
    intro x hx code hcode
    rcases List.mem_cons.1 hx with rfl | hx
    · rcases expandInsn_eq_ok hy with ⟨-, hnone, -⟩ | ⟨text, ht, hexp⟩
      · rw [hnone] at hcode
        cases hcode
      · obtain ⟨i, hi, -⟩ := exists_ldc_of_loadedText? ht
        rw [hcode] at hexp
        exact ⟨⟨i, hi⟩, emitted_of_expand hexp⟩
    · exact ih x hx code hcode

/-! ### A pool in which the members resolve -/

theorem expandInsn_grown {insn : Insn} {rest : List Insn} {code : Option (List Insn)}
    (he : e.Ready lookup) (h : (expandInsn catalog lookup insn rest).run e = (.ok code, e')) :
    e.pool.GrownTo e'.pool ∧ e'.Ready lookup := by
  rcases expandInsn_eq_ok h with ⟨-, -, rfl⟩ | ⟨text, -, hexp⟩
  · exact ⟨.refl he.bounded, he⟩
  · obtain ⟨hg, hr, -⟩ := expand_eq_ok he hexp
    exact ⟨hg, hr⟩

theorem Expands.grown {xs : List Splice} (h : Expands catalog lookup e xs e')
    (he : e.Ready lookup) : e.pool.GrownTo e'.pool ∧ e'.Ready lookup := by
  induction h with
  | nil e => exact ⟨.refl he.bounded, he⟩
  | @cons e e₁ e₂ y ys hy _ ih =>
    obtain ⟨hg, hr⟩ := expandInsn_grown he hy
    obtain ⟨hg', hr'⟩ := ih hr
    exact ⟨hg.trans hg', hr'⟩

/-- What became of the instruction at an index: nothing, if it is not eligible in the pool at that
time, and else the code that builds its value. -/
theorem Expands.splice_of_getElem? {xs : List Splice} (h : Expands catalog lookup e xs e')
    (he : e.Ready lookup) {k : Nat} {x : Splice} (hk : xs[k]? = some x) :
    ∃ p, e.pool ≤ p ∧ p ≤ e'.pool ∧
      match eligible? catalog lookup p x.insn (Splice.before (xs.drop (k + 1))) with
      | none => x.code = none
      | some text =>
        ∃ code, x.code = some code ∧ Builds lookup e'.pool (Segment.ofText catalog text) code := by
  induction h generalizing k with
  | nil => cases hk
  | @cons e e₁ e₂ y ys hy hys ih =>
    have hstep : e.pool.GrownTo e₁.pool ∧ e₁.Ready lookup := expandInsn_grown he hy
    have hrest := hys.grown hstep.2
    cases k with
    | succ k =>
      obtain ⟨p, hp, hp', hx⟩ := ih hstep.2 hk
      exact ⟨p, Pool.le_trans hstep.1.le hp, hp', hx⟩
    | zero =>
      cases hk
      refine ⟨e.pool, Pool.le_refl _, (hstep.1.trans hrest.1).le, ?_⟩
      rw [Nat.zero_add, List.drop_one, List.tail_cons]
      rcases expandInsn_eq_ok hy with ⟨ht, hnone, -⟩ | ⟨text, ht, hexp⟩
      · simp [eligible?, ht, hnone]
      · obtain ⟨-, -, ⟨hb, hnone, -⟩ | ⟨hb, code, hcode, hbuilds⟩⟩ := expand_eq_ok he hexp
        · have hnot : (some text).filter catalog.bindsAny = none := by simp [Option.filter, hb]
          simpa only [eligible?, ht, hnot] using hnone
        · have hyes : (some text).filter catalog.bindsAny = some text := by
            simp [Option.filter, hb]
          simp only [eligible?, ht, hyes]
          exact ⟨code, hcode, hbuilds.mono hrest.1.le⟩

/-! ### A pool that its instructions stay inside of -/

theorem isLookup_eq_of_inside {p q : Pool} {i : UInt16} (h : p ≤ q) (hp : p.Closed)
    (hi : p.Inside i) : isLookup lookup q i = isLookup lookup p i := by
  unfold isLookup
  rw [Pool.member?_eq_of_inside h hp hi]

/-- It is enough that the first instruction that is not a label stays inside the pool. -/
theorem feedsLookup_eq_of_inside {p q : Pool} {rest : List Insn} (h : p ≤ q) (hp : p.Closed)
    (hi : ∀ opcode i, rest.find? (fun insn => !insn.isLabel) = some (.invoke opcode i) →
      p.Inside i) :
    feedsLookup lookup q rest = feedsLookup lookup p rest := by
  unfold feedsLookup
  split
  · rename_i opcode i hf
    rw [isLookup_eq_of_inside h hp (hi opcode i hf)]
  · rfl

theorem loadedText?_ldc_eq_of_inside {p q : Pool} {rest : List Insn} {i : UInt16} (h : p ≤ q)
    (hp : p.Closed) (hi : p.Inside i)
    (hrest : ∀ opcode i, rest.find? (fun insn => !insn.isLabel) = some (.invoke opcode i) →
      p.Inside i) :
    loadedText? lookup q (.ldc i) rest = loadedText? lookup p (.ldc i) rest := by
  simp only [loadedText?, feedsLookup_eq_of_inside h hp hrest,
    Pool.stringValue?_eq_of_inside h hp hi]

theorem loadedText?_eq_of_inside {p q : Pool} {insn : Insn} {rest : List Insn} (h : p ≤ q)
    (hp : p.Closed) (hi : ∀ x ∈ insn :: rest, p.Inside x.constantIndex) :
    loadedText? lookup q insn rest = loadedText? lookup p insn rest := by
  cases insn with
  | ldc i =>
    refine loadedText?_ldc_eq_of_inside h hp (hi (.ldc i) List.mem_cons_self) fun opcode j hf => ?_
    exact hi (.invoke opcode j) (List.mem_cons_of_mem _ (List.mem_of_find?_eq_some hf))
  | _ => rfl

theorem eligible?_eq_of_inside {p q : Pool} {insn : Insn} {rest : List Insn} (h : p ≤ q)
    (hp : p.Closed) (hi : ∀ x ∈ insn :: rest, p.Inside x.constantIndex) :
    eligible? catalog lookup q insn rest = eligible? catalog lookup p insn rest := by
  unfold eligible?
  rw [loadedText?_eq_of_inside h hp hi]

/-- For instructions that stay inside a closed pool, what is eligible is read off that pool, also if
the pool has grown before. -/
theorem Expands.splice_of_closed {p : Pool} {xs : List Splice} (h : Expands catalog lookup e xs e')
    (he : e.Ready lookup) (hp : p.Closed) (hle : p ≤ e.pool)
    (hi : ∀ x ∈ Splice.before xs, p.Inside x.constantIndex) {k : Nat} {x : Splice}
    (hk : xs[k]? = some x) :
    match eligible? catalog lookup p x.insn ((Splice.before xs).drop (k + 1)) with
    | none => x.code = none
    | some text =>
      ∃ code, x.code = some code ∧ Builds lookup e'.pool (Segment.ofText catalog text) code := by
  obtain ⟨q, hq, -, hx⟩ := h.splice_of_getElem? he hk
  have hin : ∀ y ∈ x.insn :: Splice.before (xs.drop (k + 1)), p.Inside y.constantIndex := by
    intro y hy
    refine hi y ?_
    rcases List.mem_cons.1 hy with rfl | hy
    · exact List.mem_map_of_mem (List.mem_of_getElem? hk)
    · rw [← Splice.drop_before] at hy
      exact List.mem_of_mem_drop hy
  rw [Splice.drop_before]
  rwa [eligible?_eq_of_inside (Pool.le_trans hle hq) hp hin] at hx

end Expander

end ClassTemplates
