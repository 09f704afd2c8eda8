import ClassTemplates.Proofs.Body.Failures
import ClassTemplates.Proofs.Insn.Spans

/-!
# Laying out what was read

Instructions that were read from code are laid out again in no more bytes than it has. One of them
may come out shorter, and then a switch behind it is padded with more bytes. But the operands of a
switch are aligned: if it starts no later than before, it ends no later. So the argument is about
where instructions end, and their lengths alone would not do.

## Main results

- `Insn.add_length_le_add_length` — an instruction that starts no later
- `Insn.Reads.exists_behind` — leading instructions, read and laid out
- `Body.toCode_failsWith_of_ofCode` — why a body that was not edited has no byte form
- `Insn.relaid_of_decode` — the bytes and the new places of all instructions
-/

namespace ClassTemplates

/-! ### Where instructions end -/

namespace Insn

variable {start start' : Nat}

/-- An instruction that starts no later ends no later, whatever its padding is. -/
theorem add_length_le_add_length {i : Insn} (h : start ≤ start') :
    start + i.length start ≤ start' + i.length start' := by
  cases i with
  | tableSwitch | lookupSwitch =>
    simp only [length, switchPadding]
    omega
  | _ => exact Nat.add_le_add_right h _

/-- Behind a shorter instruction a switch may be longer, but both end at 20 here. -/
example : (tableSwitch ⟨20⟩ 0 0 [⟨20⟩]).length 2 = 18 ∧
    (tableSwitch ⟨20⟩ 0 0 [⟨20⟩]).length 3 = 17 := by
  decide

/-- Leading instructions that are laid out from no later on than they were read from end no later
than they did. -/
theorem Reads.exists_behind {c : Cursor} {front back : List (Nat × Insn)}
    (h : Reads c (front ++ back)) (hstart : start ≤ c.position) :
    ∃ behind, c.Advances behind ∧ Reads behind back ∧
      Layout.stop start (front.map (·.2)) ≤ behind.position := by
  induction front generalizing c start with
  | nil => exact ⟨c, .refl c, h, hstart⟩
  | cons x front ih =>
    cases h with
    | @cons opcode rest position i next _ hi hrest =>
      -- read at `position` but laid out at `start`, where the padding may be another one
      have hend : start + i.length start ≤ next.position :=
        Nat.le_trans (add_length_le_add_length hstart) (add_length_le_of_readerBehind hi)
      obtain ⟨behind, hadvances, hback, hstop⟩ := ih hrest hend
      obtain ⟨span, hpass, -⟩ := readsBack_of_readerBehind hi
      exact ⟨behind, Cursor.Advances.trans ⟨span, hpass⟩ hadvances, hback, hstop⟩

/-- An instruction is laid out again no later than where it was read. -/
theorem Reads.stop_le {code : Bytes} {front back : List (Nat × Insn)} {x : Nat × Insn}
    (h : Reads (.start code) (front ++ x :: back)) :
    Layout.stop 0 (front.map (·.2)) ≤ x.1 := by
  obtain ⟨behind, -, hback, hstop⟩ := h.exists_behind (le_refl 0)
  rw [hback.fst_head]
  exact hstop

/-- All instructions are laid out again in no more bytes than they were read from. -/
theorem Reads.stop_le_length {code : Bytes} {decoded : List (Nat × Insn)}
    (h : Reads (.start code) decoded) : Layout.stop 0 (decoded.map (·.2)) ≤ code.length := by
  rw [← List.append_nil decoded] at h
  obtain ⟨behind, hadvances, -, hstop⟩ := h.exists_behind (le_refl 0)
  have hend : behind.position + behind.rest.length = 0 + code.length :=
    hadvances.position_add_length
  omega

end Insn

/-! ### Bodies -/

namespace Body

variable {c : Code} {decoded : List (Nat × Insn)} {used : Nat → Bool} {stop start : Nat}

/-- Labels take no bytes. -/
theorem stop_placeLabels :
    Layout.stop start (placeLabels used decoded stop) =
      Layout.stop start (decoded.map (·.2)) := by
  induction decoded generalizing start with
  | nil => exact Splice.stop_mark (o := stop)
  | cons x decoded ih =>
    rw [Splice.placeLabels_cons, Layout.stop_append, Splice.stop_mark]
    exact ih

/-- A body that was not edited has a branch that does not reach, if its layout fails. It is never
too long, as long as the code that it was made from was not. -/
theorem toCode_failsWith_of_ofCode {b : Body} {maxStack : UInt16} (h : ofCode c = .ok b)
    (hlen : c.bytes.length ≤ 65535) :
    FailsWith (fun fault => ∃ position target, fault = .branchTooFar position target)
      (b.toCode maxStack) := by
  obtain ⟨decoded, hd, -, rfl⟩ := ofCode_eq_ok.1 h
  obtain ⟨_, xs, hedit⟩ := exists_editOf_of_ofCode h
  refine hedit.toCode_failsWith_of_stop_le (fun i hi => (List.not_mem_nil hi).elim)
    (fun position target => ⟨position, target, rfl⟩) ?_
  calc Layout.stop 0 (placeLabels (c.references decoded).contains decoded c.bytes.length)
      = Layout.stop 0 (decoded.map (·.2)) := stop_placeLabels
    _ ≤ c.bytes.length := hd.stop_le_length
    _ ≤ Layout.maxLength := hlen

end Body

/-! ### Both layouts -/

namespace Insn

/-- Instructions that were read have the bytes of the code one behind the other, from its first byte
to its last. Laid out again they start no later than where they were read, and take no more bytes
than the code has. So the body of code that is short enough is never too long. -/
theorem relaid_of_decode {code : Bytes} {decoded : List (Nat × Insn)}
    (h : decode code = .ok decoded) :
    (∃ spans : List Bytes, spans.flatten = code ∧
      List.Forall₂ (fun x span => ReadsBack x.1 span x.2) decoded spans ∧
      decoded.map (·.1) = spanOffsets 0 spans) ∧
    (∀ x, decoded.head? = some x → x.1 = 0) ∧
    (decoded.map (·.1)).Pairwise (· < ·) ∧
    (∀ front x back, decoded = front ++ x :: back → Layout.length (front.map (·.2)) ≤ x.1) ∧
    Layout.length (decoded.map (·.2)) ≤ code.length ∧
    (∀ c b maxStack, c.bytes = code → code.length ≤ 65535 → Body.ofCode c = .ok b →
      ∀ n, b.toCode maxStack ≠ .error (.codeTooLarge n)) := by
  have hreads := decode_eq_ok.1 h
  refine ⟨hreads.exists_spans, fun x hx => ?_, hreads.sorted, ?_, ?_, ?_⟩
  · obtain ⟨behind, rfl⟩ := List.head?_eq_some_iff.1 hx
    exact hreads.fst_head
  · rintro front x back rfl
    rw [Layout.length_eq_stop]
    exact hreads.stop_le
  · rw [Layout.length_eq_stop]
    exact hreads.stop_le_length
  · rintro c b maxStack rfl hlen hb n hfault
    obtain ⟨position, target, hne⟩ := Body.toCode_failsWith_of_ofCode hb hlen _ hfault
    cases hne

/-- A constant that needs no wide instruction, and a switch that is padded once the constant has
none. -/
def narrowedCode : Code where
  maxStack := 1
  maxLocals := 0
  bytes := [0x13, 0, 5, 0xaa, 0, 0, 0, 17, 0, 0, 0, 0, 0, 0, 0, 0, 0, 0, 0, 17, 0xb1]
  handlers := []
  attributes := []

theorem relaid_of_decode_narrowed : ∃ decoded b,
    decode narrowedCode.bytes = .ok decoded ∧ Body.ofCode narrowedCode = .ok b ∧
      decoded.map (·.1) = [0, 3, 20] ∧ Layout.length (decoded.map (·.2)) ≤ 21 ∧
      ∀ n, b.toCode 1 ≠ .error (.codeTooLarge n) := by
  have hd : decode narrowedCode.bytes = .ok [(0, .ldc 5), (3, .tableSwitch ⟨20⟩ 0 0 [⟨20⟩]),
      (20, .op 0xb1)] := by decide +kernel
  have href : ∀ o ∈ narrowedCode.references [(0, .ldc 5), (3, .tableSwitch ⟨20⟩ 0 0 [⟨20⟩]),
      (20, .op 0xb1)], narrowedCode.IsPlace [(0, .ldc 5), (3, .tableSwitch ⟨20⟩ 0 0 [⟨20⟩]),
        (20, .op 0xb1)] o := by
    unfold Code.IsPlace
    decide
  have hb := Body.ofCode_eq_ok.2 ⟨_, decode_eq_ok.1 hd, href, rfl⟩
  obtain ⟨-, -, -, -, hlen, hfits⟩ := relaid_of_decode hd
  exact ⟨_, _, hd, hb, rfl, hlen, hfits _ _ 1 rfl (by decide) hb⟩

end Insn

end ClassTemplates
