import ClassTemplates.Proofs.Body.Layout
import ClassTemplates.Proofs.Body.Placements

/-!
# The two passes of the layout

The first pass adds up lengths to find where labels lie. The second one makes bytes, and takes the
number of bytes that are done for the position of the next instruction. Lengths and bytes are
separate definitions that go through the forms of an instruction each on its own, and they agree on
every instruction: where the first pass is when it comes to an instruction, there its bytes start.
Sums in words of four bytes come to the same lengths, unless a switch is too large for that.

## Main definitions

- `Insn.entries` — the number of cases of a switch
- `Insn.wordLength`, `Layout.wordStop` — lengths, added up in words of four bytes
- `Layout.StartsWith` — bytes start with those of the next instruction

## Main results

- `Insn.wordLength_ofNat`, `length_lt_of_entries` — lengths that are computed in words
- `Layout.labelOffset?_of_last` — the first pass at the last place of a label
- `Layout.Encodes.startsWith` — the second pass at any place
- `Layout.passes_agree` — both passes
-/

namespace ClassTemplates

/-! ### Lengths in words -/

namespace Insn

/-- The number of cases of a switch, the default left out. -/
def entries : Insn → Nat
  | tableSwitch _ _ _ targets => targets.length
  | lookupSwitch _ pairs => pairs.length
  | _ => 0

/-- The zero bytes behind the opcode of a switch, computed in words of four bytes that wrap. -/
def wordPadding (position : UInt32) : UInt32 :=
  (4 - (position + 1) % 4) % 4

/-- The number of bytes of an instruction, computed in words of four bytes that wrap. There is
nothing to compute for an instruction that is no switch. -/
def wordLength (position : UInt32) : Insn → UInt32
  | tableSwitch _ _ _ targets => 1 + wordPadding position + 12 + 4 * .ofNat targets.length
  | lookupSwitch _ pairs => 1 + wordPadding position + 8 + 8 * .ofNat pairs.length
  | insn => .ofNat (insn.length position.toNat)

variable {i : Insn} {position : Nat}

theorem wordPadding_ofNat : wordPadding (.ofNat position) = .ofNat (switchPadding position) := by
  -- a word wraps at a multiple of four
  apply UInt32.toNat_inj.1
  simp only [wordPadding, switchPadding, UInt32.toNat_mod, UInt32.toNat_sub, UInt32.toNat_add,
    UInt32.toNat_ofNat', UInt32.reduceToNat]
  omega

/-- Words have the lengths that they can hold. -/
theorem wordLength_ofNat : i.wordLength (.ofNat position) = .ofNat (i.length position) := by
  cases i with
  | tableSwitch otherwise low high targets =>
    simp only [wordLength, length, wordPadding_ofNat, UInt32.ofNat_add, UInt32.ofNat_mul]
    rfl
  | lookupSwitch otherwise pairs =>
    simp only [wordLength, length, wordPadding_ofNat, UInt32.ofNat_add, UInt32.ofNat_mul]
    rfl
  | _ => rfl

theorem switchPadding_lt : switchPadding position < 4 :=
  Nat.mod_lt _ (by decide)

/-- A word can hold the length of an instruction, unless that is a switch of very many cases. -/
theorem length_lt_of_entries (h : i.entries < 2 ^ 28) : i.length position < UInt32.size := by
  have hsize : UInt32.size = 4294967296 := rfl
  have hpadding := @switchPadding_lt position
  cases i with
  | tableSwitch | lookupSwitch =>
    simp only [entries] at h
    simp only [length]
    omega
  | ldc | localVar | iinc | jump =>
    simp only [length]
    split <;> omega
  | _ =>
    simp only [length]
    omega

end Insn

namespace Layout

/-- The offset behind instructions, added up in words of four bytes that wrap. -/
def wordStop (start : UInt32) : List Insn → UInt32
  | [] => start
  | i :: rest => wordStop (start + i.wordLength start) rest

variable {place : Label → Except LayoutError Nat} {insns front back : List Insn}
  {start : Nat} {bytes : Bytes} {l : Label}

theorem wordStop_ofNat : wordStop (.ofNat start) insns = .ofNat (stop start insns) := by
  induction insns generalizing start with
  | nil => rfl
  | cons i rest ih => rw [wordStop, Insn.wordLength_ofNat, ← UInt32.ofNat_add, ih, stop]

/-! ### Places among instructions -/

theorem labelOffset?_eq_none_iff_notMem :
    labelOffset? start insns l = none ↔ .label l ∉ insns := by
  rw [labelOffset?_eq_none_iff]
  constructor
  · intro h hl
    exact h _ hl rfl
  · intro h i hi hp
    exact h (Insn.placed?_eq_some.1 hp ▸ hi)

/-- The offset of a label is the one behind what stands in front of its last place. -/
theorem labelOffset?_of_last (h : .label l ∉ back) :
    labelOffset? start (front ++ .label l :: back) l = some (stop start front) := by
  have hhere : labelOffset? (stop start front) (.label l :: back) l = some (stop start front) := by
    show (labelOffset? (stop start front) back l).or _ = _
    rw [labelOffset?_eq_none_iff_notMem.2 h]
    simp [Insn.placed?]
  rw [labelOffset?_append, hhere]
  rfl

/-! ### Places among bytes -/

/-- The bytes start with those of the next instruction, encoded for `offset`. There are none if
nothing but labels is left. -/
def StartsWith (place : Label → Except LayoutError Nat) (offset : Nat) (insns : List Insn)
    (bytes : Bytes) : Prop :=
  match insns.find? fun i => !i.isLabel with
  | some i => ∃ own, i.encode place offset = .ok own ∧ own <+: bytes
  | none => bytes = []

theorem Encodes.startsWith (h : Encodes place start insns bytes) :
    StartsWith place start insns bytes := by
  induction h with
  | nil => rfl
  | @cons start i rest own bytes hi _ ih =>
    obtain ⟨l, rfl⟩ | hlabel := i.label_or_not
    · -- the place of a label takes no bytes
      cases hi
      exact ih
    · rw [StartsWith, List.find?_cons_of_pos (by simp [hlabel])]
      exact ⟨own, hi, List.prefix_append _ _⟩

/-- The bytes of instructions, taken apart at a place among them. -/
theorem exists_of_bytes_append (h : Layout.bytes place (front ++ back) = .ok bytes) :
    ∃ done rest, bytes = done ++ rest ∧ Layout.bytes place front = .ok done ∧
      done.length = stop 0 front ∧ Encodes place done.length back rest := by
  obtain ⟨done, rest, rfl, hfront, hback⟩ := (bytes_eq_ok.1 h).split
  have hlen := hfront.length_eq_stop
  exact ⟨done, rest, rfl, bytes_eq_ok.2 hfront, hlen, hlen ▸ hback⟩

/-- Where the first pass is when it comes to an instruction, there the second one makes its bytes,
as many as the first one goes on by, also if it adds up in words. So the offset that it finds for a
label is that of the next instruction's bytes, and the one behind everything is the number of all
bytes. -/
theorem passes_agree (h : Layout.bytes place insns = .ok bytes) :
    (∀ front i back, insns = front ++ i :: back → ∃ done own rest,
      bytes = done ++ (own ++ rest) ∧ Layout.bytes place front = .ok done ∧
      Layout.length front = done.length ∧ wordStop 0 front = .ofNat done.length ∧
      i.encode place done.length = .ok own ∧ own.length = i.length done.length ∧
      (i.entries < 2 ^ 28 → own.length = (i.wordLength (.ofNat done.length)).toNat)) ∧
    (∀ front l back, insns = front ++ .label l :: back → .label l ∉ back → ∃ done rest,
      bytes = done ++ rest ∧ Layout.bytes place front = .ok done ∧
      (offsets insns)[l]? = some done.length ∧ StartsWith place done.length back rest) ∧
    (∀ l, (offsets insns)[l]? = none ↔ .label l ∉ insns) ∧
    Layout.length insns = bytes.length ∧ wordStop 0 insns = .ofNat bytes.length := by
  have htotal := (bytes_eq_ok.1 h).length_eq_stop
  refine ⟨?_, ?_, fun l => getElem?_offsets ▸ labelOffset?_eq_none_iff_notMem,
    length_eq_stop.trans htotal.symm, htotal ▸ wordStop_ofNat⟩
  · rintro front i back rfl
    obtain ⟨done, rest, rfl, hdone, hlen, hrest⟩ := exists_of_bytes_append h
    cases hrest with
    | @cons _ _ _ own rest hi _ =>
      refine ⟨done, own, rest, rfl, hdone, length_eq_stop.trans hlen.symm, hlen ▸ wordStop_ofNat,
        hi, Insn.length_encode hi, fun hentries => ?_⟩
      rw [Insn.wordLength_ofNat, UInt32.toNat_ofNat_of_lt' (Insn.length_lt_of_entries hentries),
        Insn.length_encode hi]
  · rintro front l back rfl hback
    obtain ⟨done, rest, rfl, hdone, hlen, hrest⟩ := exists_of_bytes_append h
    refine ⟨done, rest, rfl, hdone, ?_, hrest.startsWith⟩
    rw [getElem?_offsets, labelOffset?_of_last hback, hlen]

/-- A switch behind a short constant has one byte of padding, and its label is placed twice. -/
def paddedInsns : List Insn :=
  [.label ⟨7⟩, .ldc 3, .label ⟨7⟩, .lookupSwitch ⟨8⟩ [(5, ⟨7⟩)], .label ⟨8⟩]

theorem passes_agree_padded : ∃ bytes,
    Layout.bytes (placeIn paddedInsns) paddedInsns = .ok bytes ∧ bytes.length = 20 ∧
    ∃ done rest, bytes = done ++ rest ∧ (offsets paddedInsns)[(⟨7⟩ : Label)]? = some done.length ∧
      StartsWith (placeIn paddedInsns) done.length
        [.lookupSwitch ⟨8⟩ [(5, ⟨7⟩)], .label ⟨8⟩] rest := by
  have hbytes : Layout.bytes (placeIn paddedInsns) paddedInsns =
      .ok [0x12, 3, 0xab, 0, 0, 0, 0, 18, 0, 0, 0, 1, 0, 0, 0, 5, 0, 0, 0, 0] := by
    rfl
  obtain ⟨-, hlabels, -⟩ := passes_agree hbytes
  obtain ⟨done, rest, hsplit, -, hoffset, hnext⟩ :=
    hlabels [.label ⟨7⟩, .ldc 3] ⟨7⟩ [.lookupSwitch ⟨8⟩ [(5, ⟨7⟩)], .label ⟨8⟩] rfl (by simp)
  exact ⟨_, hbytes, rfl, done, rest, hsplit, hoffset, hnext⟩

end Layout

end ClassTemplates
