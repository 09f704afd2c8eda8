import ClassTemplates.Body.ToCode
import ClassTemplates.Proofs.Insn.Encoding

/-!
# Laying instructions out

The two passes of the layout over instructions: where each label lies, and which bytes are made. The
bytes of well-shaped instructions read back as these instructions, at the offsets they were given.

## Main definitions

- `Layout.stop` — the offset behind instructions
- `Layout.labelOffset?` — the offset of the last place of a label
- `Layout.Encodes` — the bytes of instructions, one behind the other
- `Layout.placeIn` — what the layout has for a label
- `Layout.located` — instructions with their offsets, labels left out

## Main results

- `Layout.getElem?_offsets`, `length_eq_stop` — the first pass
- `Layout.toCode_eq` — both passes behind each other
- `Layout.toCode_eq_ok` — when a body can be laid out
- `Layout.bytes_eq_ok` — the second pass
- `Layout.Encodes.reads` — reading the bytes back
-/

namespace ClassTemplates.Layout

/-- The offset behind instructions that start at `start`. -/
def stop (start : Nat) : List Insn → Nat
  | [] => start
  | i :: rest => stop (start + i.length start) rest

/-- The offset of the last place of a label among instructions that start at `start`. -/
def labelOffset? (start : Nat) : List Insn → Label → Option Nat
  | [], _ => none
  | i :: rest, l =>
    (labelOffset? (start + i.length start) rest l).or
      (if i.placed? = some l then some start else none)

/-- The instructions with their offsets, without the places of labels. -/
def located (start : Nat) : List Insn → List (Nat × Insn)
  | [] => []
  | i :: rest =>
    if i.isLabel then located start rest else (start, i) :: located (start + i.length start) rest

/-- The bytes of instructions that start at `start`, one behind the other. -/
inductive Encodes (place : Label → Except LayoutError Nat) : Nat → List Insn → Bytes → Prop
  | nil {start : Nat} : Encodes place start [] []
  | cons {start : Nat} {i : Insn} {rest : List Insn} {front back : Bytes} :
      i.encode place start = .ok front → Encodes place (start + i.length start) rest back →
      Encodes place start (i :: rest) (front ++ back)

variable {place : Label → Except LayoutError Nat} {start : Nat} {xs ys insns : List Insn}
  {l : Label} {bytes : Bytes}

/-! ### Offsets -/

@[simp] theorem stop_append : stop start (xs ++ ys) = stop (stop start xs) ys := by
  induction xs generalizing start with
  | nil => rfl
  | cons i xs ih => exact ih

theorem le_stop : start ≤ stop start insns := by
  induction insns generalizing start with
  | nil => exact le_refl _
  | cons i rest ih => exact Nat.le_trans (Nat.le_add_right _ _) ih

@[simp] theorem stop_relabel {f : Label → Label} :
    stop start (insns.map (Insn.relabel f)) = stop start insns := by
  induction insns generalizing start with
  | nil => rfl
  | cons i rest ih => simp [stop, ih]

theorem labelOffset?_append :
    labelOffset? start (xs ++ ys) l =
      (labelOffset? (stop start xs) ys l).or (labelOffset? start xs l) := by
  induction xs generalizing start with
  | nil => simp [labelOffset?, stop]
  | cons i xs ih => simp [labelOffset?, stop, ih, Option.or_assoc]

/-- A label has no offset if it is placed nowhere. -/
theorem labelOffset?_eq_none_iff :
    labelOffset? start insns l = none ↔ ∀ i ∈ insns, i.placed? ≠ some l := by
  induction insns generalizing start with
  | nil => simp [labelOffset?]
  | cons i rest ih => simp [labelOffset?, ih, and_comm]

/-- The first pass finds the offset behind the instructions, and that of the last place of each
label. -/
theorem offsetsOnto_eq {found : Std.HashMap Label Nat} :
    (offsetsOnto found start insns).2 = stop start insns ∧
      ∀ l : Label, (offsetsOnto found start insns).1[l]? =
        (labelOffset? start insns l).or found[l]? := by
  induction insns generalizing found start with
  | nil => exact ⟨rfl, fun l => rfl⟩
  | cons i rest ih =>
    rw [offsetsOnto]
    refine ⟨ih.1, fun l => ?_⟩
    rw [ih.2, labelOffset?, Option.or_assoc]
    congr 1
    cases hp : i.placed? with
    | none => rfl
    | some l' =>
      by_cases hl : l' = l
      · subst hl
        simp
      · simp [hl, Std.HashMap.getElem?_insert]

theorem getElem?_offsets : (offsets insns)[l]? = labelOffset? 0 insns l := by
  rw [offsets, offsetsOnto_eq.2, Std.HashMap.getElem?_empty, Option.or_none]

theorem length_eq_stop : Layout.length insns = stop 0 insns :=
  offsetsOnto_eq.1

/-- The offset of a label among instructions, or a complaint about one that is placed nowhere. -/
def placeIn (insns : List Insn) (l : Label) : Except LayoutError Nat :=
  match labelOffset? 0 insns l with
  | some offset => .ok offset
  | none => .error (.unboundLabel l.id)

theorem placeIn_of_labelOffset? {offset : Nat} (h : labelOffset? 0 insns l = some offset) :
    placeIn insns l = .ok offset := by
  rw [placeIn, h]

/-- Laying a body out, with the offsets of its labels given outright. -/
theorem toCode_eq (b : Body) (maxStack : UInt16) :
    b.toCode maxStack =
      if stop 0 b.insns > maxLength then .error (.codeTooLarge (stop 0 b.insns))
      else (do
        let bytes ← Layout.bytes (placeIn b.insns) b.insns
        let handlers ← b.handlers.mapM (Layout.handler (placeIn b.insns))
        let attributes ← b.attributes.mapM (Layout.bodyAttribute (placeIn b.insns))
        pure ⟨maxStack, b.maxLocals, bytes, handlers, attributes⟩) := by
  have hplace : resolve (offsets b.insns) = placeIn b.insns := by
    funext l
    cases h : labelOffset? 0 b.insns l <;> simp only [resolve, placeIn, getElem?_offsets, h]
  rw [← hplace, ← length_eq_stop]
  rfl

/-- A body can be laid out if it is short enough and every part can. -/
theorem toCode_eq_ok {b : Body} {maxStack : UInt16} {c : Code} :
    b.toCode maxStack = .ok c ↔ stop 0 b.insns ≤ maxLength ∧
      Layout.bytes (placeIn b.insns) b.insns = .ok c.bytes ∧
      b.handlers.mapM (Layout.handler (placeIn b.insns)) = .ok c.handlers ∧
      b.attributes.mapM (Layout.bodyAttribute (placeIn b.insns)) = .ok c.attributes ∧
      c.maxStack = maxStack ∧ c.maxLocals = b.maxLocals := by
  rw [toCode_eq]
  constructor
  · intro h
    split at h
    · cases h
    · rename_i hlen
      obtain ⟨bytes, hbytes, h⟩ := bind_eq_ok.1 h
      obtain ⟨handlers, hhandlers, h⟩ := bind_eq_ok.1 h
      obtain ⟨attributes, hattributes, h⟩ := bind_eq_ok.1 h
      cases h
      exact ⟨Nat.le_of_not_lt hlen, hbytes, hhandlers, hattributes, rfl, rfl⟩
  · rintro ⟨hlen, hbytes, hhandlers, hattributes, rfl, hlocals⟩
    rw [if_neg (Nat.not_lt.2 hlen), ← hlocals]
    exact bind_eq_ok.2 ⟨_, hbytes, bind_eq_ok.2 ⟨_, hhandlers, bind_eq_ok.2 ⟨_, hattributes, rfl⟩⟩⟩

/-! ### Instructions with offsets -/

theorem located_cons {i : Insn} (h : i.isLabel = false) :
    located start (i :: insns) = (start, i) :: located (start + i.length start) insns := by
  rw [located, h, if_neg Bool.false_ne_true]

theorem located_append :
    located start (xs ++ ys) = located start xs ++ located (stop start xs) ys := by
  induction xs generalizing start with
  | nil => rfl
  | cons i xs ih =>
    obtain ⟨l, rfl⟩ | hi := i.label_or_not
    · exact ih
    · rw [List.cons_append, located_cons hi, located_cons hi, stop, ih]
      rfl

/-! ### Bytes -/

theorem bytesOnto_eq_ok {done out : Array UInt8} :
    bytesOnto place done insns = .ok out ↔
      ∃ bytes, Encodes place done.size insns bytes ∧ out.toList = done.toList ++ bytes := by
  -- the bytes that are done tell the position of the next instruction
  induction insns generalizing done with
  | nil =>
    constructor
    · intro h
      cases h
      exact ⟨[], .nil, by simp⟩
    · rintro ⟨bytes, hb, hout⟩
      cases hb
      rw [List.append_nil] at hout
      rw [Array.toList_inj.1 hout]
      rfl
  | cons i rest ih =>
    rw [bytesOnto]
    cases hi : i.encode place done.size with
    | error e =>
      constructor
      · intro h
        cases h
      · rintro ⟨bytes, hb, -⟩
        cases hb with
        | cons hi' _ =>
          rw [hi] at hi'
          cases hi'
    | ok front =>
      have hsize : (done ++ front).size = done.size + i.length done.size := by
        rw [← Array.length_toList, Array.toList_appendList, List.length_append,
          Array.length_toList, Insn.length_encode hi]
      rw [ih, hsize]
      constructor
      · rintro ⟨bytes, hb, hout⟩
        exact ⟨_, .cons hi hb, by simp [hout]⟩
      · rintro ⟨bytes, hb, hout⟩
        cases hb with
        | cons hi' hb =>
          rw [hi] at hi'
          cases hi'
          exact ⟨_, hb, by simp [hout]⟩

/-- The second pass puts the bytes of the instructions behind each other. -/
theorem bytes_eq_ok : Layout.bytes place insns = .ok bytes ↔ Encodes place 0 insns bytes := by
  unfold Layout.bytes
  constructor
  · intro h
    split at h
    · cases h
    · rename_i done hdone
      cases h
      obtain ⟨bytes, hb, hout⟩ := bytesOnto_eq_ok.1 hdone
      simpa [hout] using hb
  · intro h
    rw [bytesOnto_eq_ok.2 ⟨bytes, h, rfl⟩]
    rfl

theorem Encodes.length (h : Encodes place start insns bytes) :
    start + bytes.length = stop start insns := by
  induction h with
  | nil => rfl
  | cons hi _ ih =>
    rw [List.length_append, Insn.length_encode hi, ← Nat.add_assoc, ih]
    rfl

theorem Encodes.length_eq_stop (h : Encodes place 0 insns bytes) :
    bytes.length = stop 0 insns := by
  rw [← h.length, Nat.zero_add]

/-- The bytes of instructions are those of a leading part and then those of the rest. -/
theorem Encodes.split (h : Encodes place start (xs ++ ys) bytes) :
    ∃ front back, bytes = front ++ back ∧ Encodes place start xs front ∧
      Encodes place (stop start xs) ys back := by
  induction xs generalizing start bytes with
  | nil => exact ⟨[], bytes, rfl, .nil, h⟩
  | cons i xs ih =>
    cases h with
    | cons hi h =>
      obtain ⟨front, back, rfl, hf, hb⟩ := ih h
      exact ⟨_, back, (List.append_assoc _ _ _).symm, .cons hi hf, hb⟩

/-- The bytes of well-shaped instructions read back as these, each at its offset and with the
offsets of its labels as their names. -/
theorem Encodes.reads {f : Label → Label} (h : Encodes place start insns bytes)
    (hw : ∀ i ∈ insns, i.isLabel = true ∨ i.WellShaped)
    (hf : ∀ i ∈ insns, ∀ l ∈ i.targets, Insn.Resolves place f l)
    (hstop : stop start insns ≤ 65535) :
    Insn.Reads ⟨bytes, start⟩ (located start (insns.map (Insn.relabel f))) := by
  induction h with
  | nil => exact .nil
  | @cons start i rest front back hi _ ih =>
    rw [List.forall_mem_cons] at hw hf
    have hrest := ih hw.2 hf.2 hstop
    obtain ⟨l, rfl⟩ | hl := i.label_or_not
    · cases hi
      exact hrest
    · have hbound : start + i.length start ≤ 65535 := Nat.le_trans le_stop hstop
      obtain ⟨opcode, tail, rfl, hread⟩ :=
        Insn.readsBack_encode (hw.1.resolve_left (by simp [hl])) hf.1 hbound hi
      have hnext := hread back
      rw [Insn.length_encode hi] at hnext
      rw [List.map_cons, located_cons (Insn.isLabel_relabel.trans hl), Insn.length_relabel]
      exact .cons hnext hrest

end ClassTemplates.Layout
