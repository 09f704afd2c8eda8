import Mathlib.Data.List.Chain
import ClassTemplates.Proofs.Body.Failures
import ClassTemplates.Proofs.Body.Labels

/-!
# Distances of frames and their offsets

The first distance of a stack map counts from the start of the code; any other leaves out the one
byte by which offsets have to increase. So a distance of two bytes gives every frame an offset in a
window of 65536 places, and the distances can be told from the offsets. As many frames as a table
can count stay within the offsets of four bytes.

## Main definitions

- `Frame.leastAfter` — the least offset of the next frame
- `Frame.wordOffsets?` — the offsets, added up in words of four bytes

## Main results

- `Frame.deltaAfter?_eq_some` — the distance of an offset
- `Frame.wordOffsets?_eq` — the additions that stay within a word
- `Frame.offsets_correspond` — offsets and distances say the same
-/

namespace ClassTemplates

namespace Frame

/-! ### Windows of offsets -/

/-- The least offset of a frame behind one at `previous`. -/
def leastAfter : Option Nat → Nat
  | none => 0
  | some p => p + 1

variable {previous : Option Nat} {offset : Nat} {delta : UInt16} {frames : List Frame}

theorem offsetAfter_eq : offsetAfter previous delta = leastAfter previous + delta.toNat := by
  cases previous with
  | none => exact (Nat.zero_add _).symm
  | some p => exact Nat.add_right_comm p _ 1

/-- An offset in the window behind `previous` has a distance. -/
theorem exists_deltaAfter?_iff : (∃ delta, deltaAfter? previous offset = some delta) ↔
    leastAfter previous ≤ offset ∧ offset ≤ leastAfter previous + 65535 := by
  have hwindow : leastAfter previous ≤ offset ∧ offset - leastAfter previous ≤ 0xffff ↔
      leastAfter previous ≤ offset ∧ offset ≤ leastAfter previous + 65535 := by
    omega
  rw [← hwindow, ← Option.isSome_iff_exists]
  cases previous <;> simp [deltaAfter?, leastAfter]

/-- The distance of an offset is the one that leads to it. -/
theorem deltaAfter?_eq_some :
    deltaAfter? previous offset = some delta ↔ offsetAfter previous delta = offset := by
  refine ⟨offsetAfter_of_deltaAfter?, fun h => ?_⟩
  rw [offsetAfter_eq] at h
  have hlt := delta.toNat_lt
  obtain ⟨delta', hdelta'⟩ : ∃ delta', deltaAfter? previous offset = some delta' :=
    exists_deltaAfter?_iff.2 (by omega)
  have hback := offsetAfter_of_deltaAfter? hdelta'
  rw [offsetAfter_eq, ← h] at hback
  rw [hdelta', UInt16.toNat_inj.1 (Nat.add_left_cancel hback)]

/-- The distances of the offsets of frames are those of the frames. -/
theorem deltasFrom?_offsetsFrom :
    deltasFrom? previous (offsetsFrom previous frames) = some (frames.map (·.delta)) := by
  induction frames generalizing previous with
  | nil => rfl
  | cons f frames ih => simp [offsetsFrom, deltasFrom?, deltaAfter?_eq_some.2 rfl, ih]

/-- Offsets have distances if each one is in the window behind the one before. -/
theorem exists_deltasFrom?_iff {offsets : List Nat} :
    (∃ deltas, deltasFrom? previous offsets = some deltas) ↔
      (∀ o ∈ offsets.head?, leastAfter previous ≤ o ∧ o ≤ leastAfter previous + 65535) ∧
        offsets.IsChain fun a b => a < b ∧ b ≤ a + 65536 := by
  induction offsets generalizing previous with
  | nil => simp [deltasFrom?]
  | cons o offsets ih =>
    have hwindow (o' : Nat) :
        leastAfter (some o) ≤ o' ∧ o' ≤ leastAfter (some o) + 65535 ↔ o < o' ∧ o' ≤ o + 65536 := by
      show o + 1 ≤ o' ∧ o' ≤ o + 1 + 65535 ↔ _
      omega
    have hstep : (∃ deltas, deltasFrom? previous (o :: offsets) = some deltas) ↔
        (∃ delta, deltaAfter? previous o = some delta) ∧
          ∃ deltas, deltasFrom? (some o) offsets = some deltas := by
      constructor
      · rintro ⟨deltas, h⟩
        rw [deltasFrom?] at h
        obtain ⟨delta, hdelta, h⟩ := Option.bind_eq_some_iff.1 h
        obtain ⟨rest, hrest, -⟩ := Option.bind_eq_some_iff.1 h
        exact ⟨⟨delta, hdelta⟩, rest, hrest⟩
      · rintro ⟨⟨delta, hdelta⟩, rest, hrest⟩
        exact ⟨delta :: rest, by simp [deltasFrom?, hdelta, hrest]⟩
    rw [hstep, exists_deltaAfter?_iff, ih, List.isChain_cons]
    simp only [hwindow, List.head?_cons, Option.mem_some_iff, forall_eq']

theorem map_delta_withDeltas {deltas : List UInt16} (h : deltas.length = frames.length) :
    (withDeltas frames deltas).map (·.delta) = deltas := by
  rw [withDeltas_eq h, List.map_map]
  exact List.map_snd_zip (Nat.le_of_eq h)

/-- Frames with the distances of offsets stand at these. -/
theorem offsets_withDeltas {offsets : List Nat} {deltas : List UInt16}
    (h : deltas? offsets = some deltas) (hlen : frames.length = offsets.length) :
    Frame.offsets (withDeltas frames deltas) = offsets := by
  have hdeltas : deltas.length = frames.length := (length_deltasFrom? h).trans hlen.symm
  apply offsetsFrom_of_deltasFrom?
  rw [map_delta_withDeltas hdeltas]
  exact h

/-- Every frame takes its offset at most 65536 places further. -/
theorem offsetsFrom_lt : ∀ o ∈ offsetsFrom previous frames,
    o < leastAfter previous + 65536 * frames.length := by
  induction frames generalizing previous with
  | nil => exact fun o ho => (List.not_mem_nil ho).elim
  | cons f frames ih =>
    have hdelta : f.delta.toNat < 65536 := f.delta.toNat_lt
    have hlt : offsetAfter previous f.delta < leastAfter previous + 65536 := by
      rw [offsetAfter_eq]
      omega
    rw [offsetsFrom, List.length_cons]
    intro o ho
    obtain hfirst | ho := List.mem_cons.1 ho
    · omega
    · have hrest := ih o ho
      rw [leastAfter] at hrest
      omega

/-! ### Additions in words -/

/-- The sum of two words, if a word can hold it. -/
def wordSum? (a b : UInt32) : Option UInt32 :=
  if a.toNat + b.toNat < UInt32.size then some (a + b) else none

/-- The offset of a frame behind one at `previous`, if every sum fits into a word. -/
def wordOffsetAfter? (previous : Option UInt32) (delta : UInt16) : Option UInt32 :=
  match previous with
  | none => some delta.toUInt32
  | some p => do
    let sum ← wordSum? p delta.toUInt32
    wordSum? sum 1

/-- The offsets of frames that follow one at `previous`, if every sum fits into a word. -/
def wordOffsetsFrom? (previous : Option UInt32) : List Frame → Option (List UInt32)
  | [] => some []
  | f :: frames => do
    let offset ← wordOffsetAfter? previous f.delta
    let offsets ← wordOffsetsFrom? (some offset) frames
    pure (offset :: offsets)

/-- The offset of each frame of a table, if every sum fits into a word. -/
def wordOffsets? (frames : List Frame) : Option (List UInt32) :=
  wordOffsetsFrom? none frames

theorem wordSum?_eq {a b : UInt32} (h : a.toNat + b.toNat < UInt32.size) :
    ∃ sum, wordSum? a b = some sum ∧ sum.toNat = a.toNat + b.toNat :=
  ⟨a + b, if_pos h, by rw [UInt32.toNat_add, Nat.mod_eq_of_lt h]⟩

theorem wordOffsetAfter?_eq {previous : Option UInt32}
    (h : offsetAfter (previous.map (·.toNat)) delta < UInt32.size) :
    ∃ offset, wordOffsetAfter? previous delta = some offset ∧
      offset.toNat = offsetAfter (previous.map (·.toNat)) delta := by
  cases previous with
  | none => exact ⟨_, rfl, UInt16.toNat_toUInt32 delta⟩
  | some p =>
    have hfit : p.toNat + delta.toNat + 1 < UInt32.size := h
    have hdelta := UInt16.toNat_toUInt32 delta
    -- the sum on the way is below the one that counts
    obtain ⟨sum, hsum, hsumNat⟩ := @wordSum?_eq p delta.toUInt32 (by omega)
    have hone : UInt32.toNat 1 = 1 := rfl
    obtain ⟨offset, hoffset, hoffsetNat⟩ := @wordSum?_eq sum 1 (by omega)
    refine ⟨offset, by simp [wordOffsetAfter?, hsum, hoffset], ?_⟩
    show offset.toNat = p.toNat + delta.toNat + 1
    omega

theorem wordOffsetsFrom?_eq {previous : Option UInt32}
    (h : ∀ o ∈ offsetsFrom (previous.map (·.toNat)) frames, o < UInt32.size) :
    ∃ offsets, wordOffsetsFrom? previous frames = some offsets ∧
      offsets.map (·.toNat) = offsetsFrom (previous.map (·.toNat)) frames := by
  induction frames generalizing previous with
  | nil => exact ⟨[], rfl, rfl⟩
  | cons f frames ih =>
    rw [offsetsFrom, List.forall_mem_cons] at h
    obtain ⟨offset, hoffset, hnat⟩ := wordOffsetAfter?_eq h.1
    rw [← hnat] at h
    obtain ⟨offsets, hoffsets, hmap⟩ := @ih (some offset) h.2
    refine ⟨offset :: offsets, by simp [wordOffsetsFrom?, hoffset, hoffsets], ?_⟩
    rw [List.map_cons, offsetsFrom, hmap, ← hnat]
    rfl

/-- Where every offset fits into a word, no sum on the way to it overflows. -/
theorem wordOffsets?_eq (h : ∀ o ∈ offsets frames, o < UInt32.size) :
    ∃ words, wordOffsets? frames = some words ∧ words.map (·.toNat) = offsets frames :=
  @wordOffsetsFrom?_eq frames none h

/-! ### Both directions -/

/-- The offsets of a table increase and are added up without overflow, and the distances can be told
from them. Any offsets have distances if the first fits into two bytes and each one is at most 65536
behind the one before; frames that take these distances stand at the offsets. -/
theorem offsets_correspond (hlen : frames.length ≤ 65535) :
    ((offsets frames).Pairwise (· < ·) ∧
      (∃ words, wordOffsets? frames = some words ∧ words.map (·.toNat) = offsets frames) ∧
      deltas? (offsets frames) = some (frames.map (·.delta))) ∧
    ∀ os : List Nat,
      ((∃ deltas, deltas? os = some deltas) ↔
        (∀ o ∈ os.head?, o ≤ 65535) ∧ os.IsChain fun a b => a < b ∧ b ≤ a + 65536) ∧
      ∀ (deltas : List UInt16) (others : List Frame),
        deltas? os = some deltas → others.length = os.length →
        offsets (withDeltas others deltas) = os ∧
          ((∀ o ∈ os, o < UInt32.size) → ∃ words,
            wordOffsets? (withDeltas others deltas) = some words ∧ words.map (·.toNat) = os) := by
  have hfit : ∀ o ∈ offsets frames, o < UInt32.size := by
    intro o ho
    have hlt : o < 0 + 65536 * frames.length := offsetsFrom_lt o ho
    have hsize : UInt32.size = 4294967296 := rfl
    omega
  refine ⟨⟨pairwise_offsetsFrom.1, wordOffsets?_eq hfit, deltasFrom?_offsetsFrom⟩,
    fun os => ⟨?_, ?_⟩⟩
  · have hhead (o : Nat) : leastAfter none ≤ o ∧ o ≤ leastAfter none + 65535 ↔ o ≤ 65535 := by
      show 0 ≤ o ∧ o ≤ 0 + 65535 ↔ _
      omega
    have hiff := @exists_deltasFrom?_iff none os
    simp only [hhead] at hiff
    exact hiff
  · intro deltas others hdeltas hothers
    have hback := @offsets_withDeltas others os deltas hdeltas hothers
    refine ⟨hback, fun hsmall => ?_⟩
    rw [← hback] at hsmall
    obtain ⟨words, hwords, hnat⟩ := wordOffsets?_eq hsmall
    exact ⟨words, hwords, hnat.trans hback⟩

/-- The first window and the ones behind it differ by one place. -/
theorem offsets_correspond_widest :
    [(⟨65535, .same⟩ : Frame), ⟨65535, .chop 1⟩].length ≤ 65535 ∧
      offsets [⟨65535, .same⟩, ⟨65535, .chop 1⟩] = [65535, 131071] ∧
      deltas? [65535, 131071] = some [65535, 65535] ∧
      deltas? [65535, 131072] = none := by
  have hlen : [(⟨65535, .same⟩ : Frame), ⟨65535, .chop 1⟩].length ≤ 65535 := by decide
  have hcorrespond := offsets_correspond hlen
  refine ⟨hlen, rfl, hcorrespond.1.2.2, ?_⟩
  rw [← Option.not_isSome_iff_eq_none, Option.isSome_iff_exists, (hcorrespond.2 _).1]
  simp

end Frame

end ClassTemplates
