import ClassTemplates.Frame.Binary
import ClassTemplates.Proofs.Format.Readers

/-!
# The byte form of stack maps

The first byte of a frame tells its shape. A short shape is written in its long form where its
distance does not fit, and that form is what is read back: the table says the same, and is written
in the same bytes.

## Main definitions

- `Frame.Sized` — the counts of a frame fit its shape
- `Frame.AsRead` — a frame in the form in which it is read
- `Frame.reread` — a frame as it is read back

## Main results

- `VerificationType.accepts_reader`, `Frame.accepts_reader`, `Frame.accepts_tableReader` — what is
  read
- `Frame.toBytes_reread`, `Sized.asRead_reread` — a frame that is read back
- `Frame.tableReader_of_sized` — a table that is read back
-/

namespace ClassTemplates

open Reader (run_bind_eq_ok run_pure_eq_ok run_bind_of_ok AcceptsWritten passes_byte passes_word16)

/-! ### Types -/

namespace VerificationType

/-- A type is read from its bytes, and from nothing else. -/
theorem accepts_reader : reader.AcceptsWritten toBytes fun _ => True := by
  refine .of_run (fun {c t stop} h => ⟨trivial, ?_⟩) fun t _ rest p => ?_
  · obtain ⟨tag, m, htag, h⟩ := run_bind_eq_ok.1 h
    have hpass : c.Passes [tag] m := passes_byte htag
    split at h
    case h_8 | h_9 =>
      rename_i hn
      obtain ⟨w, m', hw, h⟩ := run_bind_eq_ok.1 h
      obtain ⟨rfl, rfl⟩ := run_pure_eq_ok.1 h
      rw [← UInt8.ofNat_toNat (x := tag), hn] at hpass
      exact hpass.append (passes_word16 hw)
    case h_10 => cases h
    all_goals
      rename_i hn
      obtain ⟨rfl, rfl⟩ := run_pure_eq_ok.1 h
      rw [← UInt8.ofNat_toNat (x := tag), hn] at hpass
      exact hpass
  · cases t with
    | object index | uninitialized offset =>
      rw [toBytes, List.cons_append, reader, run_bind_of_ok (Reader.run_byte _)]
      exact run_bind_of_ok (Reader.run_word16 _)
    | _ => rfl

end VerificationType

/-! ### Frames -/

namespace Frame

open BigEndian (forall_byte)
open VerificationType (listBytes)

/-- The frame is in a form in which frames are read: the short forms hold their distance, and as
many locals come or go as the form can say. -/
def AsRead (f : Frame) : Prop :=
  match f.shape with
  | .same | .oneItem _ => f.delta ≤ 63
  | .oneItemExtended _ | .sameExtended => True
  | .chop count => 1 ≤ count.toNat ∧ count.toNat ≤ 3
  | .append locals => 1 ≤ locals.length ∧ locals.length ≤ 3
  | .full locals stack => locals.length < 0x10000 ∧ stack.length < 0x10000

section

-- every fact of this section is checked at each of the 256 bytes
set_option maxRecDepth 1000

theorem tag_of_oneItem : ∀ tag : UInt8, ¬tag ≤ 63 → tag ≤ 127 →
    (tag - 64).toUInt16 ≤ 63 ∧ 64 + (tag - 64) = tag :=
  forall_byte (by decide)

theorem tag_of_chop : ∀ tag : UInt8, ¬tag < 247 → ¬tag = 247 → tag ≤ 250 →
    (1 ≤ (251 - tag).toNat ∧ (251 - tag).toNat ≤ 3) ∧ 251 - (251 - tag) = tag :=
  forall_byte (by decide)

theorem tag_of_append : ∀ tag : UInt8, ¬tag ≤ 250 → ¬tag = 251 → tag ≤ 254 →
    (1 ≤ (tag - 251).toNat ∧ (tag - 251).toNat ≤ 3) ∧
      251 + UInt8.ofNat (tag - 251).toNat = tag :=
  forall_byte (by decide)

theorem tag_of_full : ∀ tag : UInt8, ¬tag ≤ 254 → tag = 255 :=
  forall_byte (by decide)

theorem long_tag : ∀ tag : UInt8, 247 ≤ tag → ¬tag ≤ 63 ∧ ¬tag ≤ 127 ∧ ¬tag < 247 :=
  forall_byte (by decide)

theorem oneItem_tag : ∀ b : UInt8,
    b ≤ 63 → ¬64 + b ≤ 63 ∧ 64 + b ≤ 127 ∧ 64 + b - 64 = b :=
  forall_byte (by decide)

theorem chop_tag : ∀ b : UInt8, 1 ≤ b.toNat ∧ b.toNat ≤ 3 →
    247 ≤ 251 - b ∧ ¬251 - b = 247 ∧ 251 - b ≤ 250 ∧ 251 - (251 - b) = b :=
  forall_byte (by decide)

theorem append_tag : ∀ n < 4, 1 ≤ n →
    247 ≤ 251 + UInt8.ofNat n ∧ ¬251 + UInt8.ofNat n = 247 ∧ ¬251 + UInt8.ofNat n ≤ 250 ∧
      ¬251 + UInt8.ofNat n = 251 ∧ 251 + UInt8.ofNat n ≤ 254 ∧
      (251 + UInt8.ofNat n - 251).toNat = n := by
  decide

end

/-- A list of types of the given length, one behind the other. -/
theorem passes_types {n : Nat} {c stop : Cursor} {types : List VerificationType}
    (h : (Reader.times n VerificationType.reader).run c = .ok (types, stop)) :
    types.length = n ∧ c.Passes (listBytes types) stop := by
  obtain ⟨_, hpass, hlen, -, rfl⟩ := (VerificationType.accepts_reader.times n).exists_spelling h
  exact ⟨hlen, hpass⟩

/-- A counted list of types. -/
theorem accepts_types : (Reader.counted16 VerificationType.reader).AcceptsWritten
    (fun types => BigEndian.count16 types ++ listBytes types) fun types => types.length < 0x10000 :=
  VerificationType.accepts_reader.counted16.congr fun _ _ => by simp [listBytes]

section

variable {delta : UInt16} {item : VerificationType} {count : UInt8}
  {locals stack : List VerificationType}

theorem toBytes_same (h : delta ≤ 63) : toBytes ⟨delta, .same⟩ = [delta.toUInt8] := if_pos h

theorem toBytes_oneItem (h : delta ≤ 63) :
    toBytes ⟨delta, .oneItem item⟩ = (64 + delta.toUInt8) :: item.toBytes :=
  congrArg (· ++ item.toBytes) (if_pos h)

theorem toBytes_oneItemExtended :
    toBytes ⟨delta, .oneItemExtended item⟩ = 247 :: (BigEndian.word16 delta ++ item.toBytes) := rfl

theorem toBytes_chop :
    toBytes ⟨delta, .chop count⟩ = (251 - count) :: (BigEndian.word16 delta ++ []) := rfl

theorem toBytes_sameExtended :
    toBytes ⟨delta, .sameExtended⟩ = 251 :: (BigEndian.word16 delta ++ []) := rfl

theorem toBytes_append : toBytes ⟨delta, .append locals⟩ =
    (251 + UInt8.ofNat locals.length) :: (BigEndian.word16 delta ++ listBytes locals) := rfl

theorem toBytes_full : toBytes ⟨delta, .full locals stack⟩ =
    255 :: (BigEndian.word16 delta ++ ((BigEndian.count16 locals ++ listBytes locals)
      ++ (BigEndian.count16 stack ++ listBytes stack))) := by
  simp [toBytes]

end

/-- What is read behind a tag from 247 on and a distance. -/
def longReader (tag : UInt8) (delta : UInt16) : Reader Frame :=
  if tag = 247 then do
    let item ← VerificationType.reader
    pure ⟨delta, .oneItemExtended item⟩
  else if tag ≤ 250 then pure ⟨delta, .chop (251 - tag)⟩
  else if tag = 251 then pure ⟨delta, .sameExtended⟩
  else if tag ≤ 254 then do
    let locals ← Reader.times (tag - 251).toNat VerificationType.reader
    pure ⟨delta, .append locals⟩
  else do
    let locals ← Reader.counted16 VerificationType.reader
    let stack ← Reader.counted16 VerificationType.reader
    pure ⟨delta, .full locals stack⟩

theorem reader_eq : reader = Reader.byte >>= fun tag =>
    if tag ≤ 63 then pure ⟨tag.toUInt16, .same⟩
    else if tag ≤ 127 then do
      let item ← VerificationType.reader
      pure ⟨(tag - 64).toUInt16, .oneItem item⟩
    else if tag < 247 then Reader.fail (.badFrameType tag)
    else Reader.word16 >>= longReader tag :=
  rfl

section

variable {c stop : Cursor} {f : Frame}

theorem asRead_of_longReader {tag : UInt8} {delta : UInt16} (htag : ¬tag < 247)
    (h : (longReader tag delta).run c = .ok (f, stop)) :
    f.AsRead ∧ ∃ tail, c.Passes tail stop ∧
      f.toBytes = tag :: (BigEndian.word16 delta ++ tail) := by
  -- the ranges of tags, in the order in which the reader looks for them
  unfold longReader at h
  split at h
  · rename_i htag
    obtain ⟨item, m, hitem, h⟩ := run_bind_eq_ok.1 h
    obtain ⟨rfl, rfl⟩ := run_pure_eq_ok.1 h
    exact ⟨trivial, _, (VerificationType.accepts_reader.passes hitem).2, by
      rw [htag, toBytes_oneItemExtended]⟩
  rename_i hitem
  split at h
  · rename_i hle
    obtain ⟨rfl, rfl⟩ := run_pure_eq_ok.1 h
    obtain ⟨hcount, hback⟩ := tag_of_chop tag htag hitem hle
    exact ⟨hcount, [], Cursor.passes_nil.2 rfl, by rw [toBytes_chop, hback]⟩
  rename_i hchop
  split at h
  · rename_i htag
    obtain ⟨rfl, rfl⟩ := run_pure_eq_ok.1 h
    exact ⟨trivial, [], Cursor.passes_nil.2 rfl, by rw [toBytes_sameExtended, htag]⟩
  rename_i hextended
  split at h
  · rename_i hle
    obtain ⟨locals, m, hlocals, h⟩ := run_bind_eq_ok.1 h
    obtain ⟨rfl, rfl⟩ := run_pure_eq_ok.1 h
    obtain ⟨hlen, hlocals⟩ := passes_types hlocals
    obtain ⟨hcount, hback⟩ := tag_of_append tag hchop hextended hle
    rw [← hlen] at hcount hback
    exact ⟨hcount, _, hlocals, by rw [toBytes_append, hback]⟩
  · rename_i happend
    obtain ⟨locals, m₁, hlocals, h⟩ := run_bind_eq_ok.1 h
    obtain ⟨stack, m₂, hstack, h⟩ := run_bind_eq_ok.1 h
    obtain ⟨rfl, rfl⟩ := run_pure_eq_ok.1 h
    obtain ⟨hlocalsLength, hlocals⟩ := accepts_types.passes hlocals
    obtain ⟨hstackLength, hstack⟩ := accepts_types.passes hstack
    exact ⟨⟨hlocalsLength, hstackLength⟩, _, hlocals.append hstack, by
      rw [tag_of_full tag happend, toBytes_full]⟩

theorem asRead_of_reader (h : reader.run c = .ok (f, stop)) :
    f.AsRead ∧ c.Passes f.toBytes stop := by
  rw [reader_eq] at h
  obtain ⟨tag, m, htag, h⟩ := run_bind_eq_ok.1 h
  have hpass := passes_byte htag
  split at h
  · rename_i hle
    obtain ⟨rfl, rfl⟩ := run_pure_eq_ok.1 h
    have hdelta : tag.toUInt16 ≤ 63 := hle
    rw [toBytes_same hdelta, UInt8.toUInt8_toUInt16]
    exact ⟨hdelta, hpass⟩
  rename_i hsame
  split at h
  · rename_i hle
    obtain ⟨item, m', hitem, h⟩ := run_bind_eq_ok.1 h
    obtain ⟨rfl, rfl⟩ := run_pure_eq_ok.1 h
    obtain ⟨hdelta, hback⟩ := tag_of_oneItem tag hsame hle
    rw [toBytes_oneItem hdelta, UInt8.toUInt8_toUInt16, hback]
    exact ⟨hdelta, hpass.append (VerificationType.accepts_reader.passes hitem).2⟩
  split at h
  · cases h
  · rename_i hknown
    obtain ⟨delta, m', hdelta, h⟩ := run_bind_eq_ok.1 h
    obtain ⟨hf, tail, htail, hbytes⟩ := asRead_of_longReader hknown h
    rw [hbytes]
    exact ⟨hf, hpass.append ((passes_word16 hdelta).append htail)⟩

theorem run_long {tag : UInt8} {delta : UInt16} {rest : Bytes} {p : Nat} (htag : 247 ≤ tag) :
    reader.run ⟨tag :: (BigEndian.word16 delta ++ rest), p⟩ =
      (longReader tag delta).run ⟨rest, p + 3⟩ := by
  obtain ⟨hsame, hitem, hknown⟩ := long_tag tag htag
  rw [reader_eq, run_bind_of_ok (Reader.run_byte _), if_neg hsame, if_neg hitem, if_neg hknown,
    run_bind_of_ok (Reader.run_word16 _)]

theorem run_types {types : List VerificationType} {n : Nat} (hn : types.length = n) (rest : Bytes)
    (p : Nat) : (Reader.times n VerificationType.reader).run ⟨listBytes types ++ rest, p⟩ =
      .ok (types, ⟨rest, p + (listBytes types).length⟩) :=
  (VerificationType.accepts_reader.times n).run ⟨hn, by simp, rfl⟩ rest p

/-- A short distance and a tag that holds it. -/
theorem toUInt8_of_le {delta : UInt16} (h : delta ≤ 63) :
    delta.toUInt8 ≤ 63 ∧ delta.toUInt8.toUInt16 = delta := by
  rw [UInt16.le_iff_toNat_le] at h
  have h63 : UInt16.toNat 63 = 63 := rfl
  have hnat : delta.toUInt8.toNat = delta.toNat := by
    rw [UInt16.toNat_toUInt8]
    omega
  constructor
  · rw [UInt8.le_iff_toNat_le, hnat]
    exact h
  · apply UInt16.toNat_inj.1
    rw [UInt8.toNat_toUInt16, hnat]

theorem run_toBytes (h : f.AsRead) (rest : Bytes) (p : Nat) :
    reader.run ⟨f.toBytes ++ rest, p⟩ = .ok (f, ⟨rest, p + f.toBytes.length⟩) := by
  obtain ⟨delta, shape⟩ := f
  -- each shape has its own range of tags, and the reader looks for them in order
  cases shape with
  | same =>
    obtain ⟨htag, hback⟩ := toUInt8_of_le h
    rw [toBytes_same h, List.singleton_append, reader_eq, run_bind_of_ok (Reader.run_byte _),
      if_pos htag, hback]
    rfl
  | oneItem item =>
    obtain ⟨htag, hback⟩ := toUInt8_of_le h
    obtain ⟨hsame, hitem, hsub⟩ := oneItem_tag _ htag
    rw [toBytes_oneItem h, List.cons_append, reader_eq, run_bind_of_ok (Reader.run_byte _),
      if_neg hsame, if_pos hitem,
      run_bind_of_ok (VerificationType.accepts_reader.run_written trivial _ _), hsub, hback,
      List.length_cons, ← Nat.add_assoc, Nat.add_right_comm]
    rfl
  | oneItemExtended item =>
    rw [toBytes_oneItemExtended, List.cons_append, List.append_assoc, run_long (by decide),
      longReader, if_pos rfl,
      run_bind_of_ok (VerificationType.accepts_reader.run_written trivial _ _)]
    simp
    omega
  | chop count =>
    obtain ⟨hlong, hitem, hchop, hback⟩ := chop_tag count h
    rw [toBytes_chop, List.cons_append, List.append_assoc, run_long hlong, longReader, if_neg hitem,
      if_pos hchop, hback]
    rfl
  | sameExtended =>
    rw [toBytes_sameExtended, List.cons_append, List.append_assoc, run_long (by decide)]
    rfl
  | append locals =>
    obtain ⟨hlong, hitem, hchop, hextended, happend, hback⟩ :=
      append_tag _ (Nat.lt_succ_of_le h.2) h.1
    rw [toBytes_append, List.cons_append, List.append_assoc, run_long hlong, longReader,
      if_neg hitem, if_neg hchop, if_neg hextended, if_pos happend,
      run_bind_of_ok (run_types hback.symm _ _)]
    simp
    omega
  | full locals stack =>
    rw [toBytes_full, List.cons_append, List.append_assoc, List.append_assoc, run_long (by decide),
      longReader, if_neg (by decide), if_neg (by decide), if_neg (by decide), if_neg (by decide),
      run_bind_of_ok (accepts_types.run_written h.1 _ _),
      run_bind_of_ok (accepts_types.run_written h.2 _ _)]
    simp
    omega

end

/-- A frame in the form in which it is read is read from its bytes, and no other frame is. -/
theorem accepts_reader : reader.AcceptsWritten toBytes AsRead :=
  .of_run asRead_of_reader fun _ h => run_toBytes h

/-- A table is read from its bytes if its frames are in the form in which they are read. -/
theorem accepts_tableReader : tableReader.AcceptsWritten tableBytes
    fun frames => frames.length < 0x10000 ∧ ∀ f ∈ frames, f.AsRead :=
  accepts_reader.counted16

/-! ### Reading frames back -/

/-- The frame as it is read back: a short form that cannot hold the distance comes back as the long
one. -/
def reread (f : Frame) : Frame :=
  match f.shape with
  | .same => if f.delta ≤ 63 then f else { f with shape := .sameExtended }
  | .oneItem item => if f.delta ≤ 63 then f else { f with shape := .oneItemExtended item }
  | _ => f

/-- As many locals come or go as the shape can say, and its lists are not too long to be counted. -/
def Sized (f : Frame) : Prop :=
  match f.shape with
  | .chop count => 1 ≤ count.toNat ∧ count.toNat ≤ 3
  | .append locals => 1 ≤ locals.length ∧ locals.length ≤ 3
  | .full locals stack => locals.length < 0x10000 ∧ stack.length < 0x10000
  | _ => True

variable (f : Frame)

@[simp] theorem delta_reread : f.reread.delta = f.delta := by
  obtain ⟨delta, shape⟩ := f
  cases shape <;> simp only [reread] <;> split <;> rfl

@[simp] theorem types_reread : f.reread.types = f.types := by
  obtain ⟨delta, shape⟩ := f
  cases shape <;> simp only [reread] <;> split <;> rfl

/-- A frame is written as the frame that is read back. -/
theorem toBytes_reread : f.reread.toBytes = f.toBytes := by
  obtain ⟨delta, shape⟩ := f
  cases shape with
  | same =>
    simp only [reread]
    split
    · rfl
    · rename_i h
      simp [toBytes, h]
  | oneItem item =>
    simp only [reread]
    split
    · rfl
    · rename_i h
      simp [toBytes, h]
  | _ => rfl

variable {f}

theorem AsRead.sized (h : f.AsRead) : f.Sized := by
  obtain ⟨delta, shape⟩ := f
  cases shape with
  | chop | append | full => exact h
  | _ => trivial

theorem Sized.asRead_reread (h : f.Sized) : f.reread.AsRead := by
  obtain ⟨delta, shape⟩ := f
  cases shape with
  | same | oneItem =>
    simp only [reread]
    split
    · assumption
    · trivial
  | oneItemExtended | sameExtended => trivial
  | chop | append | full => exact h

theorem AsRead.reread_eq (h : f.AsRead) : f.reread = f := by
  obtain ⟨delta, shape⟩ := f
  cases shape with
  | same | oneItem => exact if_pos h
  | _ => rfl

theorem tableBytes_reread (frames : List Frame) :
    tableBytes (frames.map reread) = tableBytes frames := by
  have hframes : (frames.map reread).flatMap toBytes = frames.flatMap toBytes := by
    simp only [List.flatMap_map, toBytes_reread]
  rw [tableBytes, tableBytes, hframes, BigEndian.count16, BigEndian.count16, List.length_map]

theorem offsets_reread (frames : List Frame) : offsets (frames.map reread) = offsets frames := by
  have hfrom (previous : Option Nat) :
      offsetsFrom previous (frames.map reread) = offsetsFrom previous frames := by
    induction frames generalizing previous with
    | nil => rfl
    | cons f frames ih => simp only [List.map_cons, offsetsFrom, delta_reread, ih]
  exact hfrom none

/-- A table is read back from its bytes, and from nothing else. A short form that cannot hold its
distance comes back as the long one; the table that is read is written in the same bytes and stands
at the same offsets. -/
theorem tableReader_of_sized {frames : List Frame} (hlen : frames.length ≤ 65535)
    (hsized : ∀ f ∈ frames, f.Sized) (rest : Bytes) (p : Nat) :
    tableReader.run ⟨tableBytes frames ++ rest, p⟩ =
        .ok (frames.map reread, ⟨rest, p + (tableBytes frames).length⟩) ∧
      tableBytes (frames.map reread) = tableBytes frames ∧
      offsets (frames.map reread) = offsets frames := by
  have hread : (frames.map reread).length < 0x10000 ∧ ∀ f ∈ frames.map reread, f.AsRead := by
    constructor
    · rw [List.length_map]
      exact Nat.lt_succ_of_le hlen
    · exact List.forall_mem_map.2 fun f hf => (hsized f hf).asRead_reread
  refine ⟨?_, tableBytes_reread frames, offsets_reread frames⟩
  rw [← tableBytes_reread frames]
  exact accepts_tableReader.run_written hread rest p

/-- Frames on both sides of the distance that the short forms can hold, and with the most locals
that come or go. -/
def boundaryTable : List Frame :=
  [⟨63, .same⟩, ⟨64, .same⟩, ⟨63, .oneItem .integer⟩, ⟨64, .oneItem (.object 7)⟩, ⟨0, .chop 3⟩,
    ⟨1, .append [.long, .null, .uninitialized 9]⟩, ⟨65535, .full [] [.top]⟩]

theorem tableReader_of_sized_boundary :
    boundaryTable.length ≤ 65535 ∧ (∀ f ∈ boundaryTable, f.Sized) ∧
      tableReader.run ⟨tableBytes boundaryTable, 0⟩ =
        .ok ([⟨63, .same⟩, ⟨64, .sameExtended⟩, ⟨63, .oneItem .integer⟩,
          ⟨64, .oneItemExtended (.object 7)⟩, ⟨0, .chop 3⟩,
          ⟨1, .append [.long, .null, .uninitialized 9]⟩, ⟨65535, .full [] [.top]⟩],
          ⟨[], 33⟩) := by
  have hlen : boundaryTable.length ≤ 65535 := by decide
  have hsized : ∀ f ∈ boundaryTable, f.Sized := by simp [boundaryTable, Sized]
  refine ⟨hlen, hsized, ?_⟩
  have hread := (tableReader_of_sized hlen hsized [] 0).1
  rw [List.append_nil] at hread
  exact hread

end Frame

end ClassTemplates
