import ClassTemplates.Proofs.Insn.Encoding

/-!
# Canonical instructions

An instruction can have several byte forms: an operand may be spelled in more bytes than it needs,
and some bytes are skipped. An instruction in the one form that it is encoded in is encoded as the
bytes it was read from, and no other is.

## Main definitions

- `Insn.IsCanonical` — bytes have the form that an instruction is encoded in
- `Insn.AllCanonical` — the same for the instructions that bytes read as
- `Operands.only?` — the opcode that operands belong to

## Main results

- `Insn.encode_of_spells` — an instruction is encoded as its canonical spelling
- `Insn.encodesBehind_of_readerBehind` — a canonical instruction is encoded as it was read
- `Insn.isCanonical_of_encode` — what an instruction is encoded as is canonical
-/

namespace ClassTemplates

/-! ### Canonical forms -/

namespace Insn

/-- There are `count` zero bytes behind the first `skipped` ones. -/
def ZerosBehind (skipped count : Nat) (bytes : Bytes) : Prop :=
  (bytes.drop skipped).take count = List.replicate count 0

/-- The bytes, which start with an instruction at `position`, have it in the shortest form that its
operands leave, and zeros where they are skipped. Longer forms are told by their first byte. -/
def IsCanonical (position : Nat) (bytes : Bytes) : Insn → Prop
  | ldc index => bytes.head? = some Opcode.ldcWide → 255 < index.toNat
  | localVar _ index => bytes.head? = some Opcode.wide → 255 < index.toNat
  | iinc index delta =>
    bytes.head? = some Opcode.wide →
      255 < index.toNat ∨ delta.toInt < -128 ∨ 127 < delta.toInt
  | tableSwitch .. | lookupSwitch .. => ZerosBehind 1 (switchPadding position) bytes
  | invokeInterface .. => ZerosBehind 4 1 bytes
  | invokeDynamic _ => ZerosBehind 3 2 bytes
  | _ => True

end Insn

/-! ### From bytes to instructions and back -/

/-- The opcode that alone has the operands, where there is one. -/
def Operands.only? : Operands → Option UInt8
  | signedByte => some Opcode.bipush
  | signedWord => some Opcode.sipush
  | shortConstant => some Opcode.ldc
  | wideConstant => some Opcode.ldcWide
  | doubleConstant => some Opcode.ldc2Wide
  | increment => some Opcode.iinc
  | tableSwitch => some Opcode.tableswitch
  | lookupSwitch => some Opcode.lookupswitch
  | interfaceMethod => some Opcode.invokeinterface
  | dynamicCall => some Opcode.invokedynamic
  | primitive => some Opcode.newarray
  | widened => some Opcode.wide
  | dimensions => some Opcode.multianewarray
  | _ => Option.none

set_option maxRecDepth 1000 in
theorem Operands.eq_of_only? {operands : Operands} {opcode o : UInt8}
    (ho : operands.only? = some o) (h : ofOpcode opcode = some operands) : opcode = o := by
  have hall : ∀ op : UInt8, (ofOpcode op).all fun x => x.only?.all (op == ·) :=
    BigEndian.forall_byte (by decide)
  have hop := hall opcode
  rw [h] at hop
  simp only [Option.all_some, ho] at hop
  exact eq_of_beq hop

namespace Insn

variable {opcode : UInt8} {position : Nat} {rest bytes : Bytes} {c next : Cursor} {i : Insn}
  {l : Label} {place : Label → Except LayoutError Nat} {f : Label → Label}

/-! ### Distances -/

/-- A distance that was two bytes fits two bytes. -/
theorem shortOffset_of_toInt16 {w : UInt16} {target : Nat}
    (h : distance position target = w.toInt16.toInt) :
    shortOffset position target = .ok (BigEndian.word16 w) := by
  have hle := w.toInt16.le_toInt
  have hlt := w.toInt16.toInt_lt
  simp only [shortOffset, h]
  rw [if_pos ⟨hle, Int.le_of_lt_add_one hlt⟩, Int16.ofInt_toInt, UInt16.toUInt16_toInt16]

/-! ### Operands of one byte -/

theorem fitsByte_iff {index : UInt16} : fitsByte index = true ↔ index.toNat ≤ 255 := by
  rw [fitsByte, decide_eq_true_iff, UInt16.le_iff_toNat_le]
  rfl

theorem fitsSignedByte_iff {delta : Int16} :
    fitsSignedByte delta = true ↔ -128 ≤ delta.toInt ∧ delta.toInt ≤ 127 := by
  rw [fitsSignedByte, Bool.and_eq_true_iff, decide_eq_true_iff, decide_eq_true_iff]

theorem fitsByte_toUInt16 (b : UInt8) : fitsByte b.toUInt16 = true := by
  have hb := b.toNat_lt
  rw [fitsByte_iff, UInt8.toNat_toUInt16]
  omega

theorem fitsSignedByte_toInt16 (b : Int8) : fitsSignedByte b.toInt16 = true := by
  rw [fitsSignedByte_iff, Int8.toInt_toInt16]
  exact ⟨b.le_toInt, Int.le_of_lt_add_one b.toInt_lt⟩

/-- An increment whose operands came from one byte each has a short form. -/
theorem fits_increment (index delta : UInt8) :
    (fitsByte index.toUInt16 && fitsSignedByte delta.toInt8.toInt16) = true :=
  Bool.and_eq_true_iff.2 ⟨fitsByte_toUInt16 index, fitsSignedByte_toInt16 _⟩

/-- A byte that was widened with its sign narrows to itself. -/
theorem toUInt8_toInt16_toInt8 (b : UInt8) : b.toInt8.toInt16.toUInt16.toUInt8 = b := by
  have h := congrArg Int16.toInt8 (toInt16_toInt8 (fitsSignedByte_toInt16 b.toInt8))
  rw [Int8.toInt8_toInt16, Int8.toInt8_toInt16] at h
  have h := congrArg Int8.toUInt8 h
  rwa [UInt8.toUInt8_toInt8, UInt8.toUInt8_toInt8] at h

/-! ### One instruction -/

/-- The cursor passes over the bytes that an instruction is encoded as behind its opcode. -/
def EncodesBehind (place : Label → Except LayoutError Nat) (position : Nat) (opcode : UInt8)
    (c next : Cursor) (i : Insn) : Prop :=
  ∃ used, c.Passes used next ∧ i.encode place position = .ok (opcode :: used)

/-- Bytes that stand where there are zeros are zeros. -/
theorem eq_replicate_of_zerosBehind (front : Bytes) {zeros more : Bytes}
    (h : ZerosBehind front.length zeros.length (front ++ (zeros ++ more))) :
    zeros = List.replicate zeros.length 0 := by
  rwa [ZerosBehind, List.drop_left, List.take_left] at h

/-- The padding of a switch is zeros in its canonical form. -/
theorem padding_eq_of_zerosBehind {padding more : Bytes}
    (hpadding : padding.length = switchPadding position)
    (h : ZerosBehind 1 (switchPadding position) (opcode :: (padding ++ more))) :
    padding = List.replicate (switchPadding position) 0 := by
  rw [← hpadding] at h ⊢
  exact eq_replicate_of_zerosBehind [opcode] h

open BigEndian in
/-- The bytes of a table switch whose labels have the offsets that number them. -/
theorem encode_tableSwitch {otherwise : Label} {low high : UInt32} {targets : List Label}
    (hp : ∀ l ∈ otherwise :: targets, place l = .ok l.id) :
    (tableSwitch otherwise low.toInt32 high.toInt32 targets).encode place position =
      .ok (Opcode.tableswitch :: (List.replicate (switchPadding position) 0 ++
        (wideOffset position otherwise.id ++ (word32 low ++ (word32 high
          ++ targets.flatMap fun l => wideOffset position l.id))))) := by
  rw [List.forall_mem_cons] at hp
  refine bind_eq_ok.2 ⟨_, hp.1, bind_eq_ok.2 ⟨_, mapM_eq_ok_map hp.2, ?_⟩⟩
  rw [UInt32.toUInt32_toInt32, UInt32.toUInt32_toInt32, List.flatMap_map]
  simp only [List.append_assoc]
  rfl

open BigEndian in
/-- The bytes of a lookup switch whose labels have the offsets that number them. -/
theorem encode_lookupSwitch {otherwise : Label} {pairs : List (Int32 × Label)}
    (hp : ∀ l ∈ otherwise :: pairs.map (·.2), place l = .ok l.id) :
    (lookupSwitch otherwise pairs).encode place position =
      .ok (Opcode.lookupswitch :: (List.replicate (switchPadding position) 0 ++
        (wideOffset position otherwise.id ++ (count32 pairs
          ++ pairs.flatMap fun x => word32 x.1.toUInt32 ++ wideOffset position x.2.id)))) := by
  rw [List.forall_mem_cons, List.forall_mem_map] at hp
  have hmap : pairs.mapM (fun x => (do
      let target ← place x.2
      pure (x.1, target) : Except LayoutError (Int32 × Nat))) =
      .ok (pairs.map fun x => (x.1, x.2.id)) :=
    mapM_eq_ok_map fun x hx => bind_eq_ok.2 ⟨_, hp.2 x hx, rfl⟩
  refine bind_eq_ok.2 ⟨_, hp.1, bind_eq_ok.2 ⟨_, hmap, ?_⟩⟩
  rw [List.flatMap_map]
  simp only [count32, List.length_map, List.append_assoc]
  rfl

/-- A spelling in canonical form is what the instruction is encoded as, wherever labels have the
offsets that number them. -/
theorem encode_of_spells {operands : Operands} {used more : Bytes}
    (ho : Operands.ofOpcode opcode = some operands) (h : Spells position opcode operands i used)
    (hc : i.IsCanonical position (opcode :: (used ++ more)))
    (hp : ∀ l ∈ i.targets, place l = .ok l.id) :
    i.encode place position = .ok (opcode :: used) := by
  have hopcode (o : UInt8) (h : operands.only? = some o) : opcode = o :=
    Operands.eq_of_only? h ho
  cases h with
  | none | field | method | type => rfl
  | doubleConstant | primitive | dimensions =>
    obtain rfl := hopcode _ rfl
    rfl
  | signedByte value =>
    obtain rfl := hopcode _ rfl
    simp only [encode, UInt8.toUInt8_toInt8]
    rfl
  | signedWord value =>
    obtain rfl := hopcode _ rfl
    simp only [encode, UInt16.toUInt16_toInt16]
    rfl
  | shortConstant index =>
    obtain rfl := hopcode _ rfl
    simp only [encode, if_pos (fitsByte_toUInt16 index), UInt8.toUInt8_toUInt16]
    rfl
  | wideConstant index =>
    obtain rfl := hopcode _ rfl
    -- an index that would have fitted into a byte is not canonical here
    have hlong : ¬ fitsByte index = true := by
      rw [fitsByte_iff]
      exact Nat.not_le.2 (hc rfl)
    simp only [encode, if_neg hlong]
    rfl
  | localIndex index =>
    simp only [encode, if_pos (fitsByte_toUInt16 index), UInt8.toUInt8_toUInt16]
    rfl
  | increment index delta =>
    obtain rfl := hopcode _ rfl
    simp only [encode, if_pos (fits_increment index delta), UInt8.toUInt8_toUInt16,
      toUInt8_toInt16_toInt8]
    rfl
  | shortBranch relative target hd _ =>
    refine bind_eq_ok.2 ⟨_, hp _ List.mem_cons_self, ?_⟩
    rw [not_isWideJump_of_ofOpcode ho, if_neg Bool.false_ne_true]
    exact bind_eq_ok.2 ⟨_, shortOffset_of_toInt16 hd, rfl⟩
  | wideBranch target =>
    refine bind_eq_ok.2 ⟨_, hp _ List.mem_cons_self, ?_⟩
    rw [isWideJump_of_ofOpcode ho, if_pos rfl]
    rfl
  | tableSwitch padding otherwise low high targets hpadding =>
    obtain rfl := hopcode _ rfl
    rw [IsCanonical, List.append_assoc] at hc
    rw [padding_eq_of_zerosBehind hpadding hc]
    exact encode_tableSwitch hp
  | lookupSwitch padding otherwise pairs hpadding =>
    obtain rfl := hopcode _ rfl
    rw [IsCanonical, List.append_assoc] at hc
    rw [padding_eq_of_zerosBehind hpadding hc]
    exact encode_lookupSwitch hp
  | interfaceMethod index count reserved =>
    obtain rfl := hopcode _ rfl
    -- the reserved byte was passed over; the canonical form says that it is zero
    obtain rfl : reserved = 0 := List.head_eq_of_cons_eq hc
    rfl
  | dynamicCall index reserved =>
    obtain rfl := hopcode _ rfl
    have hzero : BigEndian.word16 reserved = [0, 0] := hc
    rw [hzero]
    rfl
  | widenedIndex widened index =>
    obtain rfl := hopcode _ rfl
    have hlong : ¬ fitsByte index = true := by
      rw [fitsByte_iff]
      exact Nat.not_le.2 (hc rfl)
    simp only [encode, if_neg hlong]
    rfl
  | widenedIncrement index delta =>
    obtain rfl := hopcode _ rfl
    have hlong : ¬ (fitsByte index && fitsSignedByte delta.toInt16) = true := by
      rw [Bool.and_eq_true_iff, fitsByte_iff, fitsSignedByte_iff]
      have := hc rfl
      omega
    simp only [encode, if_neg hlong, UInt16.toUInt16_toInt16]
    rfl

/-- An instruction in its canonical form is encoded as the bytes that it was read from, wherever
labels have the offsets that number them. -/
theorem encodesBehind_of_readerBehind (h : (readerBehind position opcode).run c = .ok (i, next))
    (hc : i.IsCanonical position (opcode :: c.rest)) (hp : ∀ l ∈ i.targets, place l = .ok l.id) :
    EncodesBehind place position opcode c next i := by
  obtain ⟨used, hpass, operands, ho, hs⟩ := accepts_readerBehind.exists_spelling h
  rw [hpass.1] at hc
  exact ⟨used, hpass, encode_of_spells ho hs hc hp⟩

theorem isCanonical_relabel :
    (i.relabel f).IsCanonical position bytes ↔ i.IsCanonical position bytes := by
  cases i <;> rfl

/-- A canonical instruction takes the bytes that it is given room for. -/
theorem position_eq_of_canonical
    (h : (readerBehind position opcode).run ⟨rest, position + 1⟩ = .ok (i, next))
    (hc : i.IsCanonical position (opcode :: rest)) :
    next.position = position + i.length position := by
  obtain ⟨used, hpass, hencode⟩ : EncodesBehind (fun l => .ok l.id) position opcode
      ⟨rest, position + 1⟩ next i :=
    encodesBehind_of_readerBehind h hc fun _ _ => rfl
  have hlen := length_encode hencode
  rw [List.length_cons] at hlen
  rw [hpass.2]
  show position + 1 + used.length = _
  omega

/-- What a well-shaped instruction is encoded as has its canonical form. -/
theorem isCanonical_of_encode (hw : i.WellShaped) (h : i.encode place position = .ok bytes)
    (more : Bytes) : i.IsCanonical position (bytes ++ more) := by
  -- where there are two encodings, the longer one is chosen only for a reason
  cases i with
  | ldc index =>
    cases h
    intro hhead
    split at hhead
    · cases hhead
    · rename_i hlong
      rw [fitsByte_iff] at hlong
      exact Nat.not_le.1 hlong
  | localVar opcode index =>
    cases h
    intro hhead
    split at hhead
    · obtain rfl := Option.some.inj hhead
      cases hw
    · rename_i hlong
      rw [fitsByte_iff] at hlong
      exact Nat.not_le.1 hlong
  | iinc index delta =>
    cases h
    intro hhead
    split at hhead
    · cases hhead
    · rename_i hlong
      rw [Bool.and_eq_true_iff, fitsByte_iff, fitsSignedByte_iff] at hlong
      omega
  | tableSwitch otherwise low high targets =>
    obtain ⟨o, -, h⟩ := bind_eq_ok.1 h
    obtain ⟨ts, -, h⟩ := bind_eq_ok.1 h
    cases h
    simp [IsCanonical, ZerosBehind]
  | lookupSwitch otherwise pairs =>
    obtain ⟨o, -, h⟩ := bind_eq_ok.1 h
    obtain ⟨ps, -, h⟩ := bind_eq_ok.1 h
    cases h
    simp [IsCanonical, ZerosBehind]
  | invokeInterface | invokeDynamic =>
    cases h
    rfl
  | _ => trivial

/-- The instructions of bytes have their canonical forms there. -/
def AllCanonical (c : Cursor) (found : List (Nat × Insn)) : Prop :=
  ∀ x ∈ found, x.2.IsCanonical x.1 (c.rest.drop (x.1 - c.position))

/-- Behind the first instruction the others are in their canonical forms. -/
theorem AllCanonical.tail {found : List (Nat × Insn)}
    (h : AllCanonical ⟨opcode :: rest, position⟩ ((position, i) :: found))
    (hi : (readerBehind position opcode).run ⟨rest, position + 1⟩ = .ok (i, next))
    (hr : Reads next found) : AllCanonical next found := by
  obtain ⟨used, hrest, hposition⟩ := (readerBehind position opcode).advances hi
  simp only at hrest hposition
  intro x hx
  obtain ⟨n, hn⟩ := Nat.le.dest (hr.bounds x hx).1
  have hfront : x.1 - position = (opcode :: used).length + n := by
    rw [List.length_cons]
    omega
  have hx := h x (List.mem_cons_of_mem _ hx)
  simp only [hrest] at hx
  rw [hfront, ← List.cons_append, List.drop_length_add_append] at hx
  have hback : x.1 - next.position = n := by omega
  rwa [hback]

/-- The first instruction is in its canonical form. -/
theorem AllCanonical.head {found : List (Nat × Insn)}
    (h : AllCanonical ⟨opcode :: rest, position⟩ ((position, i) :: found)) :
    i.IsCanonical position (opcode :: rest) := by
  have := h _ List.mem_cons_self
  rwa [Nat.sub_self] at this

end Insn

end ClassTemplates
