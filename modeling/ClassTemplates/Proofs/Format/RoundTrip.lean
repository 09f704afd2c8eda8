import ClassTemplates.Proofs.Format.Storing

/-!
# The classes that come back as they are

Writing never fails: a length or a count that is too large is cut off, a constant of the wrong kind
is written all the same. Here is which classes are read back unchanged. They are described by what
they consist of, one constant and one attribute at a time, and not by what the reader does.

## Main definitions

- `Constant.Writable` — a constant that can be told from what is written of it
- `Attribute.Fits` — an attribute that can be told from its name, its counts and its length
- `ClassFile.WellFormed` — a class of such parts

## Main results

- `Attribute.asRead_iff` — attributes and what is nested in them
- `ClassFile.wellFormed_of_ofBytes` — every class that has been read is well-formed
- `ClassFile.ofBytes_toBytes_eq_self` — a class comes back as it is exactly if it is well-formed
- `ModifiedUtf8.encode_shortest` — texts come back, and none that has been read gets too long
-/

namespace ClassTemplates

/-! ### Constants -/

/-- What is written of the constant tells how it is read: its text fits the length in front of it,
and bytes that are kept as they are spell no text. -/
def Constant.Writable : Constant → Prop
  | utf8 text => (ModifiedUtf8.encode text).length ≤ 65535
  | rawUtf8 bytes => bytes.length ≤ 65535 ∧ ModifiedUtf8.decode bytes = none
  | _ => True

instance (c : Constant) : Decidable c.Writable :=
  match c with
  | .utf8 _ => Nat.decLe _ _
  | .rawUtf8 bytes =>
    inferInstanceAs (Decidable (bytes.length ≤ 65535 ∧ ModifiedUtf8.decode bytes = none))
  | .integer _ | .float _ | .long _ | .double _ | .class _ | .string _ | .fieldRef .. |
    .methodRef .. | .interfaceMethodRef .. | .nameAndType .. | .methodHandle .. | .methodType _ |
    .dynamic .. | .invokeDynamic .. | .module _ | .package _ | .secondSlot => isTrue trivial

theorem Constant.spelled_toBytes_iff {c : Constant} :
    c.Spelled c.toBytes ↔ c ≠ .secondSlot ∧ c.Writable := by
  cases c with
  | utf8 text =>
    constructor
    · intro h
      exact ⟨by simp, Nat.le_of_lt_succ (length_encode_of_spelled h)⟩
    · rintro ⟨-, h⟩
      exact ⟨_, ModifiedUtf8.decode_encode text, Nat.lt_succ_of_le h, rfl⟩
  | rawUtf8 bytes =>
    constructor
    · rintro ⟨hdecode, hlt, -⟩
      exact ⟨by simp, Nat.le_of_lt_succ hlt, hdecode⟩
    · rintro ⟨-, hle, hdecode⟩
      exact ⟨hdecode, Nat.lt_succ_of_le hle, rfl⟩
  | secondSlot => exact ⟨False.elim, fun h => h.1 rfl⟩
  | _ => exact ⟨fun _ => ⟨by simp, trivial⟩, fun _ => rfl⟩

/-! ### Attributes -/

/-- The kind of a content; a content that is not taken apart has none. -/
def Content.kind? : Content → Option ContentKind
  | .constantValue _ => some .constantValue
  | .code _ => some .code
  | .stackMap _ => some .stackMap
  | .lineNumbers _ => some .lineNumbers
  | .localVariables _ => some .localVariables
  | .localVariableTypes _ => some .localVariableTypes
  | .carried _ => none

/-- What is counted in the content fits its counts, and its frames are in a form in which frames are
read. -/
def Content.Counted : Content → Prop
  | .code code => code.handlers.length ≤ 65535 ∧ code.attributes.length ≤ 65535
  | .stackMap frames => frames.length ≤ 65535 ∧ ∀ f ∈ frames, f.AsRead
  | .lineNumbers entries => entries.length ≤ 65535
  | .localVariables entries | .localVariableTypes entries => entries.length ≤ 65535
  | .constantValue _ | .carried _ => True

namespace Attribute

/-- The name of the attribute stands for the kind of its content, what is counted fits the counts,
and the content fits the length. Attributes nested in it are left aside. -/
structure Fits (p : Pool) (a : Attribute) : Prop where
  kind : p.contentKind? a.name = Content.kind? a.content
  counted : Content.Counted a.content
  length : (Content.toBytes a.content).length < 2 ^ 32

variable {p : Pool} {a b : Attribute}

theorem Within.asRead (h : a.Within b) (hb : b.AsRead p) : a.AsRead p := by
  induction h with
  | refl => exact hb
  | nested hmem _ ih => exact ih (hb.of_code.2.nested _ hmem)

theorem AsRead.fits (h : a.AsRead p) : a.Fits p := by
  cases h with
  | carried hkind hlen => exact ⟨hkind, trivial, hlen⟩
  | @flat name kind content hkind hholds hlen =>
    refine ⟨?_, ?_, hlen⟩
    · rw [hkind]
      cases kind <;> cases content <;> first | rfl | exact hholds.elim
    · cases kind <;> cases content <;> first | exact hholds.elim | skip
      case stackMap.stackMap => exact hholds.imp_left Nat.le_of_lt_succ
      case constantValue.constantValue => trivial
      all_goals exact Nat.le_of_lt_succ hholds
  | code hkind hhandlers hattributes _ hlen =>
    exact ⟨hkind, ⟨Nat.le_of_lt_succ hhandlers, Nat.le_of_lt_succ hattributes⟩, hlen⟩

/-- Nothing is asked of the attributes nested in one that fits, unless it is code. -/
theorem Fits.asRead (h : a.Fits p)
    (hnested : ∀ c, a.code? = some c → ∀ b ∈ c.attributes, b.AsRead p) : a.AsRead p := by
  obtain ⟨name, content⟩ := a
  obtain ⟨hkind, hcounted, hlen⟩ := h
  cases content with
  | carried => exact .carried hkind hlen
  | code c =>
    exact .code hkind (Nat.lt_succ_of_le hcounted.1) (Nat.lt_succ_of_le hcounted.2)
      (hnested c rfl) hlen
  | stackMap => exact .flat hkind (hcounted.imp_left Nat.lt_succ_of_le) hlen
  | constantValue => exact .flat hkind trivial hlen
  | lineNumbers | localVariables | localVariableTypes =>
    exact .flat hkind (Nat.lt_succ_of_le hcounted) hlen

/-- An attribute is in the form in which it is read exactly if it fits, and each nested in it, at
any depth. -/
theorem asRead_iff : a.AsRead p ↔ ∀ b : Attribute, b.Within a → b.Fits p := by
  constructor
  · intro h b hb
    exact (hb.asRead h).fits
  · intro h
    induction a using Attribute.induction with
    | flat a hflat =>
      refine (h a .refl).asRead fun c hc => ?_
      rw [hflat] at hc
      cases hc
    | code name c ih =>
      refine (h _ .refl).asRead fun c' hc b hb => ?_
      obtain rfl : c = c' := Option.some.inj hc
      exact ih b hb fun d hd => h d (.nested hb hd)

end Attribute

/-! ### Classes -/

namespace ClassFile

/-- The class is well-formed: its pool was built up of constants that can be written, every list
fits its count, and its attributes fit, with those nested in them. -/
structure WellFormed (cls : ClassFile) : Prop where
  built : cls.pool.Built
  constants : ∀ c ∈ cls.pool.slots.toList, c.Writable
  interfaces : cls.interfaces.length ≤ 65535
  fields : cls.fields.length ≤ 65535
  methods : cls.methods.length ≤ 65535
  attributes : cls.attributes.length ≤ 65535
  members : ∀ m, m ∈ cls.fields ∨ m ∈ cls.methods → m.attributes.length ≤ 65535
  fits : ∀ a, cls.Holds a → ∀ b : Attribute, b.Within a → b.Fits cls.pool

variable {cls : ClassFile} {bytes : Bytes}

theorem AsRead.holds {a : Attribute} (h : cls.AsRead) (ha : cls.Holds a) : a.AsRead cls.pool := by
  rcases ha with ha | ⟨m, hm | hm, ha⟩
  · exact h.attributes.2 a ha
  · exact (h.fields.2 m hm).2 a ha
  · exact (h.methods.2 m hm).2 a ha

theorem WellFormed.asRead (h : cls.WellFormed) : cls.AsRead := by
  have hread (a : Attribute) (ha : cls.Holds a) : a.AsRead cls.pool :=
    Attribute.asRead_iff.2 (h.fits a ha)
  refine ⟨Nat.lt_succ_of_le h.interfaces, ⟨Nat.lt_succ_of_le h.fields, fun m hm => ?_⟩,
    ⟨Nat.lt_succ_of_le h.methods, fun m hm => ?_⟩,
    ⟨Nat.lt_succ_of_le h.attributes, fun a ha => hread a (.inl ha)⟩⟩
  · exact ⟨Nat.lt_succ_of_le (h.members m (.inl hm)), fun a ha => hread a (.inr ⟨m, .inl hm, ha⟩)⟩
  · exact ⟨Nat.lt_succ_of_le (h.members m (.inr hm)), fun a ha => hread a (.inr ⟨m, .inr hm, ha⟩)⟩

/-- Every class that has been read is well-formed, whatever it was read from. -/
theorem wellFormed_of_ofBytes (h : ofBytes bytes = .ok cls) : cls.WellFormed := by
  obtain ⟨hread, _, constants, pieces, hpool, -⟩ := ofBytes_eq_ok.1 h
  have hconstants : ∀ c ∈ constants, c ≠ .secondSlot ∧ c.Writable := by
    intro c hc
    obtain ⟨piece, -, hspelled⟩ : ∃ piece ∈ pieces, c.Spelled piece :=
      exists_left_of_forall₂ hpool.spelled.flip hc
    exact Constant.spelled_toBytes_iff.1 hspelled.written
  have hslots := hpool.slots
  constructor
  case built =>
    exact Pool.built_iff.2
      ⟨hpool.bounded, constants, fun c hc => (hconstants c hc).1, hslots⟩
  case constants =>
    intro c hc
    rw [hslots, List.mem_flatMap] at hc
    obtain ⟨d, hd, hc⟩ := hc
    rcases Constant.mem_slots hc with rfl | rfl
    · exact (hconstants c hd).2
    · trivial
  case interfaces => exact Nat.le_of_lt_succ hread.interfaces
  case fields => exact Nat.le_of_lt_succ hread.fields.1
  case methods => exact Nat.le_of_lt_succ hread.methods.1
  case attributes => exact Nat.le_of_lt_succ hread.attributes.1
  case members =>
    rintro m (hm | hm)
    · exact Nat.le_of_lt_succ (hread.fields.2 m hm).1
    · exact Nat.le_of_lt_succ (hread.methods.2 m hm).1
  case fits => exact fun a ha => Attribute.asRead_iff.1 (hread.holds ha)

/-- A well-formed class is read from what is written of it. -/
theorem WellFormed.ofBytes_toBytes_eq (h : cls.WellFormed) : ofBytes cls.toBytes = .ok cls := by
  obtain ⟨constants, hne, hslots⟩ := h.built.exists_constants
  have hspelled : ∀ c ∈ constants, c.Spelled c.toBytes := by
    intro c hc
    have hmem : c ∈ cls.pool.slots.toList := by
      rw [hslots, List.mem_flatMap]
      exact ⟨c, hc, c.mem_slots_self⟩
    exact Constant.spelled_toBytes_iff.2 ⟨hne c hc, h.constants c hmem⟩
  have hpool := Pool.spelled_written hslots h.built.bounded hspelled
  refine ofBytes_eq_ok.2 ⟨h.asRead, _, _, _, hpool, ?_⟩
  rw [toBytes_eq, hpool.toBytes_eq]

/-- A class comes back as it is from what is written of it exactly if it is well-formed. -/
theorem ofBytes_toBytes_eq_self (cls : ClassFile) :
    ofBytes cls.toBytes = .ok cls ↔ cls.WellFormed :=
  ⟨wellFormed_of_ofBytes, WellFormed.ofBytes_toBytes_eq⟩

/-- A class with constants of two slots, bytes that spell no text, and code nested in code. -/
def nestedClass : ClassFile :=
  { empty with
    pool := ⟨#[.utf8 "Code", .long (-1), .secondSlot, .utf8 "StackMapTable",
      .double 0x7ff0000000000001, .secondSlot, .rawUtf8 [0xff]]⟩
    methods := [⟨0, 1, 1, [⟨1, .code ⟨2, 1, [0x1e, 0xb1], [⟨0, 1, 1, 0⟩], [
      ⟨4, .stackMap [⟨63, .same⟩, ⟨300, .append [.integer, .object 1]⟩]⟩,
      ⟨1, .code ⟨0, 0, [], [], [⟨7, .carried [1, 2, 3]⟩]⟩⟩]⟩⟩]⟩] }

theorem wellFormed_nestedClass : nestedClass.WellFormed := by
  have hbuilt : nestedClass.pool.Built :=
    Pool.built_iff.2 ⟨(by decide : 7 ≤ Pool.maxSlots), [.utf8 "Code", .long (-1),
      .utf8 "StackMapTable", .double 0x7ff0000000000001, .rawUtf8 [0xff]], by simp, rfl⟩
  have hcode : nestedClass.pool.contentKind? 1 = some .code := rfl
  have hframes : nestedClass.pool.contentKind? 4 = some .stackMap := rfl
  have hcarried : nestedClass.pool.contentKind? 7 = none := rfl
  have hinner : Attribute.AsRead nestedClass.pool
      ⟨1, .code ⟨0, 0, [], [], [⟨7, .carried [1, 2, 3]⟩]⟩⟩ :=
    .code hcode (by decide) (by decide)
      (List.forall_mem_singleton.2 (.carried hcarried (by decide))) (by decide +kernel)
  have hstack : Attribute.AsRead nestedClass.pool
      ⟨4, .stackMap [⟨63, .same⟩, ⟨300, .append [.integer, .object 1]⟩]⟩ :=
    .flat hframes ⟨by decide, by simp [Frame.AsRead]⟩ (by decide +kernel)
  constructor
  case built => exact hbuilt
  case constants => decide +kernel
  case members => simp [nestedClass, empty]
  case fits =>
    rintro a (ha | ⟨m, hm | hm, ha⟩)
    · cases ha
    · cases hm
    · obtain rfl := List.mem_singleton.1 hm
      obtain rfl := List.mem_singleton.1 ha
      exact Attribute.asRead_iff.1 (.code hcode (by decide) (by decide)
        (List.forall_mem_cons.2 ⟨hstack, List.forall_mem_singleton.2 hinner⟩) (by decide +kernel))
  all_goals decide

theorem ofBytes_toBytes_eq_self_nested :
    nestedClass.WellFormed ∧ ofBytes nestedClass.toBytes = .ok nestedClass :=
  ⟨wellFormed_nestedClass, (ofBytes_toBytes_eq_self nestedClass).2 wellFormed_nestedClass⟩

end ClassFile

/-! ### Texts -/

namespace ModifiedUtf8

/-- A text comes back from its bytes, and all other bytes that spell it are more. So a text constant
that has been read can be written again: the number of its bytes fits. -/
theorem encode_shortest (text : String) :
    decode (encode text) = some text ∧
      (∀ bytes, decode bytes = some text → (encode text).length ≤ bytes.length ∧
        ((encode text).length = bytes.length → encode text = bytes)) ∧
      ∀ bytes cls, ClassFile.ofBytes bytes = .ok cls → .utf8 text ∈ cls.pool.slots.toList →
        (encode text).length ≤ 65535 :=
  ⟨decode_encode text, fun _ h => encode_eq_of_decode h,
    fun _ _ h hmem => (ClassFile.wellFormed_of_ofBytes h).constants _ hmem⟩

theorem encode_shortest_letter :
    decode (encode "A") = some "A" ∧ (encode "A").length ≤ [0xc1, 0x81].length ∧
      (encode "A").length ≤ 65535 := by
  obtain ⟨hback, hshortest, hfits⟩ := encode_shortest "A"
  have hlong : decode [0xc1, 0x81] = some "A" := by
    decide +kernel
  exact ⟨hback, (hshortest _ hlong).1,
    hfits _ _ ClassFile.ofBytes_longLetterBytes List.mem_cons_self⟩

end ModifiedUtf8

end ClassTemplates
