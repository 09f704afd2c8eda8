import ClassTemplates.Attribute.Binary
import ClassTemplates.Proofs.Format.Frames

/-!
# The byte form of attributes

The name of an attribute decides how its content is taken apart, in code once more for each nested
attribute. What is read is written in the same bytes again; and what is written is read back, if the
name still stands for the structure and every count and length fits the word in front.

## Main definitions

- `Pool.contentKind?` — the structure that the name of an attribute stands for
- `ContentKind.Holds` — a content of a kind, in the form in which it is read
- `Attribute.AsRead` — an attribute in the form in which it is read

## Main results

- `Attribute.listsFrom`, `Attribute.accepts_listReader` — what is read
-/

namespace ClassTemplates

open BigEndian
open Reader (run_bind_eq_ok run_pure_eq_ok run_bind_of_ok AcceptsWritten accepts_word16
  accepts_word32 accepts_pure accepts_take)

/-- The structure that a name stands for; a name that does not resolve stands for none. -/
def Pool.contentKind? (p : Pool) (name : UInt16) : Option ContentKind :=
  ContentKind.ofName? ((p.utf8? name).getD "")

/-! ### Entries -/

theorem Handler.accepts_reader : Handler.reader.AcceptsWritten Handler.toBytes fun _ => True := by
  refine (accepts_word16.bind fun _ => accepts_word16.bind fun _ => accepts_word16.bind fun _ =>
    accepts_word16.bind fun _ => accepts_pure _).congr fun h bytes => ?_
  obtain ⟨start, stop, target, caught⟩ := h
  simp [toBytes]

theorem LineEntry.accepts_reader :
    LineEntry.reader.AcceptsWritten LineEntry.toBytes fun _ => True := by
  refine (accepts_word16.bind fun _ => accepts_word16.bind fun _ => accepts_pure _).congr
    fun e bytes => ?_
  obtain ⟨start, line⟩ := e
  simp [toBytes]

theorem LocalEntry.accepts_reader :
    LocalEntry.reader.AcceptsWritten LocalEntry.toBytes fun _ => True := by
  refine (accepts_word16.bind fun _ => accepts_word16.bind fun _ => accepts_word16.bind fun _ =>
    accepts_word16.bind fun _ => accepts_word16.bind fun _ => accepts_pure _).congr
    fun e bytes => ?_
  obtain ⟨start, length, name, descriptor, index⟩ := e
  simp [toBytes]

/-! ### Contents without nested attributes -/

/-- The content is of the kind and in the form in which it is read, with nothing nested in it. -/
def ContentKind.Holds : ContentKind → Content → Prop
  | .constantValue, .constantValue _ => True
  | .stackMap, .stackMap frames => frames.length < 0x10000 ∧ ∀ f ∈ frames, f.AsRead
  | .lineNumbers, .lineNumbers entries => entries.length < 0x10000
  | .localVariables, .localVariables entries => entries.length < 0x10000
  | .localVariableTypes, .localVariableTypes entries => entries.length < 0x10000
  | _, _ => False

theorem ContentKind.accepts_flatReader {kind : ContentKind} (h : kind ≠ .code) :
    kind.flatReader.AcceptsWritten Content.toBytes kind.Holds := by
  cases kind with
  | constantValue =>
    refine (accepts_word16.bind fun _ => accepts_pure _).congr fun content bytes => ?_
    cases content <;> simp [Holds, Content.toBytes]
  | code => exact absurd rfl h
  | stackMap =>
    refine (Frame.accepts_tableReader.bind fun _ => accepts_pure _).congr fun content bytes => ?_
    cases content <;> simp [Holds, Content.toBytes]
  | lineNumbers =>
    refine (LineEntry.accepts_reader.counted16.bind fun _ => accepts_pure _).congr
      fun content bytes => ?_
    cases content <;> simp [Holds, Content.toBytes]
  | localVariables =>
    refine (LocalEntry.accepts_reader.counted16.bind fun _ => accepts_pure _).congr
      fun content bytes => ?_
    cases content <;> simp [Holds, Content.toBytes]
  | localVariableTypes =>
    refine (LocalEntry.accepts_reader.counted16.bind fun _ => accepts_pure _).congr
      fun content bytes => ?_
    cases content <;> simp [Holds, Content.toBytes]

/-! ### Attributes -/

theorem count32_eq {α : Type} {xs : List α} {n : UInt32} (h : xs.length = n.toNat) :
    count32 xs = word32 n := by
  rw [count32, h, UInt32.ofNat_toNat]

/-- An attribute is read as its name, the length of its content and the content. -/
theorem RawAttribute.accepts_reader : RawAttribute.reader.AcceptsWritten
    (fun raw => word16 raw.name ++ (count32 raw.payload ++ raw.payload))
    fun raw => raw.length.toNat = raw.payload.length := by
  refine (accepts_word16.bind fun _ => accepts_word32.bind fun length =>
    (accepts_take length.toNat).bind fun _ => accepts_pure _).congr fun raw bytes => ?_
  obtain ⟨name, length, payload⟩ := raw
  simp only [RawAttribute.mk.injEq]
  constructor
  · rintro ⟨_, _, _, rfl, ⟨_, _, _, rfl, ⟨_, _, _, ⟨rfl, hlen⟩, ⟨⟨rfl, rfl, rfl⟩, rfl⟩, rfl⟩, rfl⟩,
      rfl⟩
    exact ⟨hlen.symm, by rw [count32_eq hlen, List.append_nil]⟩
  · rintro ⟨hlen, rfl⟩
    exact ⟨_, _, _, rfl, ⟨_, _, _, rfl, ⟨_, _, _, ⟨rfl, hlen.symm⟩, ⟨⟨rfl, rfl, rfl⟩, rfl⟩, rfl⟩,
      rfl⟩, by rw [count32_eq hlen.symm, List.append_nil]⟩

/-- The part of a code in front of its attributes. -/
def CodeHead.toBytes (head : CodeHead) : Bytes :=
  word16 head.maxStack ++ (word16 head.maxLocals ++ (count32 head.bytes ++ (head.bytes
    ++ (count16 head.handlers ++ (head.handlers.flatMap Handler.toBytes
    ++ word16 head.attributeCount)))))

theorem CodeHead.accepts_reader : CodeHead.reader.AcceptsWritten CodeHead.toBytes
    fun head => head.bytes.length < 0x100000000 ∧ head.handlers.length < 0x10000 := by
  refine (accepts_word16.bind fun _ => accepts_word16.bind fun _ =>
    accepts_word32.bind fun length => (accepts_take length.toNat).bind fun _ =>
    Handler.accepts_reader.counted16.bind fun _ => accepts_word16.bind fun _ =>
    accepts_pure _).congr fun head bytes => ?_
  obtain ⟨maxStack, maxLocals, code, handlers, attributeCount⟩ := head
  simp [toBytes]
  constructor
  · rintro ⟨length, ⟨hlen, hhandlers⟩, rfl⟩
    exact ⟨⟨hlen ▸ length.toNat_lt, hhandlers⟩, by rw [count32_eq hlen]⟩
  · rintro ⟨⟨hlen, hhandlers⟩, rfl⟩
    have hcount := (UInt32.toNat_ofNat_of_lt' hlen).symm
    exact ⟨_, ⟨hcount, hhandlers⟩, by rw [count32_eq hcount]⟩

/-- The bytes of a code are those of its head and of its attributes. -/
theorem CodeHead.toBytes_withAttributes {head : CodeHead} {attributes : List Attribute}
    (h : attributes.length = head.attributeCount.toNat) :
    Code.toBytes (head.withAttributes attributes) =
      head.toBytes ++ attributes.flatMap Attribute.toBytes := by
  simp [Code.toBytes, withAttributes, toBytes, Attribute.listBytes, count16, h]

/-- The head of a code. -/
def Code.head (code : Code) : CodeHead :=
  ⟨code.maxStack, code.maxLocals, code.bytes, code.handlers, UInt16.ofNat code.attributes.length⟩

namespace Attribute

/-- The attribute is in the form in which it is read: its name stands for the structure of its
content, or for none, and what is counted in it fits the count. -/
inductive AsRead (p : Pool) : Attribute → Prop
  | carried {name : UInt16} {bytes : Bytes} : p.contentKind? name = none →
    bytes.length < 0x100000000 → AsRead p ⟨name, .carried bytes⟩
  | flat {name : UInt16} {kind : ContentKind} {content : Content} :
    p.contentKind? name = some kind → kind.Holds content →
    (Content.toBytes content).length < 0x100000000 → AsRead p ⟨name, content⟩
  | code {name : UInt16} {code : Code} : p.contentKind? name = some .code →
    code.handlers.length < 0x10000 → code.attributes.length < 0x10000 →
    (∀ a ∈ code.attributes, AsRead p a) → (Code.toBytes code).length < 0x100000000 →
    AsRead p ⟨name, .code code⟩

variable {p : Pool} {a : Attribute} {raw : RawAttribute}

theorem AsRead.length_lt (h : a.AsRead p) : (Content.toBytes a.content).length < 0x100000000 := by
  cases h <;> assumption

/-- The attribute before its content is taken apart. -/
def toRaw (a : Attribute) : RawAttribute :=
  ⟨a.name, UInt32.ofNat (Content.toBytes a.content).length, Content.toBytes a.content⟩

/-- An attribute in front of others, before its content is taken apart. -/
theorem AsRead.passes_cons {as : List Attribute} {c stop : Cursor} (h : a.AsRead p)
    (hpass : c.Passes ((a :: as).flatMap toBytes) stop) :
    ∃ next, RawAttribute.reader.run c = .ok (a.toRaw, next) ∧
      next.Passes (as.flatMap toBytes) stop := by
  rw [List.flatMap_cons, toBytes_eq, List.append_assoc (word16 _)] at hpass
  obtain ⟨next, hraw, hrest⟩ := Cursor.passes_append.1 hpass
  have hcount : (UInt32.ofNat (Content.toBytes a.content).length).toNat =
      (Content.toBytes a.content).length := UInt32.toNat_ofNat_of_lt' h.length_lt
  exact ⟨next, (RawAttribute.accepts_reader c a.toRaw next).2 ⟨_, hraw, hcount, rfl⟩, hrest⟩

/-- The attribute that a name and a content stand for. -/
def ofRaw (p : Pool) (raw : RawAttribute) : Except FormatError Attribute :=
  match p.contentKind? raw.name with
  | none => .ok ⟨raw.name, .carried raw.payload⟩
  | some .code =>
    match CodeHead.reader.run (.start raw.payload) with
    | .error e => .error e
    | .ok (head, body) =>
      match listOnto p head.attributeCount.toNat #[] body with
      | .error e => .error e
      | .ok (nested, stop) =>
        filling ((p.utf8? raw.name).getD "") raw (.code (head.withAttributes nested.toList)) stop
  | some kind =>
    match kind.flatReader.run (.start raw.payload) with
    | .error e => .error e
    | .ok (content, stop) => filling ((p.utf8? raw.name).getD "") raw content stop

theorem listOnto_succ {n : Nat} {done : Array Attribute} {c : Cursor} :
    listOnto p (n + 1) done c =
      match RawAttribute.reader.run c with
      | .error e => .error e
      | .ok (raw, next) =>
        match ofRaw p raw with
        | .error e => .error e
        | .ok item => listOnto p n (done.push item) next := by
  rw [listOnto]
  split
  · rename_i hraw
    rw [hraw]
  · rename_i raw next hraw
    rw [hraw]
    unfold ofRaw Pool.contentKind?
    simp only
    congr 1
    cases ContentKind.ofName? ((p.utf8? raw.name).getD "") with
    | none => rfl
    | some kind =>
      cases kind with
      | code => cases CodeHead.reader.run (Cursor.start raw.payload) <;> rfl
      | _ => rfl

theorem filling_eq_ok {name : String} {content : Content} {stop : Cursor} :
    filling name raw content stop = .ok a ↔ stop.rest = [] ∧ a = ⟨raw.name, content⟩ := by
  unfold filling
  rw [← List.isEmpty_iff]
  split
  · rename_i hempty
    simp only [hempty, Except.ok.injEq, true_and]
    exact eq_comm
  · rename_i hempty
    simp [hempty]

/-- Some attributes are read from these bytes. -/
def ListsFrom (p : Pool) (n : Nat) (c : Cursor) : Prop :=
  ∀ done all stop, listOnto p n done c = .ok (all, stop) ↔
    ∃ as, all.toList = done.toList ++ as ∧ as.length = n ∧ (∀ a ∈ as, a.AsRead p) ∧
      c.Passes (as.flatMap toBytes) stop

theorem asRead_of_ofRaw (hraw : raw.length.toNat = raw.payload.length)
    (hnested : ∀ n c, c.rest.length ≤ raw.payload.length → ListsFrom p n c)
    (h : ofRaw p raw = .ok a) :
    a.AsRead p ∧ a.name = raw.name ∧ Content.toBytes a.content = raw.payload := by
  have hlt : raw.payload.length < 0x100000000 := hraw ▸ raw.length.toNat_lt
  unfold ofRaw at h
  split at h
  · rename_i hkind
    cases h
    exact ⟨.carried hkind hlt, rfl, rfl⟩
  · rename_i hkind
    split at h
    · cases h
    rename_i head body hhead
    split at h
    · cases h
    rename_i nested stop hlist
    obtain ⟨hstop, rfl⟩ := filling_eq_ok.1 h
    obtain ⟨⟨-, hhandlers⟩, hpass⟩ := CodeHead.accepts_reader.passes hhead
    -- the attributes of the code lie in its payload, which is shorter than the whole
    obtain ⟨as, hall, hlen, has, hpass'⟩ :=
      (hnested _ _ (CodeHead.reader.advances hhead).length_le _ _ _).1 hlist
    rw [List.nil_append] at hall
    subst hall
    have hbytes : Code.toBytes (head.withAttributes nested.toList) = raw.payload := by
      have hrest := (hpass.append hpass').1
      rw [hstop, List.append_nil] at hrest
      rw [CodeHead.toBytes_withAttributes hlen, ← hrest]
      rfl
    refine ⟨.code hkind hhandlers (hlen ▸ head.attributeCount.toNat_lt) has ?_, rfl, hbytes⟩
    rw [hbytes]
    exact hlt
  · rename_i kind hne hkind
    split at h
    · cases h
    rename_i content stop hcontent
    obtain ⟨hstop, rfl⟩ := filling_eq_ok.1 h
    obtain ⟨hholds, hpass⟩ := (ContentKind.accepts_flatReader hne).passes hcontent
    have hbytes : Content.toBytes content = raw.payload := by
      have hrest := hpass.1
      rw [hstop, List.append_nil] at hrest
      exact hrest.symm
    exact ⟨.flat hkind hholds (hbytes ▸ hlt), rfl, hbytes⟩

theorem ofRaw_of_carried (hkind : p.contentKind? raw.name = none) :
    ofRaw p raw = .ok ⟨raw.name, .carried raw.payload⟩ := by
  rw [ofRaw, hkind]

theorem ofRaw_of_flat {kind : ContentKind} {content : Content} {n : Nat}
    (hkind : p.contentKind? raw.name = some kind) (hne : kind ≠ .code)
    (hrun : kind.flatReader.run (.start raw.payload) = .ok (content, ⟨[], n⟩)) :
    ofRaw p raw = .ok ⟨raw.name, content⟩ := by
  rw [ofRaw, hkind]
  cases kind with
  | code => exact absurd rfl hne
  | _ =>
    simp only [hrun]
    rfl

theorem ofRaw_of_code {head : CodeHead} {body : Cursor} {nested : Array Attribute} {n : Nat}
    (hkind : p.contentKind? raw.name = some .code)
    (hhead : CodeHead.reader.run (.start raw.payload) = .ok (head, body))
    (hlist : listOnto p head.attributeCount.toNat #[] body = .ok (nested, ⟨[], n⟩)) :
    ofRaw p raw = .ok ⟨raw.name, .code (head.withAttributes nested.toList)⟩ := by
  rw [ofRaw, hkind]
  simp only [hhead, hlist]
  rfl

theorem ofRaw_of_asRead (hnested : ∀ n c, c.rest.length ≤ raw.payload.length → ListsFrom p n c)
    (h : a.AsRead p) (hname : raw.name = a.name)
    (hbytes : raw.payload = Content.toBytes a.content) : ofRaw p raw = .ok a := by
  cases h with
  | carried hkind _ => rw [ofRaw_of_carried (hname ▸ hkind), hname, hbytes]; rfl
  | @flat name kind content hkind hholds _ =>
    have hne : kind ≠ .code := by
      rintro rfl
      exact hholds
    have hrun := (ContentKind.accepts_flatReader hne).run_written hholds [] 0
    rw [List.append_nil, ← hbytes] at hrun
    rw [ofRaw_of_flat (hname ▸ hkind) hne hrun, hname]
  | @code name code hkind hhandlers hattributes has hlt =>
    have hcount : (UInt16.ofNat code.attributes.length).toNat = code.attributes.length :=
      UInt16.toNat_ofNat_of_lt' hattributes
    have hsplit : raw.payload = code.head.toBytes ++ code.attributes.flatMap Attribute.toBytes :=
      hbytes.trans (@CodeHead.toBytes_withAttributes code.head code.attributes hcount.symm)
    have hbytesLength : code.bytes.length < 0x100000000 := by
      simp only [Code.toBytes, List.length_append] at hlt
      omega
    have hhead := CodeHead.accepts_reader.run_written (a := code.head) ⟨hbytesLength, hhandlers⟩
      (code.attributes.flatMap Attribute.toBytes) 0
    rw [← hsplit] at hhead
    have hlist := (hnested code.head.attributeCount.toNat _
      (CodeHead.reader.advances hhead).length_le #[] code.attributes.toArray
      ⟨[], 0 + code.head.toBytes.length + (code.attributes.flatMap Attribute.toBytes).length⟩).2
      ⟨code.attributes, rfl, hcount.symm, has, by simp, rfl⟩
    rw [ofRaw_of_code (hname ▸ hkind) hhead hlist, hname]
    rfl

/-- Attributes are read from their bytes, one behind the other, if they are in the form in which
they are read. -/
theorem listsFrom (n : Nat) (c : Cursor) : ListsFrom p n c := by
  -- nested attributes and those that follow lie in shorter inputs
  induction hlen : c.rest.length using Nat.strong_induction_on generalizing n c with
  | _ length ih =>
    subst hlen
    intro done all stop
    cases n with
    | zero =>
      rw [listOnto, Except.ok.injEq, Prod.mk.injEq]
      constructor
      · rintro ⟨rfl, rfl⟩
        exact ⟨[], by simp, rfl, by simp, Cursor.passes_nil.2 rfl⟩
      · rintro ⟨as, hall, hlen, -, hpass⟩
        obtain rfl := List.length_eq_zero_iff.1 hlen
        rw [List.append_nil] at hall
        exact ⟨(Array.toList_inj.1 hall).symm, Cursor.passes_nil.1 hpass⟩
    | succ n =>
      rw [listOnto_succ]
      constructor
      · intro h
        split at h
        · cases h
        rename_i raw next hraw
        have hlength := RawAttribute.reader_length hraw
        obtain ⟨hlen, hpass⟩ := RawAttribute.accepts_reader.passes hraw
        split at h
        · cases h
        rename_i a ha
        obtain ⟨has, hname, hbytes⟩ := asRead_of_ofRaw hlen
          (fun n c hc => ih c.rest.length (by omega) n c rfl) ha
        obtain ⟨as, hall, rfl, has', hpass'⟩ :=
          (ih next.rest.length (by omega) n next rfl _ _ _).1 h
        refine ⟨a :: as, by simp [hall], rfl, List.forall_mem_cons.2 ⟨has, has'⟩, ?_⟩
        rw [List.flatMap_cons, toBytes_eq, hname, hbytes, List.append_assoc (word16 _)]
        exact hpass.append hpass'
      · rintro ⟨as, hall, hlen, has, hpass⟩
        cases as with
        | nil => cases hlen
        | cons a as =>
          rw [List.forall_mem_cons] at has
          obtain ⟨next, hraw, hrest⟩ := has.1.passes_cons hpass
          have hlength := RawAttribute.reader_length hraw
          have hitem : ofRaw p a.toRaw = .ok a :=
            ofRaw_of_asRead (fun n c hc => ih c.rest.length (by omega) n c rfl) has.1 rfl rfl
          rw [hraw]
          simp only [hitem]
          exact (ih next.rest.length (by omega) n next rfl _ _ _).2
            ⟨as, by simp [hall], Nat.succ.inj hlen, has.2, hrest⟩

/-- A list of attributes is read from its bytes, if the attributes are in the form in which they are
read. -/
theorem accepts_listReader (p : Pool) : (listReader p).AcceptsWritten listBytes
    fun as => as.length < 0x10000 ∧ ∀ a ∈ as, a.AsRead p := by
  refine .of_run (fun {c as stop} h => ?_) fun as h rest position => ?_
  · simp only [listReader] at h
    split at h
    · cases h
    rename_i n next hn
    split at h
    · cases h
    rename_i all stop' hall
    cases h
    obtain ⟨as, has, hlen, hread, hpass⟩ := (listsFrom _ _ _ _ _).1 hall
    rw [List.nil_append] at has
    rw [has]
    refine ⟨⟨hlen ▸ n.toNat_lt, hread⟩, ?_⟩
    rw [listBytes, count16, hlen, UInt16.ofNat_toNat]
    exact (Reader.passes_word16 hn).append hpass
  · have hcount : (UInt16.ofNat as.length).toNat = as.length := UInt16.toNat_ofNat_of_lt' h.1
    have hall := (listsFrom (p := p) as.length ⟨as.flatMap toBytes ++ rest, position + 2⟩ #[]
      as.toArray ⟨rest, position + 2 + (as.flatMap toBytes).length⟩).2
      ⟨as, rfl, rfl, h.2, rfl, rfl⟩
    simp only [listReader, listBytes, count16, List.append_assoc, Reader.run_word16, hcount, hall]
    simp [Nat.add_assoc]

end Attribute

end ClassTemplates
