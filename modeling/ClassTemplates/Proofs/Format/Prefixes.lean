import ClassTemplates.Proofs.Format.RoundTrip

/-!
# Classes that are cut off or go on

More bytes behind its input change nothing for a reader, unless it failed because the input had
ended. Readers put together from such readers are like this too, with everything that is nested in
an attribute, which is read from the bytes of the attribute alone. So no class is the front of
another: without its last bytes it is found to be truncated, and with more bytes these are found to
be left over.

## Main definitions

- `Cursor.followedBy` — a cursor with more bytes behind it
- `Reader.Streams` — what reading makes of bytes, it makes of them in front of others

## Main results

- `Reader.Streams.bind`, `Streams.times`, `Streams.counted16` — composed readers
- `Attribute.streams_listOnto`, `Pool.streams_entriesOnto` — the loops over attributes and constants
- `ClassFile.streams_reader` — the reader of classes
- `ClassFile.ofBytes_of_isPrefix` — the bytes of a class, cut off or followed by others
-/

namespace ClassTemplates

/-! ### Readers -/

/-- The place with more bytes behind those that are still to be read. -/
def Cursor.followedBy (c : Cursor) (more : Bytes) : Cursor :=
  ⟨c.rest ++ more, c.position⟩

theorem Cursor.Passes.followedBy {c stop : Cursor} {bytes : Bytes} (h : c.Passes bytes stop)
    (more : Bytes) : (c.followedBy more).Passes bytes (stop.followedBy more) := by
  obtain ⟨hrest, hposition⟩ := h
  exact ⟨by simp [Cursor.followedBy, hrest], hposition⟩

namespace Reader

variable {α β γ : Type}

/-- What has been read is read also in front of more bytes, and with the same bytes left. What has
failed fails in the same way, unless it failed because the input had ended. -/
structure Streams (run : Cursor → Except FormatError (α × Cursor)) : Prop where
  ok : ∀ {c a stop}, run c = .ok (a, stop) →
    ∀ more, run (c.followedBy more) = .ok (a, stop.followedBy more)
  error : ∀ {c e}, run c = .error e →
    (∃ position, e = .truncated position) ∨ ∀ more, run (c.followedBy more) = .error e

variable {run : Cursor → Except FormatError (α × Cursor)} {r : Reader α}

theorem streams_ok (a : α) : Streams fun c => .ok (a, c) := by
  constructor
  · rintro _ _ _ ⟨⟩ more
    rfl
  · rintro _ _ ⟨⟩

theorem streams_error (e : FormatError) :
    Streams (fun _ => .error e : Cursor → Except FormatError (α × Cursor)) := by
  constructor
  · rintro _ _ _ ⟨⟩
  · rintro _ _ ⟨⟩
    exact .inr fun _ => rfl

/-- Reading goes on from where it has stopped, which more bytes do not move. -/
theorem Streams.andThen {next : α → Cursor → Except FormatError (β × Cursor)}
    {whole : Cursor → Except FormatError (β × Cursor)} (h : Streams run)
    (hnext : ∀ a, Streams (next a)) (herror : ∀ {c e}, run c = .error e → whole c = .error e)
    (hok : ∀ {c a m}, run c = .ok (a, m) → whole c = next a m) : Streams whole := by
  constructor
  · intro c b stop hwhole more
    cases hrun : run c with
    | error e =>
      rw [herror hrun] at hwhole
      cases hwhole
    | ok out =>
      obtain ⟨a, m⟩ := out
      rw [hok hrun] at hwhole
      rw [hok (h.ok hrun more)]
      exact (hnext a).ok hwhole more
  · intro c e hwhole
    cases hrun : run c with
    | error e' =>
      rw [herror hrun] at hwhole
      cases hwhole
      exact (h.error hrun).imp_right fun hmore more => herror (hmore more)
    | ok out =>
      obtain ⟨a, m⟩ := out
      rw [hok hrun] at hwhole
      refine ((hnext a).error hwhole).imp_right fun hmore more => ?_
      rw [hok (h.ok hrun more)]
      exact hmore more

/-- The same if what has been read is looked at before reading goes on. -/
theorem Streams.checked {whole : Cursor → Except FormatError (γ × Cursor)}
    {next : α → β → Cursor → Except FormatError (γ × Cursor)} (h : Streams run)
    (check : α → Except FormatError β) (hnext : ∀ a b, Streams (next a b))
    (herror : ∀ {c e}, run c = .error e → whole c = .error e)
    (hfault : ∀ {c a m e}, run c = .ok (a, m) → check a = .error e → whole c = .error e)
    (hok : ∀ {c a m b}, run c = .ok (a, m) → check a = .ok b → whole c = next a b m) :
    Streams whole := by
  have hchecked (a : α) : Streams (match check a with
      | .error e => fun _ => .error e
      | .ok b => next a b) := by
    split
    · exact streams_error _
    · exact hnext a _
  refine h.andThen hchecked herror fun {c a m} hrun => ?_
  cases hcheck : check a with
  | error e => exact hfault hrun hcheck
  | ok b => exact hok hrun hcheck

/-- A reader whose input is told by its spellings, and that only fails at the end of the input. -/
theorem Accepts.streams {S : α → Bytes → Prop} (h : r.Accepts S)
    (herror : ∀ {c e}, r.run c = .error e → ∃ position, e = .truncated position) :
    Streams r.run := by
  constructor
  · intro c a stop hrun more
    obtain ⟨bytes, hpass, hS⟩ := h.exists_spelling hrun
    exact (h _ _ _).2 ⟨bytes, hpass.followedBy more, hS⟩
  · exact fun hrun => .inl (herror hrun)

theorem streams_byte : Streams byte.run := by
  refine accepts_byte.streams fun {c e} hrun => ?_
  obtain ⟨rest, position⟩ := c
  match rest, hrun with
  | [], hrun =>
    cases hrun
    exact ⟨position, rfl⟩

theorem streams_word16 : Streams word16.run := by
  refine accepts_word16.streams fun {c e} hrun => ?_
  obtain ⟨rest, position⟩ := c
  match rest, hrun with
  | [], hrun | [_], hrun =>
    cases hrun
    exact ⟨position, rfl⟩

theorem streams_word32 : Streams word32.run := by
  refine accepts_word32.streams fun {c e} hrun => ?_
  obtain ⟨rest, position⟩ := c
  match rest, hrun with
  | [], hrun | [_], hrun | [_, _], hrun | [_, _, _], hrun =>
    cases hrun
    exact ⟨position, rfl⟩

theorem streams_take (n : Nat) : Streams (take n).run := by
  refine (accepts_take n).streams fun {c e} hrun => ?_
  simp only [take] at hrun
  split at hrun
  · cases hrun
  · cases hrun
    exact ⟨c.position, rfl⟩

theorem streams_pure (a : α) : Streams (pure a : Reader α).run :=
  streams_ok a

theorem streams_fail (e : FormatError) : Streams (fail e : Reader α).run :=
  streams_error e

theorem Streams.bind {next : α → Reader β} (h : Streams r.run)
    (hnext : ∀ a, Streams (next a).run) : Streams (r >>= next).run :=
  h.andThen hnext (fun he => by rw [run_bind, he]) (fun ha => by rw [run_bind, ha])

theorem streams_word64 : Streams word64.run :=
  streams_word32.bind fun _ => streams_word32.bind fun _ => streams_pure _

theorem Streams.timesOnto (h : Streams r.run) (n : Nat) (done : Array α) :
    Streams (Reader.timesOnto r n done) := by
  induction n generalizing done with
  | zero => exact streams_ok done
  | succ n ih =>
    exact h.andThen (fun a => ih (done.push a)) (fun he => by rw [Reader.timesOnto, he])
      (fun ha => by rw [Reader.timesOnto, ha])

theorem Streams.times (h : Streams r.run) (n : Nat) : Streams (Reader.times n r).run :=
  (h.timesOnto n #[]).andThen (fun all => streams_ok all.toList)
    (fun he => by simp only [Reader.times, he]) (fun hall => by simp only [Reader.times, hall])

theorem Streams.counted16 (h : Streams r.run) : Streams (Reader.counted16 r).run :=
  streams_word16.bind fun n => h.times n.toNat

end Reader

open Reader (Streams streams_ok streams_error streams_byte streams_word16 streams_word32
  streams_word64 streams_take streams_pure streams_fail)

/-! ### Constants -/

theorem Constant.streams_contents (kind : ConstantTag) : Streams (contents kind).run := by
  cases kind with
  | utf8 =>
    exact streams_word16.bind fun n => (streams_take n.toNat).bind fun _ => streams_pure _
  | integer | float => exact streams_word32.bind fun _ => streams_pure _
  | long | double => exact streams_word64.bind fun _ => streams_pure _
  | «class» | string | methodType | «module» | package =>
    exact streams_word16.bind fun _ => streams_pure _
  | fieldRef | methodRef | interfaceMethodRef | nameAndType | dynamic | invokeDynamic =>
    exact streams_word16.bind fun _ => streams_word16.bind fun _ => streams_pure _
  | methodHandle => exact streams_byte.bind fun _ => streams_word16.bind fun _ => streams_pure _

theorem Constant.streams_reader (index : Nat) : Streams (reader index).run := by
  refine streams_byte.bind fun tag => ?_
  split
  · rename_i kind hkind
    exact streams_contents kind
  · exact streams_fail _

namespace Pool

/-- Whether a pool has room for a constant is told by the constants alone. -/
theorem streams_entriesOnto (count index : Nat) (p : Pool) :
    Streams (entriesOnto count index p) := by
  -- by induction on the number of slots that are still to be filled
  induction hslots : count - index using Nat.strong_induction_on generalizing index p with
  | _ slots ih =>
    subst hslots
    by_cases hlt : index < count
    · have hnext (constant : Constant) (q : Pool) :
          Streams (entriesOnto count (index + constant.width) q) := by
        have hwidth := width_pos constant
        exact ih _ (by omega) (index + constant.width) q rfl
      refine (Constant.streams_reader index).checked p.appended hnext (fun he => ?_)
        (fun hc hfault => ?_) (fun hc hq => ?_)
      · rw [entriesOnto, if_pos hlt, he]
      · rw [entriesOnto, if_pos hlt, hc]
        simp only [hfault]
      · rw [entriesOnto, if_pos hlt, hc]
        simp only [hq]
    · have hstep : entriesOnto count index p = fun c => .ok (p, c) := by
        funext c
        rw [entriesOnto, if_neg hlt]
      rw [hstep]
      exact streams_ok p

theorem streams_reader : Streams reader.run :=
  streams_word16.andThen (fun count => streams_entriesOnto count.toNat 1 empty)
    (fun he => by simp only [reader, he]) (fun hcount => by simp only [reader, hcount])

end Pool

/-! ### Attributes -/

theorem RawAttribute.streams_reader : Streams reader.run :=
  streams_word16.bind fun _ => streams_word32.bind fun length =>
    (streams_take length.toNat).bind fun _ => streams_pure _

namespace Attribute

/-- What is made of the content of an attribute is made of its bytes alone, whatever follows it. -/
theorem streams_listOnto (p : Pool) (n : Nat) (done : Array Attribute) :
    Streams (listOnto p n done) := by
  induction n generalizing done with
  | zero =>
    have hstep : listOnto p 0 done = fun c => .ok (done, c) := by
      funext c
      rw [listOnto]
    rw [hstep]
    exact streams_ok done
  | succ n ih =>
    have hnext (_ : RawAttribute) (item : Attribute) : Streams (listOnto p n (done.push item)) :=
      ih (done.push item)
    refine RawAttribute.streams_reader.checked (ofRaw p) hnext (fun he => ?_)
      (fun hraw hfault => ?_) (fun hraw hitem => ?_)
    · rw [listOnto_succ, he]
    · rw [listOnto_succ, hraw]
      simp only [hfault]
    · rw [listOnto_succ, hraw]
      simp only [hitem]

theorem streams_listReader (p : Pool) : Streams (listReader p).run := by
  have hrest (n : UInt16) : Streams fun c =>
      (listOnto p n.toNat #[] c).map fun out => (out.1.toList, out.2) :=
    (streams_listOnto p n.toNat #[]).andThen (fun all => streams_ok all.toList)
      (fun he => by rw [he]; rfl) (fun hall => by rw [hall]; rfl)
  refine streams_word16.andThen hrest (fun he => ?_) (fun {c n m} hn => ?_)
  · simp only [listReader, he]
  · cases hlist : listOnto p n.toNat #[] m <;> simp only [listReader, hn, hlist, Except.map]

end Attribute

/-! ### Classes -/

theorem Member.streams_reader (p : Pool) : Streams (reader p).run :=
  streams_word16.bind fun _ => streams_word16.bind fun _ => streams_word16.bind fun _ =>
    (Attribute.streams_listReader p).bind fun _ => streams_pure _

namespace ClassFile

theorem streams_magicReader : Streams magicReader.run := by
  refine streams_word32.bind fun found => ?_
  split
  · exact streams_pure ()
  · exact streams_fail _

theorem streams_reader : Streams reader.run :=
  streams_magicReader.bind fun _ => streams_word16.bind fun _ => streams_word16.bind fun _ =>
    Pool.streams_reader.bind fun p => streams_word16.bind fun _ => streams_word16.bind fun _ =>
    streams_word16.bind fun _ => streams_word16.counted16.bind fun _ =>
    (Member.streams_reader p).counted16.bind fun _ =>
    (Member.streams_reader p).counted16.bind fun _ =>
    (Attribute.streams_listReader p).bind fun _ => streams_pure _

variable {cls : ClassFile} {bytes : Bytes}

theorem run_of_ofBytes (h : ofBytes bytes = .ok cls) :
    ∃ position, reader.run (.start bytes) = .ok (cls, ⟨[], position⟩) := by
  unfold ofBytes at h
  split at h
  · cases h
  · rename_i found stop hrun
    split at h
    · rename_i hempty
      cases h
      refine ⟨stop.position, hrun.trans ?_⟩
      rw [← List.isEmpty_iff.1 hempty]
    · cases h

/-- The bytes of a class without some at the end are truncated, and with some behind them have
these left over. -/
theorem ofBytes_of_isPrefix (h : ofBytes bytes = .ok cls) :
    (∀ front, front <+: bytes → front ≠ bytes →
      ∃ position, ofBytes front = .error (.truncated position)) ∧
    ∀ more, more ≠ [] → ofBytes (bytes ++ more) = .error (.trailingBytes more.length) := by
  obtain ⟨position, hrun⟩ := run_of_ofBytes h
  constructor
  · rintro front ⟨back, rfl⟩ hne
    have hback : back ≠ [] := by
      rintro rfl
      exact hne (List.append_nil front).symm
    cases hfront : reader.run (.start front) with
    | ok out =>
      -- what the front is read as would leave the rest of the class over
      obtain ⟨found, stop⟩ := out
      have hwhole := (streams_reader.ok hfront back).symm.trans hrun
      have hrest : stop.rest ++ back = [] :=
        congrArg Cursor.rest (Prod.mk.inj (Except.ok.inj hwhole)).2
      exact absurd (List.append_eq_nil_iff.1 hrest).2 hback
    | error e =>
      rcases streams_reader.error hfront with ⟨position, rfl⟩ | hwhole
      · exact ⟨position, by rw [ofBytes, hfront]⟩
      · cases (hwhole back).symm.trans hrun
  · intro more hne
    have hmore := streams_reader.ok hrun more
    rw [Cursor.followedBy, Cursor.start] at hmore
    rw [ofBytes, Cursor.start, hmore]
    simp [Cursor.followedBy, hne]

/-- The class is cut off inside of the code that is nested in its code. -/
theorem ofBytes_of_isPrefix_nested : ofBytes nestedClass.toBytes = .ok nestedClass ∧
    (∃ position, ofBytes (nestedClass.toBytes.take 140) = .error (.truncated position)) ∧
    ofBytes (nestedClass.toBytes ++ [0, 0]) = .error (.trailingBytes 2) := by
  have hread := wellFormed_nestedClass.ofBytes_toBytes_eq
  have hne : nestedClass.toBytes.take 140 ≠ nestedClass.toBytes := by
    decide +kernel
  obtain ⟨hcut, hmore⟩ := ofBytes_of_isPrefix hread
  exact ⟨hread, hcut _ (List.take_prefix 140 _) hne, hmore [0, 0] (List.cons_ne_nil 0 [0])⟩

end ClassFile

end ClassTemplates
