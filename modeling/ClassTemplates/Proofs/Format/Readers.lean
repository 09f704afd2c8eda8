import Mathlib.Data.List.Forall2
import ClassTemplates.Proofs.Words
import ClassTemplates.Reader

/-!
# What readers accept

What a reader makes of bytes is settled by what it accepts: it succeeds exactly on the inputs that
start with a spelling of its value, and stops behind it. That this holds of a composed reader
follows from its parts, so one description says both what is read and what can be read back.

## Main definitions

- `Cursor.Passes` — a cursor moves over some bytes
- `Reader.Accepts` — the spellings on which a reader succeeds
- `Reader.Delimited` — a reader that does not look behind the bytes that it reads
- `Reader.Takes` — a reader of a number of bytes

## Main results

- `Reader.run_word16`, `run_word32`, `run_take` — reading what was written
- `Reader.Accepts.bind`, `Accepts.times`, `Accepts.counted16` — composed readers
- `Reader.Accepts.delimited` — a reader that is settled by spellings does not look behind them
- `Reader.Takes.map`, `Takes.times` — what composed readers take
-/

namespace ClassTemplates

/-! ### Readers -/

namespace Reader

variable {α β : Type} {c stop : Cursor}

theorem run_bind_eq_ok {r : Reader α} {f : α → Reader β} {b : β} :
    (r >>= f).run c = .ok (b, stop) ↔
      ∃ a m, r.run c = .ok (a, m) ∧ (f a).run m = .ok (b, stop) := by
  rw [run_bind]
  cases r.run c with
  | error e => simp
  | ok out =>
    obtain ⟨a, m⟩ := out
    simp

theorem run_pure_eq_ok {a b : α} :
    (pure a : Reader α).run c = .ok (b, stop) ↔ a = b ∧ c = stop := by
  rw [run_pure, Except.ok.injEq, Prod.mk.injEq]

theorem run_bind_of_ok {r : Reader α} {f : α → Reader β} {a : α} {m : Cursor}
    (h : r.run c = .ok (a, m)) : (r >>= f).run c = (f a).run m := by
  rw [run_bind, h]

variable {rest : Bytes} {p : Nat}

@[simp] theorem run_byte (a : UInt8) : byte.run ⟨a :: rest, p⟩ = .ok (a, ⟨rest, p + 1⟩) := rfl

@[simp] theorem run_word16 (w : UInt16) :
    word16.run ⟨BigEndian.word16 w ++ rest, p⟩ = .ok (w, ⟨rest, p + 2⟩) := by
  show Except.ok (BigEndian.join16 _ _, (⟨rest, p + 2⟩ : Cursor)) = _
  rw [BigEndian.join16_word16]

@[simp] theorem run_word32 (w : UInt32) :
    word32.run ⟨BigEndian.word32 w ++ rest, p⟩ = .ok (w, ⟨rest, p + 4⟩) := by
  show Except.ok (BigEndian.join32 _ _ _ _, (⟨rest, p + 4⟩ : Cursor)) = _
  rw [BigEndian.join32_word32]

theorem run_take {n : Nat} {front : Bytes} (h : front.length = n) :
    (take n).run ⟨front ++ rest, p⟩ = .ok (front, ⟨rest, p + n⟩) := by
  subst h
  simp [take]

end Reader

/-! ### Spellings -/

namespace Cursor

/-- The second cursor lies behind `bytes`, which the first one lies in front of. -/
def Passes (c : Cursor) (bytes : Bytes) (stop : Cursor) : Prop :=
  c.rest = bytes ++ stop.rest ∧ stop.position = c.position + bytes.length

variable {c m stop : Cursor} {u v : Bytes}

theorem Passes.eq (h : c.Passes u stop) : c = ⟨u ++ stop.rest, c.position⟩ :=
  congrArg (Cursor.mk · c.position) h.1

theorem Passes.stop_eq (h : c.Passes u stop) : stop = ⟨stop.rest, c.position + u.length⟩ :=
  congrArg (Cursor.mk stop.rest) h.2

theorem passes_nil : c.Passes [] stop ↔ c = stop := by
  constructor
  · intro h
    rw [h.eq, h.stop_eq]
    rfl
  · rintro rfl
    exact ⟨rfl, rfl⟩

/-- Passing over two pieces is passing over one behind the other. -/
theorem passes_append : c.Passes (u ++ v) stop ↔ ∃ m, c.Passes u m ∧ m.Passes v stop := by
  constructor
  · rintro ⟨hrest, hposition⟩
    refine ⟨⟨v ++ stop.rest, c.position + u.length⟩, ⟨?_, rfl⟩, rfl, ?_⟩
    · rw [hrest, List.append_assoc]
    · rw [hposition, List.length_append, Nat.add_assoc]
  · rintro ⟨m, ⟨hu, pu⟩, hv, pv⟩
    refine ⟨?_, ?_⟩
    · rw [hu, hv, List.append_assoc]
    · rw [pv, pu, List.length_append, Nat.add_assoc]

theorem Passes.append (hu : c.Passes u m) (hv : m.Passes v stop) : c.Passes (u ++ v) stop :=
  passes_append.2 ⟨m, hu, hv⟩

end Cursor

namespace Reader

variable {α β : Type} {r : Reader α} {next : α → Reader β} {S S' : α → Bytes → Prop}
  {T : α → β → Bytes → Prop}

/-- The reader succeeds exactly on what starts with a spelling of its value, and stops behind it. -/
def Accepts (r : Reader α) (S : α → Bytes → Prop) : Prop :=
  ∀ c a stop, r.run c = .ok (a, stop) ↔ ∃ bytes, c.Passes bytes stop ∧ S a bytes

theorem Accepts.congr (h : r.Accepts S) (hS : ∀ a bytes, S a bytes ↔ S' a bytes) :
    r.Accepts S' := by
  intro c a stop
  simp only [h c a stop, hS]

/-- What has been read is a spelling. -/
theorem Accepts.exists_spelling (h : r.Accepts S) {c stop : Cursor} {a : α}
    (hr : r.run c = .ok (a, stop)) : ∃ bytes, c.Passes bytes stop ∧ S a bytes :=
  (h c a stop).1 hr

/-- A spelling is read, whatever follows it. -/
theorem Accepts.run (h : r.Accepts S) {a : α} {bytes : Bytes} (hS : S a bytes) (rest : Bytes)
    (p : Nat) : r.run ⟨bytes ++ rest, p⟩ = .ok (a, ⟨rest, p + bytes.length⟩) :=
  (h _ _ _).2 ⟨bytes, ⟨rfl, rfl⟩, hS⟩

theorem accepts_pure (a : α) : (pure a : Reader α).Accepts fun b bytes => b = a ∧ bytes = [] := by
  intro c b stop
  rw [run_pure_eq_ok]
  constructor
  · rintro ⟨rfl, rfl⟩
    exact ⟨[], Cursor.passes_nil.2 rfl, rfl, rfl⟩
  · rintro ⟨_, hpass, rfl, rfl⟩
    exact ⟨rfl, Cursor.passes_nil.1 hpass⟩

theorem accepts_fail (e : FormatError) : (fail e : Reader α).Accepts fun _ _ => False := by
  intro c a stop
  constructor
  · intro h
    cases h
  · rintro ⟨_, _, h⟩
    cases h

/-- What two readers accept one after the other is one spelling behind the other. -/
theorem Accepts.bind (hr : r.Accepts S) (hnext : ∀ a, (next a).Accepts (T a)) :
    (r >>= next).Accepts fun b bytes => ∃ a u v, S a u ∧ T a b v ∧ bytes = u ++ v := by
  intro c b stop
  rw [run_bind_eq_ok]
  constructor
  · rintro ⟨a, m, ha, hb⟩
    obtain ⟨u, hu, hS⟩ := hr.exists_spelling ha
    obtain ⟨v, hv, hT⟩ := (hnext a).exists_spelling hb
    exact ⟨u ++ v, hu.append hv, a, u, v, hS, hT, rfl⟩
  · rintro ⟨_, hpass, a, u, v, hS, hT, rfl⟩
    obtain ⟨m, hu, hv⟩ := Cursor.passes_append.1 hpass
    exact ⟨a, m, (hr _ _ _).2 ⟨u, hu, hS⟩, (hnext a _ _ _).2 ⟨v, hv, hT⟩⟩

/-- A value that is made of another one is spelled as that one. -/
theorem Accepts.map (h : r.Accepts S) (f : α → β) :
    (r >>= fun a => pure (f a)).Accepts fun b bytes => ∃ a, S a bytes ∧ b = f a := by
  refine (h.bind fun a => accepts_pure (f a)).congr fun b bytes => ?_
  constructor
  · rintro ⟨a, u, _, hS, ⟨rfl, rfl⟩, rfl⟩
    exact ⟨a, by rwa [List.append_nil], rfl⟩
  · rintro ⟨a, hS, rfl⟩
    exact ⟨a, bytes, [], hS, ⟨rfl, rfl⟩, (List.append_nil _).symm⟩

/-- A reader that fails where a condition holds accepts nothing there. -/
theorem Accepts.unless {p : Prop} [Decidable p] {e : FormatError} (h : ¬ p → r.Accepts S) :
    (if p then fail e else r).Accepts fun a bytes => ¬ p ∧ S a bytes := by
  by_cases hp : p
  · rw [if_pos hp]
    exact (accepts_fail e).congr fun a bytes => by simp [hp]
  · rw [if_neg hp]
    exact (h hp).congr fun a bytes => by simp [hp]

theorem accepts_byte : byte.Accepts fun a bytes => bytes = [a] := by
  intro c a stop
  constructor
  · intro h
    obtain ⟨rest, p⟩ := c
    match rest, h with
    | a :: rest, h =>
      cases h
      exact ⟨[a], ⟨rfl, rfl⟩, rfl⟩
  · rintro ⟨_, hpass, rfl⟩
    rw [hpass.eq, hpass.stop_eq]
    rfl

theorem accepts_word16 : word16.Accepts fun w bytes => bytes = BigEndian.word16 w := by
  intro c w stop
  constructor
  · intro h
    obtain ⟨rest, p⟩ := c
    match rest, h with
    | a :: b :: rest, h =>
      cases h
      exact ⟨[a, b], ⟨rfl, rfl⟩, (BigEndian.word16_join16 a b).symm⟩
  · rintro ⟨_, hpass, rfl⟩
    rw [hpass.eq, hpass.stop_eq]
    exact run_word16 w

theorem accepts_word32 : word32.Accepts fun w bytes => bytes = BigEndian.word32 w := by
  intro c w stop
  constructor
  · intro h
    obtain ⟨rest, p⟩ := c
    match rest, h with
    | a :: b :: d :: e :: rest, h =>
      cases h
      exact ⟨[a, b, d, e], ⟨rfl, rfl⟩, (BigEndian.word32_join32 a b d e).symm⟩
  · rintro ⟨_, hpass, rfl⟩
    rw [hpass.eq, hpass.stop_eq]
    exact run_word32 w

theorem accepts_word64 : word64.Accepts fun w bytes => bytes = BigEndian.word64 w := by
  refine (accepts_word32.bind fun hi => accepts_word32.bind fun lo => accepts_pure _).congr ?_
  intro w bytes
  constructor
  · rintro ⟨hi, _, _, rfl, ⟨lo, _, _, rfl, ⟨rfl, rfl⟩, rfl⟩, rfl⟩
    rw [BigEndian.word64_join64, List.append_nil]
  · rintro rfl
    exact ⟨_, _, _, rfl, ⟨_, _, _, rfl, ⟨(BigEndian.join64_word64 w).symm, rfl⟩, rfl⟩, by
      rw [List.append_nil]; rfl⟩

theorem accepts_take (n : Nat) :
    (take n).Accepts fun front bytes => bytes = front ∧ front.length = n := by
  intro c front stop
  constructor
  · intro h
    simp only [take] at h
    split at h
    · rename_i hlen
      cases h
      exact ⟨c.rest.take n, ⟨by simp, by simp [hlen]⟩, rfl, hlen⟩
    · cases h
  · rintro ⟨_, hpass, rfl, hlen⟩
    rw [hpass.eq, hpass.stop_eq, hlen]
    exact run_take hlen

theorem passes_byte {c stop : Cursor} {a : UInt8} (h : byte.run c = .ok (a, stop)) :
    c.Passes [a] stop := by
  obtain ⟨_, hpass, rfl⟩ := accepts_byte.exists_spelling h
  exact hpass

theorem passes_word16 {c stop : Cursor} {w : UInt16} (h : word16.run c = .ok (w, stop)) :
    c.Passes (BigEndian.word16 w) stop := by
  obtain ⟨_, hpass, rfl⟩ := accepts_word16.exists_spelling h
  exact hpass

theorem timesOnto_eq_ok (h : r.Accepts S) {n : Nat} {done all : Array α} {c stop : Cursor} :
    timesOnto r n done c = .ok (all, stop) ↔
      ∃ xs pieces, all.toList = done.toList ++ xs ∧ xs.length = n ∧ List.Forall₂ S xs pieces ∧
        c.Passes pieces.flatten stop := by
  induction n generalizing done c with
  | zero =>
    simp only [timesOnto, Except.ok.injEq, Prod.mk.injEq, List.length_eq_zero_iff]
    constructor
    · rintro ⟨rfl, rfl⟩
      exact ⟨[], [], by simp, rfl, .nil, Cursor.passes_nil.2 rfl⟩
    · rintro ⟨_, pieces, hall, rfl, hpieces, hpass⟩
      cases hpieces
      exact ⟨(Array.toList_inj.1 (by simpa using hall)).symm, Cursor.passes_nil.1 hpass⟩
  | succ n ih =>
    rw [timesOnto]
    constructor
    · intro hrun
      split at hrun
      · cases hrun
      · rename_i a m ha
        obtain ⟨u, hu, hS⟩ := h.exists_spelling ha
        obtain ⟨xs, pieces, hall, rfl, hpieces, hpass⟩ := ih.1 hrun
        exact ⟨a :: xs, u :: pieces, by simp [hall], rfl, .cons hS hpieces,
          hu.append hpass⟩
    · rintro ⟨xs, pieces, hall, hlen, hpieces, hpass⟩
      cases hpieces with
      | nil => cases hlen
      | @cons a u xs pieces hS hpieces =>
        obtain ⟨m, hu, hpass⟩ := Cursor.passes_append.1 hpass
        rw [(h _ _ _).2 ⟨u, hu, hS⟩]
        exact ih.2 ⟨xs, pieces, by simp [hall], Nat.succ.inj hlen, hpieces, hpass⟩

/-- A reader applied several times accepts as many spellings. -/
theorem Accepts.times (h : r.Accepts S) (n : Nat) :
    (times n r).Accepts fun xs bytes =>
      xs.length = n ∧ ∃ pieces, List.Forall₂ S xs pieces ∧ bytes = pieces.flatten := by
  intro c xs stop
  constructor
  · intro hrun
    simp only [Reader.times] at hrun
    split at hrun
    · cases hrun
    · rename_i all m hall
      cases hrun
      obtain ⟨xs, pieces, hxs, hlen, hpieces, hpass⟩ := (timesOnto_eq_ok h).1 hall
      rw [List.nil_append] at hxs
      exact ⟨_, hpass, hxs ▸ hlen, pieces, hxs ▸ hpieces, rfl⟩
  · rintro ⟨_, hpass, hlen, pieces, hpieces, rfl⟩
    have hall : timesOnto r n #[] c = .ok (xs.toArray, stop) :=
      (timesOnto_eq_ok h).2 ⟨xs, pieces, rfl, hlen, hpieces, hpass⟩
    simp [Reader.times, hall]

/-- A count and as many values are spelled by the count and a spelling of each. -/
theorem Accepts.counted16 (h : r.Accepts S) :
    (counted16 r).Accepts fun xs bytes => xs.length < 0x10000 ∧
      ∃ pieces, List.Forall₂ S xs pieces ∧ bytes = BigEndian.count16 xs ++ pieces.flatten := by
  refine (accepts_word16.bind fun n => h.times n.toNat).congr ?_
  intro xs bytes
  constructor
  · rintro ⟨n, _, _, rfl, ⟨hlen, pieces, hpieces, rfl⟩, rfl⟩
    refine ⟨hlen ▸ n.toNat_lt, pieces, hpieces, ?_⟩
    rw [BigEndian.count16, hlen, UInt16.ofNat_toNat]
  · rintro ⟨hlt, pieces, hpieces, rfl⟩
    exact ⟨UInt16.ofNat xs.length, _, _, rfl,
      ⟨(UInt16.toNat_ofNat_of_lt' hlt).symm, pieces, hpieces, rfl⟩, rfl⟩

/-- The only spellings are what a function writes of some of the values. -/
def AcceptsWritten (r : Reader α) (write : α → Bytes) (P : α → Prop) : Prop :=
  r.Accepts fun a bytes => P a ∧ bytes = write a

/-- A reader that reads what is written, and nothing else. -/
theorem AcceptsWritten.of_run {write : α → Bytes} {P : α → Prop}
    (hread : ∀ {c a stop}, r.run c = .ok (a, stop) → P a ∧ c.Passes (write a) stop)
    (hwritten : ∀ a, P a → ∀ rest p,
      r.run ⟨write a ++ rest, p⟩ = .ok (a, ⟨rest, p + (write a).length⟩)) :
    r.AcceptsWritten write P := by
  intro c a stop
  constructor
  · intro h
    obtain ⟨hP, hpass⟩ := hread h
    exact ⟨_, hpass, hP, rfl⟩
  · rintro ⟨_, hpass, hP, rfl⟩
    rw [hpass.eq, hpass.stop_eq]
    exact hwritten a hP _ _

theorem AcceptsWritten.passes {write : α → Bytes} {P : α → Prop} (h : r.AcceptsWritten write P)
    {c stop : Cursor} {a : α} (hr : r.run c = .ok (a, stop)) : P a ∧ c.Passes (write a) stop := by
  obtain ⟨_, hpass, hP, rfl⟩ := h.exists_spelling hr
  exact ⟨hP, hpass⟩

theorem AcceptsWritten.run_written {write : α → Bytes} {P : α → Prop}
    (h : r.AcceptsWritten write P) {a : α} (ha : P a) (rest : Bytes) (p : Nat) :
    r.run ⟨write a ++ rest, p⟩ = .ok (a, ⟨rest, p + (write a).length⟩) :=
  h.run ⟨ha, rfl⟩ rest p

theorem forall₂_written {write : α → Bytes} {P : α → Prop} {xs : List α} {pieces : List Bytes} :
    List.Forall₂ (fun a bytes => P a ∧ bytes = write a) xs pieces ↔
      (∀ x ∈ xs, P x) ∧ pieces = xs.map write := by
  constructor
  · intro h
    induction h with
    | nil => exact ⟨by simp, rfl⟩
    | cons hx _ ih =>
      obtain ⟨hP, rfl⟩ := hx
      exact ⟨List.forall_mem_cons.2 ⟨hP, ih.1⟩, by rw [List.map_cons, ih.2]⟩
  · rintro ⟨hP, rfl⟩
    rw [List.forall₂_map_right_iff]
    exact List.forall₂_same.2 fun x hx => ⟨hP x hx, rfl⟩

theorem AcceptsWritten.times {write : α → Bytes} {P : α → Prop} (h : r.AcceptsWritten write P)
    (n : Nat) : (Reader.times n r).Accepts fun xs bytes =>
      xs.length = n ∧ (∀ x ∈ xs, P x) ∧ bytes = xs.flatMap write := by
  refine (Accepts.times h n).congr fun xs bytes => ?_
  simp only [forall₂_written, List.flatMap_def]
  constructor
  · rintro ⟨hlen, _, ⟨hP, rfl⟩, rfl⟩
    exact ⟨hlen, hP, rfl⟩
  · rintro ⟨hlen, hP, rfl⟩
    exact ⟨hlen, _, ⟨hP, rfl⟩, rfl⟩

theorem AcceptsWritten.counted16 {write : α → Bytes} {P : α → Prop} (h : r.AcceptsWritten write P) :
    (Reader.counted16 r).AcceptsWritten (fun xs => BigEndian.count16 xs ++ xs.flatMap write)
      fun xs => xs.length < 0x10000 ∧ ∀ x ∈ xs, P x := by
  refine (Accepts.counted16 h).congr fun xs bytes => ?_
  simp only [forall₂_written, List.flatMap_def]
  constructor
  · rintro ⟨hlt, _, ⟨hP, rfl⟩, rfl⟩
    exact ⟨⟨hlt, hP⟩, rfl⟩
  · rintro ⟨⟨hlt, hP⟩, rfl⟩
    exact ⟨hlt, _, ⟨hP, rfl⟩, rfl⟩

/-! ### Ends of what is read -/

/-- What the reader makes of the bytes that it reads does not depend on the bytes behind them. -/
def Delimited (r : Reader α) : Prop :=
  ∀ c a stop, r.run c = .ok (a, stop) → ∃ used, c.Passes used stop ∧
    ∀ more, r.run ⟨used ++ more, c.position⟩ = .ok (a, ⟨more, c.position + used.length⟩)

theorem Accepts.delimited (h : r.Accepts S) : r.Delimited := by
  intro c a stop hr
  obtain ⟨used, hpass, hS⟩ := h.exists_spelling hr
  exact ⟨used, hpass, fun more => h.run hS more _⟩

/-- Wherever it succeeds, the reader reads `n` bytes. -/
def Takes (r : Reader α) (n : Nat) : Prop :=
  ∀ c a stop, r.run c = .ok (a, stop) → stop.position = c.position + n

variable {n : Nat}

theorem Takes.map (hr : r.Takes n) (f : α → β) : (r >>= fun a => pure (f a)).Takes n := by
  intro c b stop h
  obtain ⟨a, m, ha, h⟩ := run_bind_eq_ok.1 h
  rw [← (run_pure_eq_ok.1 h).2]
  exact hr _ _ _ ha

theorem Takes.timesOnto (hr : r.Takes n) {k : Nat} {done all : Array α} {c stop : Cursor}
    (h : timesOnto r k done c = .ok (all, stop)) : stop.position = c.position + n * k := by
  induction k generalizing done c with
  | zero =>
    cases h
    rfl
  | succ k ih =>
    rw [Reader.timesOnto] at h
    split at h
    · cases h
    · rename_i a c' ha
      rw [ih h, hr _ _ _ ha, Nat.mul_succ, Nat.add_assoc, Nat.add_comm n]

/-- Values of one size take their number times that size. -/
theorem Takes.times (hr : r.Takes n) (k : Nat) : (times k r).Takes (n * k) := by
  intro c xs stop h
  simp only [Reader.times] at h
  split at h
  · cases h
  · rename_i all stop' hall
    cases h
    exact hr.timesOnto hall

end Reader

end ClassTemplates
