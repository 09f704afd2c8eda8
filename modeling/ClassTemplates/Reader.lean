import ClassTemplates.FormatError

/-!
# Reading bytes

A reader takes a value off the front of a byte sequence, or reports the position at which it could
not. That it consumes a leading part of its input, and counts it, is part of its type, so every loop
over a reader ends and no proof has to repeat it.

## Main definitions

- `Cursor` — the bytes still to read and the number of bytes read
- `Cursor.Advances` — the second cursor lies behind a leading part of the first
- `Reader` — a step that advances a cursor or fails
- `Reader.byte`, `word16`, `word32`, `word64`, `take` — the primitive readers
- `Reader.times` — a reader applied a given number of times
-/

namespace ClassTemplates

/-- A place in a byte sequence: what is still to be read, and how many bytes lie before it. -/
structure Cursor where
  rest : Bytes
  position : Nat
  deriving DecidableEq, Repr

namespace Cursor

/-- The place in front of the first byte. -/
def start (bytes : Bytes) : Cursor :=
  ⟨bytes, 0⟩

/-- `stop` is reached from `c` by reading some number of bytes. -/
def Advances (c stop : Cursor) : Prop :=
  ∃ used, c.rest = used ++ stop.rest ∧ stop.position = c.position + used.length

theorem Advances.refl (c : Cursor) : c.Advances c :=
  ⟨[], by simp, by simp⟩

theorem Advances.trans {a b c : Cursor} (hab : a.Advances b) (hbc : b.Advances c) :
    a.Advances c := by
  obtain ⟨u, hu, pu⟩ := hab
  obtain ⟨v, hv, pv⟩ := hbc
  exact ⟨u ++ v, by simp [hu, hv], by simp [pu, pv, Nat.add_assoc]⟩

theorem Advances.length_le {a b : Cursor} (h : a.Advances b) : b.rest.length ≤ a.rest.length := by
  obtain ⟨u, hu, _⟩ := h
  simp [hu]

theorem Advances.position_add_length {a b : Cursor} (h : a.Advances b) :
    b.position + b.rest.length = a.position + a.rest.length := by
  obtain ⟨u, hu, pu⟩ := h
  simp [hu, pu, Nat.add_assoc]

end Cursor

/-- A step that reads a value off the front of its input or says why it cannot. -/
structure Reader (α : Type) where
  /-- The outcome at a cursor: the value and the cursor behind it, or the fault. -/
  run : Cursor → Except FormatError (α × Cursor)
  /-- What a reader leaves is what follows the bytes it has read. -/
  advances : ∀ {c : Cursor} {a : α} {stop : Cursor}, run c = .ok (a, stop) → c.Advances stop

namespace Reader

variable {α β : Type}

/-- Reads nothing and yields `a`. -/
protected def pure (a : α) : Reader α where
  run c := .ok (a, c)
  advances h := by
    cases h
    exact .refl _

/-- Reads with `r`, then with the reader that `next` makes of its value. -/
protected def bind (r : Reader α) (next : α → Reader β) : Reader β where
  run c :=
    match r.run c with
    | .error e => .error e
    | .ok (a, middle) => (next a).run middle
  advances {c b stop} h := by
    cases hr : r.run c with
    | error e => simp [hr] at h
    | ok out =>
      obtain ⟨a, middle⟩ := out
      simp only [hr] at h
      exact (r.advances hr).trans ((next a).advances h)

instance : Monad Reader where
  pure := Reader.pure
  bind := Reader.bind

@[simp] theorem run_pure (a : α) (c : Cursor) : (pure a : Reader α).run c = .ok (a, c) := rfl

theorem run_bind (r : Reader α) (next : α → Reader β) (c : Cursor) :
    (r >>= next).run c =
      match r.run c with
      | .error e => .error e
      | .ok (a, middle) => (next a).run middle := rfl

/-- Fails with `e`. -/
def fail (e : FormatError) : Reader α where
  run _ := .error e
  advances h := by cases h

/-- The number of bytes read so far. -/
def position : Reader Nat where
  run c := .ok (c.position, c)
  advances h := by
    cases h
    exact .refl _

/-- The number of bytes still to read. -/
def remaining : Reader Nat where
  run c := .ok (c.rest.length, c)
  advances h := by
    cases h
    exact .refl _

/-- One byte. -/
def byte : Reader UInt8 where
  run
    | ⟨a :: rest, p⟩ => .ok (a, ⟨rest, p + 1⟩)
    | ⟨[], p⟩ => .error (.truncated p)
  advances {c _ _} h := by
    obtain ⟨rest, p⟩ := c
    match rest, h with
    | a :: rest, h =>
      cases h
      exact ⟨[_], rfl, rfl⟩

/-- A 16-bit word. -/
def word16 : Reader UInt16 where
  run
    | ⟨a :: b :: rest, p⟩ => .ok (BigEndian.join16 a b, ⟨rest, p + 2⟩)
    | ⟨_, p⟩ => .error (.truncated p)
  advances {c _ _} h := by
    obtain ⟨rest, p⟩ := c
    match rest, h with
    | a :: b :: rest, h =>
      cases h
      exact ⟨[a, b], rfl, rfl⟩

/-- A 32-bit word. -/
def word32 : Reader UInt32 where
  run
    | ⟨a :: b :: c :: d :: rest, p⟩ => .ok (BigEndian.join32 a b c d, ⟨rest, p + 4⟩)
    | ⟨_, p⟩ => .error (.truncated p)
  advances {c _ _} h := by
    obtain ⟨rest, p⟩ := c
    match rest, h with
    | a :: b :: c :: d :: rest, h =>
      cases h
      exact ⟨[a, b, c, d], rfl, rfl⟩

/-- A 64-bit word, read as two halves. -/
def word64 : Reader UInt64 := do
  let hi ← word32
  let lo ← word32
  pure (BigEndian.join64 hi lo)

/-- Exactly `n` bytes. -/
def take (n : Nat) : Reader Bytes where
  run c :=
    let front := c.rest.take n
    if front.length = n then .ok (front, ⟨c.rest.drop n, c.position + n⟩)
    else .error (.truncated c.position)
  advances {c _ _} h := by
    simp only at h
    split at h
    · rename_i hn
      cases h
      exact ⟨c.rest.take n, by simp, by simp [hn]⟩
    · cases h

/-- The outcomes of `r` applied `n` times from `c`, behind those in `done`. -/
def timesOnto (r : Reader α) : Nat → Array α → Cursor → Except FormatError (Array α × Cursor)
  | 0, done, c => .ok (done, c)
  | n + 1, done, c =>
    match r.run c with
    | .error e => .error e
    | .ok (a, next) => timesOnto r n (done.push a) next

theorem timesOnto_advances (r : Reader α) {n : Nat} {done all : Array α} {c stop : Cursor}
    (h : timesOnto r n done c = .ok (all, stop)) : c.Advances stop := by
  induction n generalizing done c with
  | zero =>
    cases h
    exact .refl _
  | succ n ih =>
    rw [timesOnto] at h
    cases hr : r.run c with
    | error e => simp [hr] at h
    | ok out =>
      obtain ⟨a, next⟩ := out
      simp only [hr] at h
      exact (r.advances hr).trans (ih h)

/-- What `r` reads when it is applied `n` times. -/
def times (n : Nat) (r : Reader α) : Reader (List α) where
  run c :=
    match timesOnto r n #[] c with
    | .error e => .error e
    | .ok (all, stop) => .ok (all.toList, stop)
  advances {c _ _} h := by
    cases hr : timesOnto r n #[] c with
    | error e => simp [hr] at h
    | ok out =>
      obtain ⟨all, stop⟩ := out
      simp only [hr] at h
      cases h
      exact timesOnto_advances r hr

/-- A 16-bit count and as many values. -/
def counted16 (r : Reader α) : Reader (List α) := do
  let n ← word16
  times n.toNat r

end Reader

end ClassTemplates
