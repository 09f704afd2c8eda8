import ClassTemplates.Proofs.Pool.Built
import ClassTemplates.Proofs.Pool.Lasting

/-!
# What is asked of a pool

A pool is asked for one thing after the other, and each call may fail for want of room, the longer
ones half-way. Whatever is asked, the pool is one that was built up, so its constants are numbered
as they should be, and an index that names a constant goes on naming it.

## Main definitions

- `Pool.Wanted`, `Pool.Call` — what may be asked of a pool
- `Pool.after` — the pool after some calls

## Main results

- `Pool.Call.perform_keeps` — what appending keeps, every call keeps
- `Pool.after_onward` — a pool only grows
- `Pool.numbered_after` — the numbers of a pool after any calls, and when there is no room
-/

namespace ClassTemplates

namespace Pool

/-- An entry that is asked for by what it stands for. -/
inductive Wanted
  | utf8 (text : String)
  | «class» (name : String)
  | string (text : String)
  | nameAndType (name descriptor : String)
  | fieldRef (owner name descriptor : String)
  | methodRef (owner name descriptor : String)
  | long (value : Int64)
  deriving DecidableEq, Repr

/-- The index of the entry that is wanted, added if it is absent. -/
def Wanted.add : Wanted → PoolM UInt16
  | utf8 text => addUtf8 text
  | «class» name => addClass name
  | string text => addString text
  | nameAndType name descriptor => addNameAndType name descriptor
  | fieldRef owner name descriptor => addFieldRef owner name descriptor
  | methodRef owner name descriptor => addMethodRef owner name descriptor
  | long value => addLong value

/-- What may be asked of a pool: to append a constant, to find or append one, and to do so with an
entry and all it refers to. -/
inductive Call
  | push (c : Constant)
  | insert (c : Constant)
  | add (wanted : Wanted)
  deriving DecidableEq, Repr

namespace Call

def perform : Call → PoolM UInt16
  | push c => Pool.push c
  | insert c => Pool.insert c
  | add wanted => wanted.add

/-- The call hands in no second slot. -/
def Proper : Call → Prop
  | push c | insert c => c ≠ .secondSlot
  | add _ => True

instance : DecidablePred Proper
  | push c | insert c => inferInstanceAs (Decidable (c ≠ .secondSlot))
  | add _ => isTrue trivial

end Call

/-- The pool after some calls, whether they succeed or not. -/
def after (calls : List Call) (p : Pool) : Pool :=
  calls.foldl (fun p call => (call.perform.run p).2) p

variable {P : Pool → Prop} {p q : Pool} {c : Constant} {i : UInt16}

/-! ### What is kept -/

theorem insert_keeps (hpush : Keeps P (push c)) : Keeps P (insert c) := by
  intro p hp
  cases hfind : p.find? c with
  | some i =>
    rw [insert_of_find? hfind]
    exact hp
  | none =>
    rw [insert_of_find?_eq_none hfind]
    exact hpush p hp

/-- The members of an entry are inserted one by one. -/
theorem Wanted.add_keeps (hpush : ∀ c ≠ .secondSlot, Keeps P (push c)) (wanted : Wanted) :
    Keeps P wanted.add := by
  have hutf8 (text : String) : Keeps P (addUtf8 text) := insert_keeps (hpush _ (by simp))
  have hclass (name : String) : Keeps P (addClass name) :=
    (hutf8 name).bind fun _ => insert_keeps (hpush _ (by simp))
  have hnat (name descriptor : String) : Keeps P (addNameAndType name descriptor) :=
    (hutf8 name).bind fun _ => (hutf8 descriptor).bind fun _ => insert_keeps (hpush _ (by simp))
  cases wanted with
  | utf8 text => exact hutf8 text
  | «class» name => exact hclass name
  | string text => exact (hutf8 text).bind fun _ => insert_keeps (hpush _ (by simp))
  | nameAndType name descriptor => exact hnat name descriptor
  | fieldRef owner name descriptor =>
    exact (hclass owner).bind fun _ => (hnat name descriptor).bind fun _ =>
      insert_keeps (hpush _ (by simp))
  | methodRef owner name descriptor =>
    exact (hclass owner).bind fun _ => (hnat name descriptor).bind fun _ =>
      insert_keeps (hpush _ (by simp))
  | long value => exact insert_keeps (hpush _ (by simp))

/-- What is kept by appending constants other than second slots is kept by every call. -/
theorem Call.perform_keeps (hpush : ∀ c ≠ .secondSlot, Keeps P (Pool.push c)) {call : Call}
    (hcall : call.Proper) : Keeps P call.perform := by
  cases call with
  | push c => exact hpush c hcall
  | insert c => exact insert_keeps (hpush c hcall)
  | add wanted => exact wanted.add_keeps hpush

theorem after_keeps {calls : List Call} (hcalls : ∀ call ∈ calls, Keeps P call.perform)
    (hp : P p) : P (after calls p) := by
  induction calls generalizing p with
  | nil => exact hp
  | cons call calls ih =>
    obtain ⟨hcall, hcalls⟩ := List.forall_mem_cons.1 hcalls
    exact ih hcalls (hcall p hp)

theorem Wanted.add_lasting (wanted : Wanted) : Lasting Onward wanted.add := by
  cases wanted with
  | utf8 text => exact addUtf8_lasting text
  | «class» name => exact addClass_lasting name
  | string text => exact addString_lasting text
  | nameAndType name descriptor => exact addNameAndType_lasting name descriptor
  | fieldRef owner name descriptor => exact addFieldRef_lasting owner name descriptor
  | methodRef owner name descriptor => exact addMethodRef_lasting owner name descriptor
  | long value => exact insert_lasting (beq_self_eq_true (Constant.long value))

theorem Call.perform_onward (call : Call) (p : Pool) : p.Onward (call.perform.run p).2 := by
  cases call with
  | push c => exact push_onward c p
  | insert c => exact insert_onward c p
  | add wanted => exact wanted.add_lasting.onward p

/-- Whatever is asked of a pool, second slots included, it only grows. -/
theorem after_onward (calls : List Call) (p : Pool) : p.Onward (after calls p) := by
  refine after_keeps (P := p.Onward) (fun call _ q hq => ?_) (Std.Refl.refl p)
  exact IsTrans.trans _ _ _ hq (call.perform_onward q)

theorem bounded_after (calls : List Call) : (after calls empty).Bounded :=
  (after_onward calls empty).bounded (Nat.zero_le _)

/-! ### Numbers -/

theorem built_after {calls : List Call} (hcalls : ∀ call ∈ calls, call.Proper) :
    (after calls empty).Built := by
  have hpush (c : Constant) (hc : c ≠ .secondSlot) : Keeps Built (push c) :=
    fun p hp => .pushed hp hc rfl
  exact after_keeps (fun call hcall => Call.perform_keeps hpush (hcalls call hcall)) .empty

theorem push_eq_error {fault : PoolError} : (push c).run p = (.error fault, q) ↔
    65534 < p.slots.size + c.width ∧ fault = .outOfSpace ∧ q = p := by
  have hfits : p.fits c = true ↔ ¬65534 < p.slots.size + c.width :=
    decide_eq_true_iff.trans Nat.not_lt.symm
  by_cases hfit : p.fits c = true
  · rw [push_of_fits hfit]
    exact ⟨nofun, fun h => absurd h.1 (hfits.1 hfit)⟩
  · rw [push_of_not_fits hfit]
    constructor
    · rintro ⟨⟩
      exact ⟨Decidable.not_not.1 (mt hfits.2 hfit), rfl, rfl⟩
    · rintro ⟨-, rfl, rfl⟩
      rfl

/-- After any calls on the empty pool, its constants are numbered without fault. Whatever is asked
then, an index goes on naming the same constant, and a constant is appended unless its slots do not
fit, which leaves the pool as it is. -/
theorem numbered_after (calls later : List Call) (hcalls : ∀ call ∈ calls, call.Proper) :
    (after calls empty).Numbered ∧
      (∀ i c, (after calls empty).get? i = some c →
        (after later (after calls empty)).get? i = some c) ∧
      ∀ c fault q, (push c).run (after calls empty) = (.error fault, q) ↔
        65534 < (after calls empty).slots.size + c.width ∧ fault = .outOfSpace ∧
          q = after calls empty :=
  ⟨(built_after hcalls).numbered, fun _ _ hc => get?_mono (after_onward later _).le hc,
    fun _ _ _ => push_eq_error⟩

theorem numbered_after_wide :
    let calls : List Call := [.insert (.double 0x7ff8000000000000), .add (.fieldRef "a/B" "N" "I"),
      .insert (.double 0x7ff8000000000000), .push (.long (-1))]
    (∀ call ∈ calls, call.Proper) ∧ (after calls empty).Numbered ∧
      (after calls empty).count = 13 ∧ (after calls empty).get? 10 = some .secondSlot := by
  intro calls
  have hcalls : ∀ call ∈ calls, call.Proper := by decide
  have hnumbered := (numbered_after calls [] hcalls).1
  have hdouble : (after calls empty).get? 9 = some (.double 0x7ff8000000000000) := by
    decide +kernel
  exact ⟨hcalls, hnumbered, by decide +kernel,
    (hnumbered.secondSlot_iff 10).2 ⟨9, rfl, .inr ⟨_, hdouble⟩⟩⟩

end Pool

end ClassTemplates
