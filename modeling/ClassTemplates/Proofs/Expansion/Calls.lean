import Mathlib.Data.List.Induction
import ClassTemplates.Proofs.Expansion.Initializer

/-!
# What is asked of a type initializer

A type initializer is told of constants and methods and asked for its code, in any order. The pool
may have no room for the code, so that it is lost half-way. Code is given once nevertheless, and one
method is recorded at most. The calls in front of the first one for the code decide what it is.

## Main definitions

- `Initializer.Call`, `Initializer.Answer` — what may be asked of an initializer, and what it says
- `Initializer.after`, `Initializer.answers` — the initializer behind some calls, and the answers

## Main results

- `Initializer.isOpen_after_iff` — when a method that is found is recorded
- `Initializer.after_unasked` — the initializer as long as nobody has asked for the code
- `Initializer.gives_once` — code is given once, and which
-/

namespace ClassTemplates

namespace Initializer

open Expander (Onward Ready)

/-- What may be asked of an initializer. The code is asked for with any expander. -/
inductive Call
  | defer (c : DeferredConstant)
  | found (method : Nat)
  | finalize (catalog : Catalog) (lookup : LookupMethod) (owner : String) (e : Expander)

/-- What is said to a call. -/
inductive Answer
  | deferred
  | found (recorded : Bool)
  | finalized (result : Except PoolError (Option Injection)) (e : Expander)

namespace Call

def perform : Call → Initializer → Answer × Initializer
  | defer c, i => (.deferred, i.defer c)
  | found method, i => (.found i.isOpen, i.found method)
  | finalize catalog lookup owner e, i =>
    match i.finalize catalog lookup owner e with
    | (result, i, e) => (.finalized result e, i)

/-- The constant that a call defers. -/
def constant? : Call → Option DeferredConstant
  | defer c => some c
  | _ => none

/-- The method that a call tells of. -/
def method? : Call → Option Nat
  | found method => some method
  | _ => none

/-- The call asks for the code. -/
def Asks : Call → Prop
  | finalize .. => True
  | _ => False

end Call

namespace Answer

/-- There is code to add. -/
def gives : Answer → Bool
  | finalized (.ok (some _)) _ => true
  | _ => false

/-- The method that was found is the one that counts. -/
def records : Answer → Bool
  | found recorded => recorded
  | _ => false

end Answer

/-- The initializer behind some calls. -/
def after (calls : List Call) (i : Initializer) : Initializer :=
  calls.foldl (fun i call => (call.perform i).2) i

/-- What is said to one call after the other. -/
def answers : List Call → Initializer → List Answer
  | [], _ => []
  | call :: rest, i => (call.perform i).1 :: answers rest (call.perform i).2

variable {catalog : Catalog} {lookup : LookupMethod} {owner : String} {i i' : Initializer}
  {e e' : Expander} {call : Call} {calls : List Call}

theorem after_concat (calls : List Call) (call : Call) (i : Initializer) :
    after (calls ++ [call]) i = (call.perform (after calls i)).2 := by
  simp [after]

/-! ### At most once

What is said once at most puts the initializer into a state in which it is not said, and which is
never left. -/

theorem countP_answers_le_one {said : Answer → Bool} {P : Initializer → Prop}
    (hdone : ∀ (call : Call) i, said (call.perform i).1 → P (call.perform i).2)
    (hkeep : ∀ (call : Call) i, P i → said (call.perform i).1 = false ∧ P (call.perform i).2)
    (calls : List Call) (i : Initializer) : (answers calls i).countP said ≤ 1 := by
  have hnone (calls : List Call) : ∀ i, P i → (answers calls i).countP said = 0 := by
    induction calls with
    | nil => exact fun _ _ => rfl
    | cons call rest ih =>
      intro i hi
      obtain ⟨hsaid, hi⟩ := hkeep call i hi
      rw [answers, List.countP_cons, hsaid, ih _ hi]
      rfl
  induction calls generalizing i with
  | nil => exact Nat.zero_le _
  | cons call rest ih =>
    rw [answers, List.countP_cons]
    cases hsaid : said (call.perform i).1 with
    | true => simp [hnone rest _ (hdone call i hsaid)]
    | false => simpa using ih _

/-! ### The code -/

theorem finalize_of_isOver (h : i.IsOver) (catalog : Catalog) (lookup : LookupMethod)
    (owner : String) (e : Expander) : i.finalize catalog lookup owner e = (.ok none, i, e) :=
  if_pos (isOver_iff.2 h)

/-- Code that can be made, or that there is no need for, is the last one. -/
theorem isOver_of_finalize {result : Option Injection}
    (h : i.finalize catalog lookup owner e = (.ok result, i', e')) : i'.IsOver := by
  cases finalizes h with
  | ended hover => exact hover
  | nothing | made => exact .inl rfl

/-- The first time that the code is asked for and can be made, there is some if a constant was
deferred. -/
theorem isSome_of_finalize {result : Option Injection} (hi : i.Waiting)
    (h : i.finalize catalog lookup owner e = (.ok result, i', e')) :
    result.isSome ↔ i.deferred ≠ #[] := by
  cases finalizes h with
  | ended hover => exact absurd hover (waiting_iff.1 hi)
  | nothing _ hempty => simp [hempty]
  | made _ hne => simp [hne]

theorem IsOver.perform (h : i.IsOver) (call : Call) :
    (call.perform i).1.gives = false ∧ (call.perform i).2.IsOver := by
  cases call with
  | defer c => exact ⟨rfl, h⟩
  | found method =>
    refine ⟨rfl, ?_⟩
    rcases h with h | h <;> simp [Call.perform, found, IsOver, h]
  | finalize catalog lookup owner e =>
    rw [Call.perform, finalize_of_isOver h]
    exact ⟨rfl, h⟩

theorem IsOver.after (h : i.IsOver) (calls : List Call) : (after calls i).IsOver := by
  induction calls generalizing i with
  | nil => exact h
  | cons call rest ih => exact ih (h.perform call).2

theorem isOver_of_gives (h : (call.perform i).1.gives) : (call.perform i).2.IsOver := by
  cases call with
  | defer c => cases h
  | found method => cases h
  | finalize catalog lookup owner e =>
    rcases hrun : i.finalize catalog lookup owner e with ⟨result, i', e'⟩
    rw [Call.perform, hrun] at h ⊢
    cases result with
    | error fault => cases h
    | ok injection => exact isOver_of_finalize hrun

theorem countP_gives_le_one (calls : List Call) (i : Initializer) :
    (answers calls i).countP Answer.gives ≤ 1 :=
  countP_answers_le_one (fun _ _ => isOver_of_gives) (fun call _ h => h.perform call) calls i

/-! ### The method -/

theorem isOpen_finalize : (i.finalize catalog lookup owner e).2.1.isOpen = false := by
  rcases hrun : i.finalize catalog lookup owner e with ⟨result, i', e'⟩
  cases finalizes hrun with
  | ended hover => rcases hover with hs | hs <;> rw [isOpen, hs] <;> rfl
  | nothing | made => rfl
  | failed hwaiting => rcases hwaiting with hs | ⟨method, hs⟩ <;> rw [isOpen, hs] <;> rfl

/-- A method can be recorded behind a call if it could be before and the call defers. -/
theorem isOpen_perform : (call.perform i).2.isOpen ↔ i.isOpen ∧ call.constant?.isSome := by
  cases call with
  | defer c => simp [Call.perform, Call.constant?, defer, isOpen]
  | found method => simp [Call.perform, Call.constant?, isOpen_found]
  | finalize catalog lookup owner e => simp [Call.perform, Call.constant?, isOpen_finalize]

theorem records_perform_iff : (call.perform i).1.records ↔ i.isOpen ∧ call.method?.isSome := by
  cases call <;> simp [Call.perform, Call.method?, Answer.records]

theorem countP_records_le_one (calls : List Call) (i : Initializer) :
    (answers calls i).countP Answer.records ≤ 1 := by
  refine countP_answers_le_one (P := fun i => i.isOpen = false) ?_ ?_ calls i
  · intro call i h
    cases call with
    | found method => exact isOpen_found
    | _ => cases h
  · intro call i hi
    exact ⟨Bool.eq_false_iff.2 fun h => by simp [records_perform_iff.1 h] at hi,
      Bool.eq_false_iff.2 fun h => by simp [isOpen_perform.1 h] at hi⟩

theorem isOpen_after_iff : (after calls i).isOpen ↔
    i.isOpen ∧ ∀ call ∈ calls, call.constant?.isSome := by
  induction calls generalizing i with
  | nil => simp [after]
  | cons call rest ih =>
    rw [List.forall_mem_cons, ← and_assoc, ← isOpen_perform]
    exact ih

/-! ### Calls in front of the first one for the code -/

/-- As long as nobody has asked for the code, the first method that was found is recorded, and the
deferred constants are kept in order. -/
theorem after_unasked (hcalls : ∀ call ∈ calls, ¬call.Asks) : after calls new =
    ⟨(calls.findSome? Call.method?).elim .notStarted .found,
      (calls.filterMap Call.constant?).toArray⟩ := by
  induction calls using List.reverseRecOn with
  | nil => rfl
  | append_singleton calls call ih =>
    obtain ⟨hfront, hcall⟩ := List.forall_mem_append.1 hcalls
    rw [after_concat, ih hfront]
    cases call with
    | defer c => simp [Call.perform, Call.constant?, Call.method?, defer]
    | found method =>
      cases hm : calls.findSome? Call.method? <;>
        simp [Call.perform, Call.constant?, Call.method?, found, hm]
    | finalize catalog lookup owner e => exact (hcall _ (List.mem_singleton_self _) trivial).elim

theorem waiting_after (hcalls : ∀ call ∈ calls, ¬call.Asks) : (after calls new).Waiting := by
  rw [after_unasked hcalls]
  cases calls.findSome? Call.method? with
  | none => exact .inl rfl
  | some method => exact .inr ⟨method, rfl⟩

theorem Call.exists_constant_iff :
    (∃ call ∈ calls, call.constant?.isSome) ↔ calls.filterMap Call.constant? ≠ [] := by
  simp [List.filterMap_eq_nil_iff, Option.isSome_iff_ne_none]

/-- Whatever is asked of a new initializer, code is given once at most, and one method at most is
recorded: the first one, if the code had not been asked for when it was found. If the code can be
made the first time that it is asked for, there is some exactly if a constant was deferred before.
It assigns the constants that were deferred before, each once and in order, in front of the method
that was recorded or in a new initializer. From then on there is none, whatever is deferred. The
pool may be any that has no more slots than an index can name. -/
theorem gives_once :
    (∀ calls, (answers calls new).countP Answer.gives ≤ 1 ∧
      (answers calls new).countP Answer.records ≤ 1) ∧
    (∀ front method, ((Call.found method).perform (after front new)).1 = .found true ↔
      ∀ call ∈ front, call.constant?.isSome) ∧
    ∀ front catalog lookup owner e result i e', (∀ call ∈ front, ¬call.Asks) →
      (after front new).finalize catalog lookup owner e = (.ok result, i, e') →
        (result.isSome ↔ ∃ call ∈ front, call.constant?.isSome) ∧
        (∀ injection, result = some injection → e.pool.Bounded →
          ∃ code, e'.Fills catalog owner (front.filterMap Call.constant?) code ∧
            (e.Ready lookup →
              Assigns catalog lookup owner e'.pool (front.filterMap Call.constant?) code) ∧
            injection = match front.findSome? Call.method? with
              | some method => .prepend method code
              | none => .synthesize (code ++ [.op Opcode.voidReturn])) ∧
        ∀ later catalog lookup owner e, (after later i).finalize catalog lookup owner e =
          (.ok none, after later i, e) := by
  refine ⟨fun calls => ⟨countP_gives_le_one calls new, countP_records_le_one calls new⟩, ?_, ?_⟩
  · intro front method
    have hopen : (after front new).isOpen ↔ new.isOpen ∧ ∀ call ∈ front, call.constant?.isSome :=
      isOpen_after_iff
    simpa [Call.perform, isOpen, new] using hopen
  · intro front catalog lookup owner e result i e' hfront h
    have hwaiting := waiting_after hfront
    rw [after_unasked hfront] at h hwaiting
    refine ⟨?_, ?_, fun later _ _ _ _ => finalize_of_isOver ((isOver_of_finalize h).after later) ..⟩
    · rw [isSome_of_finalize hwaiting h, Call.exists_constant_iff]
      simp
    · rintro injection rfl hb
      obtain ⟨-, ho, hcases⟩ := finalize_fills hwaiting hb h
      rcases hcases with ⟨-, hnone, -⟩ | ⟨code, -, hfills, hinjection⟩
      · cases hnone
      · refine ⟨code, hfills, fun he => hfills.assigns (ho.ready he), ?_⟩
        cases hinjection
        cases front.findSome? Call.method? <;> rfl

theorem gives_once_prepended :
    let catalog : Catalog := ⟨#[⟨"app", "key", "\x60BuildConfig#m#v\x60"⟩]⟩
    let front : List Call := [.defer ⟨"A", "\x60BuildConfig#m#v\x60"⟩, .found 3, .defer ⟨"B", "b"⟩,
      .found 5]
    ∃ code i e', (after front new).finalize catalog ⟨"Config", "get"⟩ "C" (.ofPool .empty) =
        (.ok (some (.prepend 3 code)), i, e') ∧
      Assigns catalog ⟨"Config", "get"⟩ "C" e'.pool
        [⟨"A", "\x60BuildConfig#m#v\x60"⟩, ⟨"B", "b"⟩] code ∧
      ∀ later lookup owner e, (after later i).finalize catalog lookup owner e =
        (.ok none, after later i, e) := by
  intro catalog front
  have hunasked : ∀ call ∈ front, ¬call.Asks := by simp [front, Call.Asks]
  rcases hrun : (after front new).finalize catalog ⟨"Config", "get"⟩ "C" (.ofPool .empty)
    with ⟨result, i, e'⟩
  have hok : ((after front new).finalize catalog ⟨"Config", "get"⟩ "C" (.ofPool .empty)).1.map
      Option.isSome = .ok true := by
    decide +kernel
  rw [hrun] at hok
  obtain ⟨injection, rfl, hsome⟩ := map_eq_ok.1 hok
  obtain ⟨injection, rfl⟩ := Option.isSome_iff_exists.1 hsome
  obtain ⟨-, hcode, hlater⟩ := gives_once.2.2 front _ _ _ _ _ _ _ hunasked hrun
  have hbounded : Pool.empty.Bounded := Nat.zero_le _
  obtain ⟨code, -, hassigns, rfl⟩ := hcode injection rfl hbounded
  exact ⟨code, i, e', rfl, hassigns (Expander.ready_ofPool hbounded),
    fun later => hlater later catalog⟩

end Initializer

end ClassTemplates
