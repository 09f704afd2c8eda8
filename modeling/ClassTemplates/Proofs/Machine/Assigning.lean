import Mathlib.Data.Fintype.EquivFin
import ClassTemplates.Proofs.Expansion.Initializer
import ClassTemplates.Proofs.Machine.Straight

/-!
# Assignments on the machine

The code that assigns deferred constants, run on a symbolic machine that knows how fields are
assigned, assigns the value of each constant to its field, in order, and leaves the stack as it was.

## Main definitions

- `Machine.Stores` — what an assignment of a field does to the world
- `Machine.assigned` — the world with constants assigned

## Main results

- `Machine.runsThrough_of_assigns` — the assignments run to their end
-/

namespace ClassTemplates

namespace Machine

variable {α ω : Type} {M : Machine α ω} {lookup : LookupMethod} {catalog : Catalog} {p : Pool}
  {owner : String} {store : MemberRef → Value α → ω → ω}

/-- An assignment of a static field takes a value off the stack and changes the world by `store`. -/
def Stores (M : Machine α ω) (p : Pool) (store : MemberRef → Value α → ω → ω) : Prop :=
  ∀ i field v st b c w, p.member? i = some field →
    M.act (.field Opcode.putstatic i) ⟨v :: st, b, c, w⟩ .next ⟨st, b, c, store field v w⟩

/-- The field of the class `owner` that a constant is assigned to. -/
def fieldOf (owner : String) (c : DeferredConstant) : MemberRef :=
  ⟨owner, c.field, Initializer.stringDescriptor⟩

/-- The world once the expanded value of each constant has been assigned to its field, in order. -/
def assigned (M : Machine α ω) (store : MemberRef → Value α → ω → ω) (catalog : Catalog)
    (owner : String) (cs : List DeferredConstant) (w : ω) : ω :=
  cs.foldl (fun w c => store (fieldOf owner c)
    (.text (M.valueOf (Segment.ofText catalog c.text))) w) w

/-- The calls of the lookup method that the values of constants take, in order. -/
def callsOf (catalog : Catalog) (cs : List DeferredConstant) : List Call :=
  cs.flatMap fun c => (Segment.ofText catalog c.text).filterMap call?

/-- Code that assigns constants with bound tokens assigns their expanded values, in order. -/
theorem runsThrough_of_assigns {cs : List DeferredConstant} {code : List Insn} {m : Memory α ω}
    (hM : M.Stores p store) (hcs : ∀ c ∈ cs, catalog.bindsAny c.text = true)
    (h : Assigns catalog lookup owner p cs code) :
    ∃ builders, RunsThrough M lookup p code m
      ⟨m.stack, builders, m.calls ++ callsOf catalog cs, M.assigned store catalog owner cs m.world⟩
    := by
  induction h generalizing m with
  | nil => exact ⟨m.builders, by simpa [callsOf, assigned] using RunsThrough.nil⟩
  | @cons c rest xs ys i hgives hfield _ ih =>
    rw [List.forall_mem_cons] at hcs
    have hbuilds : Builds lookup p (Segment.ofText catalog c.text) xs := by
      rcases hgives with hbuilds | ⟨hnone, -⟩
      · exact hbuilds
      · rw [hcs.1] at hnone
        cases hnone
    obtain ⟨r, hr⟩ := Infinite.exists_notMem_finset m.builders.keys
    have hvalue := runsThrough_of_builds (M := M) (m := m) hbuilds
      fun hmem => hr (Finmap.mem_keys.2 hmem)
    have hstore : Executes M lookup p (.field Opcode.putstatic i)
        { M.pushValue (Segment.ofText catalog c.text) m with
          builders := m.builders.insert r (M.valueOf (Segment.ofText catalog c.text)) } .next _ :=
      .other (fun a ha => by cases ha) (hM i (fieldOf owner c) _ _ _ _ _ hfield)
    obtain ⟨builders, hrest⟩ := ih hcs.2
    refine ⟨builders, ?_⟩
    have hrun := hvalue.append (.cons rfl hstore hrest)
    simpa [callsOf, assigned, pushValue, List.append_assoc] using hrun

end Machine

end ClassTemplates
