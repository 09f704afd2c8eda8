import ClassTemplates.Body.Basic
import ClassTemplates.Depth.Effect

/-!
# Stack depth

The depth of the operand stack in front of every instruction that control can reach. Every path has
to agree on it, no path may take more off the stack than is on it or run past the last instruction.
Depths are counted in slots.

## Main definitions

- `DepthError` — why a body has no depths
- `Depth.successors` — where control goes from an instruction, and with which depth
- `Depth.explore` — the walk over all instructions that can be reached
- `Body.depths`, `Body.analyze`, `Body.checkDepth` — the analysis of a body
-/

namespace ClassTemplates

/-- Why a body has no stack depths, or too large ones. Positions are indices of instructions. -/
inductive DepthError
  | underflow (position : Nat) (depth needed : UInt16)
  | inconsistent (position : Nat) (expected found : UInt16)
  | fallsOffEnd
  | badConstant (position : Nat) (index : UInt16)
  | unboundLabel (label : Nat)
  | exceedsMaxStack (depth maxStack : UInt16)
  | emptyCode
  deriving DecidableEq, Repr

/-- The wording of a depth error. -/
def DepthError.message : DepthError → String
  | underflow position depth needed =>
    s!"Stack underflow at instruction {position}: depth {depth}, pops {needed}"
  | inconsistent position expected found =>
    s!"Inconsistent stack depth at instruction {position}: "
      ++ s!"{expected} on one path, {found} on another"
  | fallsOffEnd => "Execution falls off the end of the code"
  | badConstant position index =>
    s!"Unresolvable constant pool reference {index} at instruction {position}"
  | unboundLabel label => s!"Jump to unbound label {label}"
  | exceedsMaxStack depth maxStack => s!"Stack depth {depth} exceeds max_stack {maxStack}"
  | emptyCode => "Method body is empty"

/-- What the analysis of a body found. -/
structure DepthSummary where
  /-- The deepest stack on any path. -/
  maxDepth : UInt16
  /-- The number of instructions that control can reach. -/
  reachable : Nat
  deriving DecidableEq, Repr

namespace Depth

/-- An instruction that control reaches, by index, and the depth it is reached with. -/
structure Arrival where
  position : Nat
  depth : UInt16
  deriving DecidableEq, Repr

/-- The index at which a label is placed. -/
def place (placements : Std.HashMap Label Nat) (l : Label) : Except DepthError Nat :=
  match placements[l]? with
  | some position => .ok position
  | none => .error (.unboundLabel l.id)

/-- Where control goes from the instruction at `position`, reached at `depth` and left at `after`.
The arrival that is listed last is followed first. -/
def successors (placements : Std.HashMap Label Nat) (insn : Insn) (position : Nat)
    (depth after : UInt16) : Except DepthError (List Arrival) :=
  match insn with
  | .jump opcode target => do
    let target ← place placements target
    if opcode = Opcode.goto || opcode = Opcode.gotoWide then pure [⟨target, after⟩]
    else if opcode = Opcode.jsr || opcode = Opcode.jsrWide then
      pure [⟨target, after⟩, ⟨position + 1, depth⟩]
    else pure [⟨target, after⟩, ⟨position + 1, after⟩]
  | .tableSwitch .. | .lookupSwitch .. => do
    let targets ← insn.targets.mapM (place placements)
    pure (targets.map fun target => ⟨target, after⟩)
  | .op opcode | .localVar opcode _ =>
    pure (if Opcode.endsFlow opcode then [] else [⟨position + 1, after⟩])
  | _ => pure [⟨position + 1, after⟩]

/-- One step: what an instruction that is reached for the first time leads to, and the deeper of the
depths around it. -/
def step (pool : Pool) (placements : Std.HashMap Label Nat) (insn : Insn) (position : Nat)
    (depth : UInt16) : Except DepthError (UInt16 × List Arrival) :=
  match Effect.ofInsn? pool insn with
  | none => .error (.badConstant position insn.constantIndex)
  | some effect =>
    if depth < effect.pops then .error (.underflow position depth effect.pops)
    else do
      let after := effect.after depth
      let next ← successors placements insn position depth after
      pure (max depth after, next)

/-- The depths found when the arrivals in `waiting` are followed, first to last, on top of the
depths already known. -/
def explore (pool : Pool) (placements : Std.HashMap Label Nat) (insns : Array Insn)
    (known : Vector (Option UInt16) insns.size) (deepest : UInt16) (waiting : List Arrival) :
    Except DepthError (UInt16 × Vector (Option UInt16) insns.size) :=
  match waiting with
  | [] => .ok (deepest, known)
  | ⟨position, depth⟩ :: waiting =>
    if h : position < insns.size then
      match _hk : known[position] with
      | some expected =>
        if expected = depth then explore pool placements insns known deepest waiting
        else .error (.inconsistent position expected depth)
      | none =>
        match step pool placements insns[position] position depth with
        | .error e => .error e
        | .ok (deeper, next) =>
          explore pool placements insns (known.set position (some depth)) (max deepest deeper)
            (next.reverse ++ waiting)
    else .error .fallsOffEnd
termination_by (known.toArray.countP (·.isNone), waiting.length)
decreasing_by
  · exact Prod.Lex.right _ (by simp)
  · apply Prod.Lex.left
    rw [Vector.toArray_set, Array.countP_set]
    have hpos : 0 < known.toArray.countP (·.isNone) := by
      rw [Array.countP_pos_iff]
      refine ⟨none, ?_, rfl⟩
      rw [← _hk]
      exact (Vector.mem_toArray_iff _ _).2 (Vector.getElem_mem h)
    have hbound : position < known.toArray.size := by simpa using h
    have hnone : known.toArray[position] = none := _hk
    rw [hnone]
    simp only [Option.isNone_none, Option.isNone_some, if_true, Bool.false_eq_true, if_false]
    omega

end Depth

namespace Body

/-- The summary of a body and the depth in front of each instruction that control reaches. -/
def depths (b : Body) (pool : Pool) : Except DepthError (DepthSummary × List (Option UInt16)) :=
  if b.insns.all Insn.isLabel then .error .emptyCode
  else do
    let placements := b.placements
    let handlers ← b.handlers.mapM fun h => do
      let target ← Depth.place placements h.target
      pure (⟨target, 1⟩ : Depth.Arrival)
    let insns := b.insns.toArray
    let unknown : Vector (Option UInt16) insns.size := Vector.replicate insns.size none
    let (maxDepth, known) ←
      Depth.explore pool placements insns unknown 0 (handlers.reverse ++ [⟨0, 0⟩])
    let known := known.toList
    pure (⟨maxDepth, known.countP (·.isSome)⟩, known)

/-- The summary of a body. -/
def analyze (b : Body) (pool : Pool) : Except DepthError DepthSummary :=
  (b.depths pool).map (·.1)

/-- The summary of a body whose stack may not be deeper than `maxStack`. -/
def checkDepth (b : Body) (pool : Pool) (maxStack : UInt16) : Except DepthError DepthSummary := do
  let summary ← b.analyze pool
  if summary.maxDepth > maxStack then .error (.exceedsMaxStack summary.maxDepth maxStack)
  else pure summary

end Body

end ClassTemplates
