import Mathlib.Data.Finmap
import Mathlib.Logic.Relation
import ClassTemplates.Proofs.Body.Placements

/-!
# A symbolic machine

A machine that runs method bodies. It knows texts and the builders they are appended to, and calls
the lookup method by an arbitrary function. What every other instruction does, on values of any kind
and in a world of any kind, is a parameter, as is what a handler catches.

## Main definitions

- `Machine.Value`, `Memory`, `Transfer` — what instructions work on, and where control goes
- `Machine` — what is left open
- `Machine.Primitive` — the instructions with a meaning of their own
- `Machine.Step` — one step of a body, in which some instructions may push the value of segments
-/

namespace ClassTemplates

namespace Machine

/-- A value on the operand stack. -/
inductive Value (α : Type)
  | text (text : String)
  /-- A reference to a builder. -/
  | builder (r : Nat)
  | other (value : α)

/-- A call of the lookup method. -/
structure Call where
  moduleId : String
  key : String
  fallback : String

/-- The operand stack, the builders, the calls of the lookup method in order, and all else. -/
structure Memory (α ω : Type) where
  stack : List (Value α)
  builders : Finmap fun _ : Nat => String
  calls : List Call
  world : ω

/-- Where control goes behind an instruction. -/
inductive Transfer (α : Type)
  | next
  | branch (l : Label)
  | raise (value : Value α)
  /-- Out of the method. -/
  | leave

/-- The memory with builders that were not in it. -/
def Memory.beside {α ω : Type} (m : Memory α ω) (g : Finmap fun _ : Nat => String) : Memory α ω :=
  { m with builders := m.builders ∪ g }

end Machine

open Machine in
/-- What is left open about a machine, for values of type `α` and a world of type `ω`. -/
structure Machine (α ω : Type) where
  /-- What the lookup method returns for a module, a key and a fallback. -/
  lookup : String → String → String → String
  /-- What an instruction may do that has no meaning of its own. -/
  act : Insn → Memory α ω → Transfer α → Memory α ω → Prop
  /-- A handler for a class catches a value. -/
  catches : UInt16 → Value α → Bool
  /-- Builders that an instruction does not know make no difference to it. -/
  act_beside : ∀ {i m o m'} {g : Finmap fun _ : Nat => String}, act i m o m' →
    m.builders.Disjoint g → m'.builders.Disjoint g → act i (m.beside g) o (m'.beside g)

namespace Machine

variable {α ω : Type}

/-! ### Instructions -/

/-- An instruction with a meaning of its own. -/
inductive Primitive
  | load (text : String)
  /-- Makes an empty builder. -/
  | allocate
  | duplicate
  /-- Takes off the builder that is initialized. -/
  | construct
  | append
  /-- Takes the text out of a builder. -/
  | toText
  | lookup

/-- The meaning that a call has of its own, by the reference it names. -/
def Primitive.ofCall? (lookup : LookupMethod) (opcode : UInt8) (m : MemberRef) : Option Primitive :=
  if opcode = Opcode.invokespecial ∧ m = ⟨Expander.builderClass, "<init>", "()V"⟩ then
    some construct
  else if opcode = Opcode.invokevirtual ∧
      m = ⟨Expander.builderClass, "append", "(Ljava/lang/String;)Ljava/lang/StringBuilder;"⟩ then
    some append
  else if opcode = Opcode.invokevirtual ∧
      m = ⟨Expander.builderClass, "toString", "()Ljava/lang/String;"⟩ then
    some toText
  else if opcode = Opcode.invokestatic ∧
      m = ⟨lookup.owner, lookup.name, LookupMethod.descriptor⟩ then
    some .lookup
  else none

/-- The meaning that an instruction has of its own, if it has one. -/
def Primitive.ofInsn? (lookup : LookupMethod) (p : Pool) : Insn → Option Primitive
  | .ldc index => (p.stringValue? index).map load
  | .op opcode => if opcode = Opcode.dup then some duplicate else none
  | .type opcode index =>
    if opcode = Opcode.newObject ∧ p.className? index = some Expander.builderClass then
      some allocate
    else none
  | .invoke opcode index => (p.member? index).bind (ofCall? lookup opcode)
  | _ => none

/-- The stack holds what the instruction works on. -/
def Primitive.accepts : Primitive → List (Value α) → Bool
  | load _, _ | allocate, _ => true
  | duplicate, _ :: _ => true
  | construct, .builder _ :: _ => true
  | append, .text _ :: .builder _ :: _ => true
  | toText, .builder _ :: _ => true
  | .lookup, .text _ :: .text _ :: .text _ :: _ => true
  | _, _ => false

/-- What an instruction with a meaning of its own does. -/
inductive Primitive.Does (M : Machine α ω) : Primitive → Memory α ω → Memory α ω → Prop
  | load {text st b c w} : Does M (load text) ⟨st, b, c, w⟩ ⟨.text text :: st, b, c, w⟩
  | allocate {r st b c w} : r ∉ b →
      Does M allocate ⟨st, b, c, w⟩ ⟨.builder r :: st, b.insert r "", c, w⟩
  | duplicate {v st b c w} : Does M duplicate ⟨v :: st, b, c, w⟩ ⟨v :: v :: st, b, c, w⟩
  | construct {r st b c w} : Does M construct ⟨.builder r :: st, b, c, w⟩ ⟨st, b, c, w⟩
  | append {t r s st b c w} : b.lookup r = some s →
      Does M append ⟨.text t :: .builder r :: st, b, c, w⟩
        ⟨.builder r :: st, b.insert r (s ++ t), c, w⟩
  | toText {r s st b c w} : b.lookup r = some s →
      Does M toText ⟨.builder r :: st, b, c, w⟩ ⟨.text s :: st, b, c, w⟩
  | lookup {x y z st b c w} :
      Does M .lookup ⟨.text z :: .text y :: .text x :: st, b, c, w⟩
        ⟨.text (M.lookup x y z) :: st, b, c ++ [⟨x, y, z⟩], w⟩

/-- What an instruction does: its own meaning where it has one that fits the stack, and else
anything that the machine has it do. -/
inductive Executes (M : Machine α ω) (lookup : LookupMethod) (p : Pool) (i : Insn)
    (m : Memory α ω) : Transfer α → Memory α ω → Prop
  | own {a : Primitive} {m' : Memory α ω} : Primitive.ofInsn? lookup p i = some a →
      a.accepts m.stack → a.Does M m m' → Executes M lookup p i m .next m'
  | other {o : Transfer α} {m' : Memory α ω} :
      (∀ a, Primitive.ofInsn? lookup p i = some a → a.accepts m.stack = false) →
      M.act i m o m' → Executes M lookup p i m o m'

/-! ### Control -/

/-- The index of the next instruction, unless the method was left, and the memory. -/
abbrev State (α ω : Type) := Option Nat × Memory α ω

/-- The handler protects the instruction with an index. -/
def covers (b : Body) (h : Handler Label) (k : Nat) : Bool :=
  match b.placements[h.start]?, b.placements[h.stop]? with
  | some start, some stop => start ≤ k && k < stop
  | _, _ => false

/-- The first handler that protects an instruction and catches a value. -/
def handler? (M : Machine α ω) (b : Body) (k : Nat) (v : Value α) : Option (Handler Label) :=
  b.handlers.find? fun h => covers b h k && M.catches h.caught v

/-- Where a body goes on behind the instruction with an index. -/
inductive Resumes (M : Machine α ω) (b : Body) (k : Nat) :
    Transfer α → Memory α ω → State α ω → Prop
  | next {m} : Resumes M b k .next m (some (k + 1), m)
  | branch {l j m} : b.placements[l]? = some j → Resumes M b k (.branch l) m (some j, m)
  | caught {v h j m} : M.handler? b k v = some h → b.placements[h.target]? = some j →
      Resumes M b k (.raise v) m (some j, { m with stack := [v] })
  | uncaught {v m} : M.handler? b k v = none → Resumes M b k (.raise v) m (none, m)
  | leave {m} : Resumes M b k .leave m (none, m)

/-! ### Values of segments -/

/-- The text that a segment stands for. -/
def value (M : Machine α ω) : Segment → String
  | .literal text => text
  | .bound b => M.lookup b.moduleId b.key b.fallback
  | .unbound token => token

/-- The text that segments stand for, left to right. -/
def valueOf (M : Machine α ω) (segments : List Segment) : String :=
  String.join (segments.map M.value)

/-- The call of the lookup method that a segment takes. -/
def call? : Segment → Option Call
  | .bound b => some ⟨b.moduleId, b.key, b.fallback⟩
  | _ => none

/-- The memory with the value of segments on the stack, once the lookup method was called. -/
def pushValue (M : Machine α ω) (segments : List Segment) (m : Memory α ω) : Memory α ω :=
  { m with
    stack := .text (M.valueOf segments) :: m.stack
    calls := m.calls ++ segments.filterMap call? }

/-- One step of a body, in which the instructions with the indices in `planned` push the value of
segments. -/
inductive Step (M : Machine α ω) (lookup : LookupMethod) (p : Pool) (b : Body)
    (planned : Nat → Option (List Segment)) : State α ω → State α ω → Prop
  | label {k l m} : b.insns[k]? = some (.label l) →
      Step M lookup p b planned (some k, m) (some (k + 1), m)
  | planned {k segments m} : planned k = some segments →
      Step M lookup p b planned (some k, m) (some (k + 1), M.pushValue segments m)
  | insn {k i m o m' s} : b.insns[k]? = some i → i.isLabel = false → planned k = none →
      Executes M lookup p i m o m' → Resumes M b k o m' s →
      Step M lookup p b planned (some k, m) s

end Machine

end ClassTemplates
