/-!
# Stack-map frames

A stack map describes the locals and the stack at some offsets of a method. Each frame is stored as
its distance from the one before, minus one, and as a change of the locals; the first distance
counts from the start of the code, in full. Moving code changes distances and the offsets of
uninitialized objects only.

## Main definitions

- `VerificationType`, `FrameShape`, `Frame` — the contents of a frame
- `Frame.types`, `FrameShape.mapTypesM` — the types a frame mentions
- `Frame.offsets` — the offset of each frame
- `Frame.deltas?` — the distances that give frames their offsets
- `Frame.withDeltas` — frames with other distances
-/

namespace ClassTemplates

/-- The type of a local or of a stack slot. -/
inductive VerificationType
  | top
  | integer
  | float
  | double
  | long
  | null
  | uninitializedThis
  /-- An object of the class with this index. -/
  | object (index : UInt16)
  /-- An object made by the allocation at this offset, before its constructor ran. -/
  | uninitialized (offset : UInt16)
  deriving DecidableEq, Repr

/-- What a frame says about locals and stack, relative to the frame before it. -/
inductive FrameShape
  /-- The same locals and an empty stack. -/
  | same
  /-- The same locals and one stack entry. -/
  | oneItem (item : VerificationType)
  /-- The same locals and one stack entry, in the form with a two-byte distance. -/
  | oneItemExtended (item : VerificationType)
  /-- The last `count` locals are gone. -/
  | chop (count : UInt8)
  /-- The same locals and an empty stack, in the form with a two-byte distance. -/
  | sameExtended
  /-- Some locals more. -/
  | append (locals : List VerificationType)
  /-- All locals and the whole stack. -/
  | full (locals stack : List VerificationType)
  deriving DecidableEq, Repr

/-- A frame: its distance from the one before, and its contents. -/
structure Frame where
  delta : UInt16
  shape : FrameShape
  deriving DecidableEq, Repr

namespace FrameShape

/-- The types a shape mentions, locals before stack. -/
def types : FrameShape → List VerificationType
  | same | chop _ | sameExtended => []
  | oneItem item | oneItemExtended item => [item]
  | append locals => locals
  | full locals stack => locals ++ stack

/-- The shape with `f` applied to each of its types, in the order of `types`. -/
def mapTypesM {m : Type → Type} [Monad m] (f : VerificationType → m VerificationType) :
    FrameShape → m FrameShape
  | same => pure same
  | oneItem item => do
    let item ← f item
    pure (oneItem item)
  | oneItemExtended item => do
    let item ← f item
    pure (oneItemExtended item)
  | chop count => pure (chop count)
  | sameExtended => pure sameExtended
  | append locals => do
    let locals ← locals.mapM f
    pure (append locals)
  | full locals stack => do
    let locals ← locals.mapM f
    let stack ← stack.mapM f
    pure (full locals stack)

end FrameShape

namespace Frame

/-- The types a frame mentions, locals before stack. -/
def types (f : Frame) : List VerificationType :=
  f.shape.types

/-- The offset of a frame behind one at `previous`. -/
def offsetAfter (previous : Option Nat) (delta : UInt16) : Nat :=
  match previous with
  | none => delta.toNat
  | some p => p + delta.toNat + 1

/-- The offsets of frames that follow one at `previous`. -/
def offsetsFrom (previous : Option Nat) : List Frame → List Nat
  | [] => []
  | f :: frames =>
    let offset := offsetAfter previous f.delta
    offset :: offsetsFrom (some offset) frames

/-- The offset of each frame of a table. -/
def offsets (frames : List Frame) : List Nat :=
  offsetsFrom none frames

/-- The distance of `offset` behind a frame at `previous`, if two bytes can hold it. -/
def deltaAfter? (previous : Option Nat) (offset : Nat) : Option UInt16 :=
  let least := match previous with
    | none => 0
    | some p => p + 1
  if least ≤ offset ∧ offset - least ≤ 0xffff then some (UInt16.ofNat (offset - least))
  else none

/-- The distances of offsets that follow one at `previous`. -/
def deltasFrom? (previous : Option Nat) : List Nat → Option (List UInt16)
  | [] => some []
  | offset :: offsets => do
    let delta ← deltaAfter? previous offset
    let deltas ← deltasFrom? (some offset) offsets
    pure (delta :: deltas)

/-- The distances that give frames the listed offsets; `none` if the offsets do not increase or lie
too far apart. -/
def deltas? (offsets : List Nat) : Option (List UInt16) :=
  deltasFrom? none offsets

/-- The frames with the given distances in place of their own, as far as there are any. -/
def withDeltas : List Frame → List UInt16 → List Frame
  | f :: frames, delta :: deltas => { f with delta := delta } :: withDeltas frames deltas
  | frames, _ => frames

end Frame

end ClassTemplates
