/-!
# Descriptors

A descriptor gives the type of a field, or the parameter and result types of a method. What the
depth analysis needs of it is how many stack slots a value takes: two for `long` and `double`, one
otherwise.

## Main definitions

- `Descriptor.fieldSlots` — the slots of a value of a field type
- `Descriptor.methodSlots` — the slots of all parameters and of the result
- `Descriptor.resultType` — the part of a method descriptor behind its last parenthesis
-/

namespace ClassTemplates.Descriptor

/-- The one-slot primitive types. -/
def isNarrow (c : Char) : Bool :=
  c == 'B' || c == 'C' || c == 'F' || c == 'I' || c == 'S' || c == 'Z'

/-- The two-slot primitive types. -/
def isWide (c : Char) : Bool :=
  c == 'J' || c == 'D'

/-- The slots of a value whose type starts with the given character; `V` takes none. -/
def slotsOfFirst (c : Char) : Option UInt16 :=
  if isWide c then some 2
  else if c == 'V' then some 0
  else if isNarrow c || c == 'L' || c == '[' then some 1
  else none

/-- The slots of a value of a field type, judged by its first character alone. -/
def fieldSlots (descriptor : String) : Option UInt16 :=
  match descriptor.toList with
  | [] => none
  | c :: _ => slotsOfFirst c

/-- What follows the semicolon that ends a class name. -/
def afterClassName (cs : List Char) : Option (List Char) :=
  match cs.dropWhile (· != ';') with
  | [] => none
  | _ :: rest => some rest

theorem length_afterClassName {cs rest : List Char} (h : afterClassName cs = some rest) :
    rest.length < cs.length := by
  have hle := (List.dropWhile_suffix (l := cs) (· != ';')).length_le
  unfold afterClassName at h
  split at h
  · cases h
  · rename_i heq
    cases h
    rw [heq, List.length_cons] at hle
    omega

/-- What follows the element type of an array, behind its brackets. -/
def afterElement (cs : List Char) : Option (List Char) :=
  match cs.dropWhile (· == '[') with
  | [] => none
  | c :: rest =>
    if c == 'L' then afterClassName rest
    else if c.toNat < 0x80 then some rest
    else none

theorem length_afterElement {cs rest : List Char} (h : afterElement cs = some rest) :
    rest.length < cs.length := by
  have hle := (List.dropWhile_suffix (l := cs) (· == '[')).length_le
  unfold afterElement at h
  split at h
  · cases h
  · rename_i heq
    rw [heq, List.length_cons] at hle
    split at h
    · have := length_afterClassName h
      omega
    · split at h
      · cases h
        omega
      · cases h

/-- The slots of the parameters up to the closing parenthesis, on top of `slots`; counts wrap at
2^16. -/
def parameterSlots (slots : UInt16) : List Char → Option UInt16
  | [] => none
  | c :: rest =>
    if c == ')' then some slots
    else if isWide c then parameterSlots (slots + 2) rest
    else if isNarrow c then parameterSlots (slots + 1) rest
    else if c == 'L' then
      match h : afterClassName rest with
      | some rest' => parameterSlots (slots + 1) rest'
      | none => none
    else if c == '[' then
      match h : afterElement rest with
      | some rest' => parameterSlots (slots + 1) rest'
      | none => none
    else none
termination_by cs => cs.length
decreasing_by
  · simp
  · simp
  · have := length_afterClassName h
    simp
    omega
  · have := length_afterElement h
    simp
    omega

/-- The part of a method descriptor behind its last closing parenthesis, unless it is empty. -/
def resultType (descriptor : String) : Option String :=
  let cs := descriptor.toList
  if cs.contains ')' then
    match (cs.reverse.takeWhile (· != ')')).reverse with
    | [] => none
    | result => some (String.ofList result)
  else none

/-- The slots of all parameters and of the result of a method descriptor. -/
def methodSlots (descriptor : String) : Option (UInt16 × UInt16) :=
  match descriptor.toList with
  | '(' :: rest => do
    let parameters ← parameterSlots 0 rest
    let result ← resultType descriptor
    let slots ← fieldSlots result
    pure (parameters, slots)
  | _ => none

end ClassTemplates.Descriptor
