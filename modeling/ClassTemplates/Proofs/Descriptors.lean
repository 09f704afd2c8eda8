import ClassTemplates.Descriptor
import Mathlib.Algebra.GroupWithZero.Nat

/-!
# The slots of method types

Types are written as descriptors, and the slots of a method type are counted in what is written. The
parameters are read from the front, one behind the other, so those of all of them are counted, in a
word. The result is looked for from the back: it is what stands behind the last closing parenthesis,
and that is not the one behind the parameters if there is another in the name of a class.

## Main definitions

- `Descriptor.ClassName`, `FieldType`, `MethodType` — types
- `FieldType.chars`, `MethodType.text` — how they are written
- `FieldType.slots`, `MethodType.parameterSlots`, `MethodType.resultSlots` — the slots they take

## Main results

- `Descriptor.parameterSlots_chars` — the parameter in front is counted and passed over
- `Descriptor.resultType_of_last` — what is taken for the result
- `Descriptor.slots_of_text` — the slots of a method type and its result, as they are read
-/

namespace ClassTemplates.Descriptor

/-! ### Types -/

/-- A name with nothing in it that separates names: that of a package, or of a class in one. -/
structure SimpleName where
  chars : List Char
  nonempty : chars ≠ []
  plain : ∀ c ∈ chars, c ≠ '.' ∧ c ≠ ';' ∧ c ≠ '[' ∧ c ≠ '/'

/-- The name of a class: the names of the packages it is in, from the outermost, and its own. -/
structure ClassName where
  first : SimpleName
  rest : List SimpleName

inductive Primitive
  | byte | char | double | float | int | long | short | boolean
  deriving DecidableEq, Repr

inductive FieldType
  | primitive (type : Primitive)
  | object (name : ClassName)
  | array (element : FieldType)

/-- A method type; without a result it is `void`. -/
structure MethodType where
  parameters : List FieldType
  result : Option FieldType

def ClassName.chars (name : ClassName) : List Char :=
  name.first.chars ++ name.rest.flatMap fun segment => '/' :: segment.chars

def Primitive.letter : Primitive → Char
  | byte => 'B'
  | char => 'C'
  | double => 'D'
  | float => 'F'
  | int => 'I'
  | long => 'J'
  | short => 'S'
  | boolean => 'Z'

namespace FieldType

def chars : FieldType → List Char
  | primitive type => [type.letter]
  | object name => 'L' :: (name.chars ++ [';'])
  | array element => '[' :: element.chars

/-- The slots of a value: two for `long` and `double`, one for any other. -/
def slots : FieldType → Nat
  | primitive .long | primitive .double => 2
  | _ => 1

end FieldType

namespace MethodType

def resultChars (m : MethodType) : List Char :=
  match m.result with
  | none => ['V']
  | some type => type.chars

def text (m : MethodType) : String :=
  String.ofList ('(' :: (m.parameters.flatMap FieldType.chars ++ ')' :: m.resultChars))

def parameterSlots (m : MethodType) : Nat :=
  (m.parameters.map FieldType.slots).sum

def resultSlots (m : MethodType) : Nat :=
  match m.result with
  | none => 0
  | some type => type.slots

end MethodType

/-! ### Parameters -/

theorem ClassName.ne_semicolon {name : ClassName} {c : Char} (h : c ∈ name.chars) : c ≠ ';' := by
  rcases List.mem_append.1 h with h | h
  · exact (name.first.plain c h).2.1
  · obtain ⟨segment, -, h⟩ := List.mem_flatMap.1 h
    rcases List.mem_cons.1 h with rfl | h
    · decide
    · exact (segment.plain c h).2.1

theorem afterClassName_chars (name : ClassName) (rest : List Char) :
    afterClassName (name.chars ++ ';' :: rest) = some rest := by
  have hskip : ∀ c ∈ name.chars, (c != ';') = true :=
    fun c hc => bne_iff_ne.2 (ClassName.ne_semicolon hc)
  rw [afterClassName, List.dropWhile_append_of_pos hskip, List.dropWhile_cons_of_neg (by simp)]

/-- What follows an element type is what follows it behind any brackets. -/
theorem afterElement_chars (type : FieldType) (rest : List Char) :
    afterElement (type.chars ++ rest) = some rest := by
  induction type with
  | primitive type => cases type <;> rfl
  | object name =>
    show afterElement ('L' :: (name.chars ++ [';'] ++ rest)) = some rest
    rw [List.append_assoc]
    exact afterClassName_chars name rest
  | array element ih => exact ih

/-- A parameter of a class or an array type takes one slot. -/
theorem parameterSlots_passed (slots : UInt16) {c : Char} {cs rest : List Char}
    (h : c = 'L' ∧ afterClassName cs = some rest ∨ c = '[' ∧ afterElement cs = some rest) :
    parameterSlots slots (c :: cs) = parameterSlots (slots + 1) rest := by
  rw [parameterSlots]
  rcases h with ⟨rfl, h⟩ | ⟨rfl, h⟩
  all_goals
    simp only [isWide, isNarrow, Char.reduceBEq, Bool.or_self, Bool.false_eq_true, if_false,
      if_true]
    split
    · rename_i rest' h'
      rw [Option.some.inj (h.symm.trans h')]
    · rename_i h'
      cases h.symm.trans h'

/-- A parameter that stands in front is counted and passed over. -/
theorem parameterSlots_chars (type : FieldType) (slots : UInt16) (rest : List Char) :
    parameterSlots slots (type.chars ++ rest) =
      parameterSlots (slots + .ofNat type.slots) rest := by
  cases type with
  | primitive type =>
    show parameterSlots slots (type.letter :: rest) = _
    rw [parameterSlots]
    cases type <;> rfl
  | object name =>
    show parameterSlots slots ('L' :: (name.chars ++ [';'] ++ rest)) = _
    rw [List.append_assoc]
    exact parameterSlots_passed slots (.inl ⟨rfl, afterClassName_chars name rest⟩)
  | array element =>
    exact parameterSlots_passed slots (.inr ⟨rfl, afterElement_chars element rest⟩)

/-- All parameters are counted, up to the parenthesis behind them. -/
theorem parameterSlots_parameters (types : List FieldType) (slots : UInt16) (rest : List Char) :
    parameterSlots slots (types.flatMap FieldType.chars ++ ')' :: rest) =
      some (slots + .ofNat (types.map FieldType.slots).sum) := by
  induction types generalizing slots with
  | nil =>
    rw [List.flatMap_nil, List.nil_append, parameterSlots, List.map_nil, List.sum_nil]
    exact congrArg some (UInt16.add_zero slots).symm
  | cons type types ih =>
    rw [List.flatMap_cons, List.append_assoc, parameterSlots_chars, ih, List.map_cons,
      List.sum_cons, UInt16.ofNat_add, UInt16.add_assoc]

/-! ### Results -/

theorem exists_last {c : Char} {cs : List Char} (h : c ∈ cs) :
    ∃ front back, cs = front ++ c :: back ∧ c ∉ back := by
  obtain ⟨back, front, hcs, hback⟩ := List.eq_append_cons_of_mem (List.mem_reverse.2 h)
  refine ⟨front.reverse, back.reverse, ?_, mt List.mem_reverse.1 hback⟩
  rw [← List.reverse_reverse cs, hcs, List.reverse_append, List.reverse_cons, List.append_assoc,
    List.singleton_append]

/-- What stands behind the last closing parenthesis is taken for the result. -/
theorem resultType_of_last {front back : List Char} (hlast : ')' ∉ back) (hback : back ≠ []) :
    resultType (String.ofList (front ++ ')' :: back)) = some (String.ofList back) := by
  have hmem : (front ++ ')' :: back).contains ')' = true := by simp
  have hskip : ∀ c ∈ back.reverse, (c != ')') = true := by
    intro c hc
    refine bne_iff_ne.2 fun h => hlast ?_
    rw [← h]
    exact List.mem_reverse.1 hc
  have hresult : ((front ++ ')' :: back).reverse.takeWhile (· != ')')).reverse = back := by
    rw [List.reverse_append, List.reverse_cons, List.append_assoc,
      List.takeWhile_append_of_pos hskip, List.singleton_append,
      List.takeWhile_cons_of_neg (by simp), List.append_nil, List.reverse_reverse]
  simp only [resultType, String.toList_ofList, hmem, if_true, hresult]

theorem fieldSlots_cons (c : Char) (cs : List Char) :
    fieldSlots (String.ofList (c :: cs)) = slotsOfFirst c := by
  simp only [fieldSlots, String.toList_ofList]

theorem fieldSlots_chars (type : FieldType) :
    fieldSlots (String.ofList type.chars) = some (.ofNat type.slots) := by
  cases type with
  | primitive type =>
    refine (fieldSlots_cons type.letter []).trans ?_
    cases type <;> rfl
  | object name => exact fieldSlots_cons 'L' _
  | array element => exact fieldSlots_cons '[' _

/-- No type ends in a closing parenthesis. -/
theorem getLast?_chars (type : FieldType) : ∃ c, type.chars.getLast? = some c ∧ c ≠ ')' := by
  induction type with
  | primitive type =>
    refine ⟨type.letter, rfl, ?_⟩
    cases type <;> decide
  | object name =>
    refine ⟨';', ?_, by decide⟩
    rw [FieldType.chars, ← List.cons_append, List.getLast?_concat]
  | array element ih =>
    obtain ⟨c, hc, hne⟩ := ih
    refine ⟨c, ?_, hne⟩
    rw [FieldType.chars, List.getLast?_cons, hc]
    rfl

namespace MethodType

variable {m : MethodType}

theorem fieldSlots_resultChars (m : MethodType) :
    fieldSlots (String.ofList m.resultChars) = some (.ofNat m.resultSlots) := by
  unfold resultChars resultSlots
  cases m.result with
  | none => exact fieldSlots_cons 'V' []
  | some type => exact fieldSlots_chars type

theorem getLast?_resultChars (m : MethodType) :
    ∃ c, m.resultChars.getLast? = some c ∧ c ≠ ')' := by
  unfold resultChars
  cases m.result with
  | none => exact ⟨'V', rfl, by decide⟩
  | some type => exact getLast?_chars type

/-- Something stands behind each closing parenthesis in a result. -/
theorem ne_nil_of_resultChars {front back : List Char}
    (h : m.resultChars = front ++ ')' :: back) : back ≠ [] := by
  rintro rfl
  obtain ⟨c, hc, hne⟩ := m.getLast?_resultChars
  rw [h, List.getLast?_concat, Option.some.injEq] at hc
  exact hne hc.symm

/-- The slots of a method type are those of its parameters, as a word, and those of what is taken
for its result. -/
theorem methodSlots_text {result : String} (h : resultType m.text = some result) :
    methodSlots m.text = (fieldSlots result).map (.ofNat m.parameterSlots, ·) := by
  have hparameters := parameterSlots_parameters m.parameters 0 m.resultChars
  rw [UInt16.zero_add] at hparameters
  have htext : m.text.toList =
      '(' :: (m.parameters.flatMap FieldType.chars ++ ')' :: m.resultChars) :=
    String.toList_ofList
  simp only [methodSlots, htext, hparameters, h, Option.bind_eq_bind, Option.bind_some,
    Option.map_eq_bind]
  rfl

end MethodType

/-- A method type without a closing parenthesis in its result is read as it is, with the slots of
all parameters in a word. Otherwise the result is cut behind the last of them. -/
theorem slots_of_text (m : MethodType) :
    (')' ∉ m.resultChars → resultType m.text = some (.ofList m.resultChars) ∧
      methodSlots m.text = some (.ofNat m.parameterSlots, .ofNat m.resultSlots)) ∧
    (∀ front back, m.resultChars = front ++ ')' :: back → ')' ∉ back →
      resultType m.text = some (.ofList back) ∧
      methodSlots m.text = (fieldSlots (.ofList back)).map (.ofNat m.parameterSlots, ·)) ∧
    (resultType m.text = some (.ofList m.resultChars) ↔ ')' ∉ m.resultChars) := by
  have hplain (h : ')' ∉ m.resultChars) : resultType m.text = some (.ofList m.resultChars) := by
    have hne : m.resultChars ≠ [] := by
      intro hnil
      obtain ⟨c, hc, -⟩ := m.getLast?_resultChars
      rw [hnil] at hc
      cases hc
    have htext : m.text = String.ofList
        ('(' :: m.parameters.flatMap FieldType.chars ++ ')' :: m.resultChars) := rfl
    rw [htext]
    exact resultType_of_last h hne
  have hcut {front back : List Char} (h : m.resultChars = front ++ ')' :: back)
      (hback : ')' ∉ back) : resultType m.text = some (.ofList back) := by
    have htext : m.text = String.ofList
        ('(' :: (m.parameters.flatMap FieldType.chars ++ ')' :: front) ++ ')' :: back) := by
      rw [MethodType.text, h, List.cons_append, List.append_assoc, List.cons_append]
    rw [htext]
    exact resultType_of_last hback (MethodType.ne_nil_of_resultChars h)
  refine ⟨fun h => ⟨hplain h, ?_⟩, fun front back h hback => ⟨hcut h hback, ?_⟩, ?_, hplain⟩
  · rw [MethodType.methodSlots_text (hplain h), m.fieldSlots_resultChars]
    rfl
  · exact MethodType.methodSlots_text (hcut h hback)
  · intro hwhole hmem
    obtain ⟨front, back, h, hback⟩ := exists_last hmem
    rw [hcut h hback, Option.some.injEq, String.ofList_inj] at hwhole
    have hlength := congrArg List.length (hwhole.trans h)
    simp only [List.length_append, List.length_cons] at hlength
    omega

/-- Two parameters, one of them with a closing parenthesis in it, and such a result. -/
def parenthesisType : MethodType where
  parameters := [.array (.object ⟨⟨[')'], by simp, by simp⟩, []⟩), .primitive .long]
  result := some (.object ⟨⟨['a', ')', 'b'], by simp, by simp⟩, []⟩)

theorem slots_of_text_parenthesis :
    parenthesisType.text = "([L);J)La)b;" ∧ parenthesisType.parameterSlots = 3 ∧
      parenthesisType.resultSlots = 1 ∧ resultType parenthesisType.text = some "b;" ∧
      methodSlots parenthesisType.text = none := by
  obtain ⟨hresult, hslots⟩ :=
    (slots_of_text parenthesisType).2.1 ['L', 'a'] ['b', ';'] rfl (by decide)
  exact ⟨rfl, rfl, rfl, hresult, hslots⟩

end ClassTemplates.Descriptor
