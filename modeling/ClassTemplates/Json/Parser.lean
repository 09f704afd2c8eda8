import ClassTemplates.Json.Number
import ClassTemplates.Json.Value
import ClassTemplates.Text.Utf16

/-!
# Reading JSON

The strict grammar: no comments, no trailing commas, no control characters in strings, no surrogate
without its partner. Numbers must be in range, and arrays and objects may be nested 127 deep.

## Main definitions

- `Json.Part` — a part of the grammar, which takes at least one character
- `Json.quoted`, `numeral`, `value` — strings, numbers and all values
- `Json.parse?` — the value that a whole text spells
-/

namespace ClassTemplates.Json

/-- A part of the grammar: how to take it off the front of a text. It takes at least one character.
-/
structure Part (α : Type) where
  /-- The value of the part and what follows it. -/
  run : List Char → Option (α × List Char)
  /-- What follows the part is shorter than the text. -/
  shortens : ∀ {s : List Char} {a : α} {rest : List Char},
    run s = some (a, rest) → rest.length < s.length

/-- The blanks between tokens. -/
def isBlank (c : Char) : Bool :=
  c == ' ' || c == '\n' || c == '\t' || c == '\r'

/-- The text without the blanks at its front. -/
def skip (s : List Char) : List Char :=
  s.dropWhile isBlank

theorem length_skip (s : List Char) : (skip s).length ≤ s.length :=
  (List.dropWhile_suffix isBlank).length_le

theorem length_of_skip {s rest : List Char} {c : Char} (h : skip s = c :: rest) :
    rest.length < s.length := by
  have := length_skip s
  rw [h, List.length_cons] at this
  omega

/-! ### Strings -/

/-- The value of a hexadecimal digit. -/
def hexDigit? (c : Char) : Option Nat :=
  if '0' ≤ c ∧ c ≤ '9' then some (c.toNat - 48)
  else if 'a' ≤ c ∧ c ≤ 'f' then some (c.toNat - 87)
  else if 'A' ≤ c ∧ c ≤ 'F' then some (c.toNat - 55)
  else none

/-- The unit that four hexadecimal digits spell. -/
def hexUnit? (a b c d : Char) : Option UInt16 := do
  let a ← hexDigit? a
  let b ← hexDigit? b
  let c ← hexDigit? c
  let d ← hexDigit? d
  pure (UInt16.ofNat (((a * 16 + b) * 16 + c) * 16 + d))

/-- The unit that four hexadecimal digits spell, and what follows them. -/
def unit? : List Char → Option (UInt16 × List Char)
  | a :: b :: c :: d :: rest => (hexUnit? a b c d).map fun u => (u, rest)
  | _ => none

/-- The character behind a backslash, where one letter gives it. -/
def escaped? (c : Char) : Option Char :=
  if c == '"' || c == '\\' || c == '/' then some c
  else if c == 'b' then some '\x08'
  else if c == 'f' then some '\x0c'
  else if c == 'n' then some '\n'
  else if c == 'r' then some '\r'
  else if c == 't' then some '\t'
  else none

/-- The character that follows a backslash and a `u`: a unit, or two escaped units that form a pair.
-/
def unicodeEscape? (s : List Char) : Option (Char × List Char) := do
  let (u, rest) ← unit? s
  if Utf16.isLeading u then
    match rest with
    | '\\' :: 'u' :: rest => do
      let (v, rest) ← unit? rest
      if Utf16.isTrailing v then pure (Utf16.pairChar u v, rest) else none
    | _ => none
  else if Utf16.isTrailing u then none
  else pure (Char.ofNat u.toNat, rest)

/-- One character of a string, written as itself or escaped; `none` for the closing quote too. -/
def stringChar? : List Char → Option (Char × List Char)
  | [] => none
  | c :: rest =>
    if c == '\\' then
      match rest with
      | [] => none
      | e :: rest => if e == 'u' then unicodeEscape? rest else (escaped? e).map fun x => (x, rest)
    else if c == '"' || c.toNat < 0x20 then none
    else some (c, rest)

theorem length_unit? {s rest : List Char} {u : UInt16} (h : unit? s = some (u, rest)) :
    rest.length < s.length := by
  unfold unit? at h
  split at h
  · simp only [Option.map_eq_some_iff, Prod.mk.injEq] at h
    obtain ⟨_, _, _, rfl⟩ := h
    simp only [List.length_cons]
    omega
  · cases h

theorem length_unicodeEscape? {s rest : List Char} {x : Char}
    (h : unicodeEscape? s = some (x, rest)) : rest.length < s.length := by
  unfold unicodeEscape? at h
  cases hu : unit? s with
  | none => simp [hu] at h
  | some out =>
    obtain ⟨u, tail⟩ := out
    have hlen := length_unit? hu
    simp only [hu, Option.bind_eq_bind, Option.bind_some] at h
    split at h
    · split at h
      · rename_i more
        cases hv : unit? more with
        | none => simp [hv] at h
        | some out =>
          obtain ⟨v, tail'⟩ := out
          have hlen' := length_unit? hv
          simp only [hv, Option.bind_some] at h
          simp only [List.length_cons] at hlen
          split at h
          · simp only [Option.pure_def, Option.some.injEq, Prod.mk.injEq] at h
            obtain ⟨_, rfl⟩ := h
            omega
          · cases h
      · cases h
    · split at h
      · cases h
      · simp only [Option.pure_def, Option.some.injEq, Prod.mk.injEq] at h
        obtain ⟨_, rfl⟩ := h
        exact hlen

theorem length_stringChar? {s rest : List Char} {x : Char} (h : stringChar? s = some (x, rest)) :
    rest.length < s.length := by
  unfold stringChar? at h
  split at h
  · cases h
  · split at h
    · split at h
      · cases h
      · split at h
        · have := length_unicodeEscape? h
          simp only [List.length_cons]
          omega
        · simp only [Option.map_eq_some_iff, Prod.mk.injEq] at h
          obtain ⟨_, _, _, rfl⟩ := h
          simp only [List.length_cons]
          omega
    · split at h
      · cases h
      · cases h
        simp

/-- What follows a quote. -/
def afterQuote? : List Char → Option (List Char)
  | '"' :: rest => some rest
  | _ => none

theorem length_afterQuote? {s rest : List Char} (h : afterQuote? s = some rest) :
    rest.length < s.length := by
  unfold afterQuote? at h
  split at h
  · cases h
    simp only [List.length_cons, Nat.lt_add_one]
  · cases h

/-- The rest of a string behind its opening quote, on top of the characters in `done`. -/
def stringOnto (done : Array Char) (s : List Char) : Option (Array Char × List Char) :=
  match _h : stringChar? s with
  | some (x, rest) => stringOnto (done.push x) rest
  | none => (afterQuote? s).map fun rest => (done, rest)
termination_by s.length
decreasing_by exact length_stringChar? _h

theorem length_stringOnto {done all : Array Char} {s rest : List Char}
    (h : stringOnto done s = some (all, rest)) : rest.length < s.length := by
  fun_induction stringOnto done s with
  | case1 done s x tail hx ih =>
    have := ih h
    have := length_stringChar? hx
    omega
  | case2 =>
    simp only [Option.map_eq_some_iff, Prod.mk.injEq] at h
    obtain ⟨_, hs, _, rfl⟩ := h
    exact length_afterQuote? hs

/-- A string in quotes. -/
def quoted : Part String where
  run s := do
    let rest ← afterQuote? s
    let (chars, rest) ← stringOnto #[] rest
    pure (String.ofList chars.toList, rest)
  shortens {s _ _} h := by
    simp only [Option.bind_eq_bind, Option.bind_eq_some_iff, Option.pure_def, Option.some.injEq,
      Prod.mk.injEq] at h
    obtain ⟨_, hq, _, hs, _, rfl⟩ := h
    have := length_afterQuote? hq
    have := length_stringOnto hs
    omega

/-! ### Numbers -/

/-- The values of the digits at the front of a text. -/
def digits (s : List Char) : List Nat :=
  (s.takeWhile Char.isDigit).map fun c => c.toNat - 48

/-- What follows the digits at the front of a text. -/
def afterDigits (s : List Char) : List Char :=
  s.dropWhile Char.isDigit

/-- The digits of a fraction, none if there is no point; a point needs a digit behind it. -/
def fraction? (s : List Char) : Option (List Nat × List Char) :=
  match s with
  | '.' :: rest => if (digits rest).isEmpty then none else some (digits rest, afterDigits rest)
  | _ => some ([], s)

/-- The sign and the digits of an exponent, none if there is no exponent; one needs a digit. -/
def exponent? (s : List Char) : Option (Bool × List Nat × List Char) :=
  match s with
  | c :: rest =>
    if c == 'e' || c == 'E' then
      let (negative, rest) := match rest with
        | '-' :: rest => (true, rest)
        | '+' :: rest => (false, rest)
        | _ => (false, rest)
      if (digits rest).isEmpty then none else some (negative, digits rest, afterDigits rest)
    else some (false, [], s)
  | [] => some (false, [], s)

/-- The digits in front of the point: a single zero, or digits that start with another one. -/
def whole? (s : List Char) : Option (List Nat × List Char) :=
  match digits s with
  | [] => none
  | 0 :: _ :: _ => none
  | ds => some (ds, afterDigits s)

/-- A number without its sign, and what follows it. -/
def decimal? (s : List Char) : Option (Decimal × List Char) := do
  let (whole, rest) ← whole? s
  let (fraction, rest) ← fraction? rest
  let (negative, exponent, rest) ← exponent? rest
  pure (⟨whole, fraction, negative, exponent⟩, rest)

/-- The number at the front of a text, with its text. -/
def numberAt? (s : List Char) : Option (Json × List Char) := do
  let unsigned := match s with
    | '-' :: rest => rest
    | _ => s
  let (x, rest) ← decimal? unsigned
  if x.inRange then
    if rest.length < s.length then
      pure (.number (String.ofList (s.take (s.length - rest.length))), rest)
    else none
  else none

/-- A number in range. -/
def numeral : Part Json where
  run := numberAt?
  shortens {s _ rest} h := by
    unfold numberAt? at h
    simp only [Option.bind_eq_bind] at h
    generalize decimal? _ = parsed at h
    cases parsed with
    | none => simp at h
    | some out =>
      obtain ⟨x, tail⟩ := out
      simp only [Option.bind_some] at h
      split at h
      · split at h
        · rename_i hlt
          cases h
          exact hlt
        · cases h
      · cases h

/-! ### Arrays and objects -/

/-- The elements up to a closing bracket, behind those in `done`; at least one. -/
def elementsOnto (p : Part Json) (done : Array Json) (s : List Char) :
    Option (Array Json × List Char) :=
  match _h : p.run (skip s) with
  | none => none
  | some (v, rest) =>
    match _hr : skip rest with
    | ',' :: more => elementsOnto p (done.push v) more
    | ']' :: more => some (done.push v, more)
    | _ => none
termination_by s.length
decreasing_by
  have := p.shortens _h
  have := length_skip s
  have := length_of_skip _hr
  omega

/-- A member of an object: its name, a colon and its value. -/
def memberAt? (p : Part Json) (s : List Char) : Option ((String × Json) × List Char) := do
  let (name, rest) ← quoted.run (skip s)
  match skip rest with
  | ':' :: rest => do
    let (v, rest) ← p.run (skip rest)
    pure ((name, v), rest)
  | _ => none

theorem length_memberAt? {p : Part Json} {s rest : List Char} {m : String × Json}
    (h : memberAt? p s = some (m, rest)) : rest.length < s.length := by
  unfold memberAt? at h
  cases hs : quoted.run (skip s) with
  | none => simp [hs] at h
  | some out =>
    obtain ⟨name, tail⟩ := out
    have h₁ := quoted.shortens hs
    have h₂ := length_skip s
    simp only [hs, Option.bind_eq_bind, Option.bind_some] at h
    split at h
    · rename_i more heq
      have h₃ := length_of_skip heq
      cases hv : p.run (skip more) with
      | none => simp [hv] at h
      | some out =>
        obtain ⟨v, tail'⟩ := out
        have h₄ := p.shortens hv
        have h₅ := length_skip more
        simp only [hv, Option.bind_some] at h
        cases h
        omega
    · cases h

/-- The members up to a closing brace, behind those in `done`; at least one. -/
def membersOnto (p : Part Json) (done : Array (String × Json)) (s : List Char) :
    Option (Array (String × Json) × List Char) :=
  match _h : memberAt? p s with
  | none => none
  | some (m, rest) =>
    match _hr : skip rest with
    | ',' :: more => membersOnto p (done.push m) more
    | '}' :: more => some (done.push m, more)
    | _ => none
termination_by s.length
decreasing_by
  have := length_memberAt? _h
  have := length_of_skip _hr
  omega

theorem length_elementsOnto {p : Part Json} {done all : Array Json} {s rest : List Char}
    (h : elementsOnto p done s = some (all, rest)) : rest.length < s.length := by
  fun_induction elementsOnto p done s with
  | case1 => cases h
  | case2 done s v tail hv more hmore ih =>
    have := ih h
    have := p.shortens hv
    have := length_skip s
    have := length_of_skip hmore
    omega
  | case3 done s v tail hv more hmore =>
    have := p.shortens hv
    have := length_skip s
    have := length_of_skip hmore
    cases h
    omega
  | case4 => cases h

theorem length_membersOnto {p : Part Json} {done all : Array (String × Json)} {s rest : List Char}
    (h : membersOnto p done s = some (all, rest)) : rest.length < s.length := by
  fun_induction membersOnto p done s with
  | case1 => cases h
  | case2 done s m tail hm more hmore ih =>
    have := ih h
    have := length_memberAt? hm
    have := length_of_skip hmore
    omega
  | case3 done s m tail hm more hmore =>
    have := length_memberAt? hm
    have := length_of_skip hmore
    cases h
    omega
  | case4 => cases h

/-- An array whose elements are parsed by `p`, behind its opening bracket. -/
def arrayTail (p : Part Json) (s : List Char) : Option (Json × List Char) :=
  match skip s with
  | ']' :: rest => some (.array [], rest)
  | _ => (elementsOnto p #[] s).map fun (all, rest) => (.array all.toList, rest)

/-- An object whose values are parsed by `p`, behind its opening brace. -/
def objectTail (p : Part Json) (s : List Char) : Option (Json × List Char) :=
  match skip s with
  | '}' :: rest => some (.object [], rest)
  | _ => (membersOnto p #[] s).map fun (all, rest) => (.object all.toList, rest)

theorem length_arrayTail {p : Part Json} {s rest : List Char} {v : Json}
    (h : arrayTail p s = some (v, rest)) : rest.length < s.length := by
  unfold arrayTail at h
  split at h
  · rename_i heq
    have := length_of_skip heq
    cases h
    omega
  · simp only [Option.map_eq_some_iff, Prod.mk.injEq] at h
    obtain ⟨⟨all, tail⟩, hs, _, rfl⟩ := h
    exact length_elementsOnto hs

theorem length_objectTail {p : Part Json} {s rest : List Char} {v : Json}
    (h : objectTail p s = some (v, rest)) : rest.length < s.length := by
  unfold objectTail at h
  split at h
  · rename_i heq
    have := length_of_skip heq
    cases h
    omega
  · simp only [Option.map_eq_some_iff, Prod.mk.injEq] at h
    obtain ⟨⟨all, tail⟩, hs, _, rfl⟩ := h
    exact length_membersOnto hs

/-- A value that is neither an array nor an object. -/
def scalarAt? (s : List Char) : Option (Json × List Char) :=
  match s with
  | 'n' :: 'u' :: 'l' :: 'l' :: rest => some (.null, rest)
  | 't' :: 'r' :: 'u' :: 'e' :: rest => some (.bool true, rest)
  | 'f' :: 'a' :: 'l' :: 's' :: 'e' :: rest => some (.bool false, rest)
  | '"' :: _ => (quoted.run s).map fun (text, rest) => (.string text, rest)
  | _ => numeral.run s

theorem length_scalarAt? {s rest : List Char} {v : Json} (h : scalarAt? s = some (v, rest)) :
    rest.length < s.length := by
  unfold scalarAt? at h
  split at h
  · cases h
    simp
    omega
  · cases h
    simp
    omega
  · cases h
    simp
    omega
  · simp only [Option.map_eq_some_iff, Prod.mk.injEq] at h
    obtain ⟨⟨text, tail⟩, hs, _, rfl⟩ := h
    exact quoted.shortens hs
  · exact numeral.shortens h

/-- A value that is a scalar, or an array or object whose parts are parsed by `inner`. -/
def valueAt? (inner : Option (Part Json)) (s : List Char) : Option (Json × List Char) :=
  match s with
  | '[' :: rest => inner.bind fun p => arrayTail p rest
  | '{' :: rest => inner.bind fun p => objectTail p rest
  | _ => scalarAt? s

theorem length_valueAt? {inner : Option (Part Json)} {s rest : List Char} {v : Json}
    (h : valueAt? inner s = some (v, rest)) : rest.length < s.length := by
  unfold valueAt? at h
  split at h
  · obtain ⟨p, _, h⟩ := Option.bind_eq_some_iff.1 h
    have := length_arrayTail h
    simp
    omega
  · obtain ⟨p, _, h⟩ := Option.bind_eq_some_iff.1 h
    have := length_objectTail h
    simp
    omega
  · exact length_scalarAt? h

/-- A value in which arrays and objects are nested at most `depth` deep. -/
def value : Nat → Part Json
  | 0 => ⟨valueAt? none, length_valueAt?⟩
  | depth + 1 => ⟨valueAt? (some (value depth)), length_valueAt?⟩

/-- The deepest nesting of arrays and objects. -/
def maxDepth : Nat := 127

/-- The value that a whole text spells. -/
def parse? (text : String) : Option Json := do
  let (v, rest) ← (value maxDepth).run (skip text.toList)
  if (skip rest).isEmpty then pure v else none

end ClassTemplates.Json
