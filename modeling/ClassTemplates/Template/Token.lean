/-!
# Template tokens

A token stands for a value that is looked up when the program runs. It names a module and carries a
value, between backticks and behind a fixed word. The module is a run of letters, digits, `_` and
`-`; the value goes up to the next backtick behind its first character and stays on one line.

## Main definitions

- `Token` — an occurrence of a token in a text
- `Token.match?` — the token at the front of a text
- `Token.findAll` — the tokens of a text, left to right
- `Token.occursIn`, `Token.isWhole` — a text holds a token, or is one
- `Token.wrap` — a value made a token
-/

namespace ClassTemplates

/-- A token in a text: the bytes it covers, the module it names and its own text. -/
structure Token where
  start : Nat
  stop : Nat
  moduleId : String
  raw : String
  deriving DecidableEq, Repr

namespace Token

/-- The mark at both ends of a token. -/
def mark : Char := '\x60'

/-- The word behind the mark that opens a token. -/
def word : String := "BuildConfig"

/-- What a token starts with: its mark, its word and a separator. -/
def opening : List Char :=
  mark :: (word.toList ++ ['#'])

/-- The characters of module names. -/
def isModuleChar (c : Char) : Bool :=
  c.isAlphanum || c == '_' || c == '-'

/-- The characters that end a line. -/
def endsLine (c : Char) : Bool :=
  c == '\n' || c == '\r' || c == '\u0085' || c == '\u2028' || c == '\u2029'

/-- The rest of a text that starts with the given characters. -/
def dropStart? : List Char → List Char → Option (List Char)
  | [], cs => some cs
  | _, [] => none
  | x :: xs, c :: cs => if x = c then dropStart? xs cs else none

/-- The value of a token, with what follows the mark behind it. -/
def value? : List Char → Option (List Char × List Char)
  | [] => none
  | first :: cs =>
    if endsLine first then none
    else
      let value := cs.takeWhile fun c => c != mark && !endsLine c
      match cs.dropWhile fun c => c != mark && !endsLine c with
      | [] => none
      | c :: rest => if c = mark then some (first :: value, rest) else none

/-- What a token at the front of a text consists of, and what follows it. -/
structure Parts where
  moduleId : List Char
  value : List Char
  rest : List Char
  deriving DecidableEq, Repr

/-- The token at the front of a text. -/
def match? (cs : List Char) : Option Parts := do
  let cs ← dropStart? opening cs
  let moduleId := cs.takeWhile isModuleChar
  match moduleId, cs.dropWhile isModuleChar with
  | _ :: _, '#' :: cs =>
    let (value, rest) ← value? cs
    pure ⟨moduleId, value, rest⟩
  | _, _ => none

/-- The text of a token with a module and a value. -/
def text (moduleId value : List Char) : List Char :=
  opening ++ moduleId ++ '#' :: value ++ [mark]

/-- The number of bytes of characters in UTF-8. -/
def byteLength (cs : List Char) : Nat :=
  cs.foldl (fun n c => n + c.utf8Size) 0

theorem dropStart?_eq_some {xs cs rest : List Char} (h : dropStart? xs cs = some rest) :
    cs = xs ++ rest := by
  fun_induction dropStart? xs cs with
  | case1 => simpa using h
  | case2 => cases h
  | case3 x xs cs ih => simp [ih h]
  | case4 => cases h

theorem value?_eq_some {cs value rest : List Char} (h : value? cs = some (value, rest)) :
    cs = value ++ mark :: rest := by
  unfold value? at h
  split at h
  · cases h
  · rename_i first cs
    split at h
    · cases h
    · simp only at h
      split at h
      · cases h
      · rename_i c tail heq
        split at h
        · rename_i hc
          cases h
          subst hc
          have hsplit := List.takeWhile_append_dropWhile (p := fun c => c != mark && !endsLine c)
            (l := cs)
          rw [heq] at hsplit
          exact congrArg (first :: ·) hsplit.symm
        · cases h

/-- A token and what follows it make up the text. -/
theorem match?_eq_some {cs : List Char} {p : Parts} (h : match? cs = some p) :
    cs = text p.moduleId p.value ++ p.rest := by
  unfold match? at h
  cases hd : dropStart? opening cs with
  | none => simp [hd] at h
  | some tail =>
    rw [hd] at h
    simp only [Option.bind_eq_bind, Option.bind_some] at h
    split at h
    · rename_i m ms after hm hafter
      cases hv : value? after with
      | none => simp [hv] at h
      | some out =>
        obtain ⟨value, rest⟩ := out
        rw [hv] at h
        cases h
        have hsplit := List.takeWhile_append_dropWhile (p := isModuleChar) (l := tail)
        rw [hafter, value?_eq_some hv] at hsplit
        rw [dropStart?_eq_some hd]
        simp only [text, List.append_assoc, List.cons_append, List.nil_append]
        rw [hsplit]
    · cases h

theorem length_match? {cs : List Char} {p : Parts} (h : match? cs = some p) :
    p.rest.length < cs.length := by
  rw [match?_eq_some h]
  simp [text]
  omega

/-- The tokens from `position` on, behind those in `found`: the leftmost first, then those behind
it. -/
def findOnto (found : Array Token) (position : Nat) (cs : List Char) : Array Token :=
  match cs with
  | [] => found
  | c :: rest =>
    match _h : match? (c :: rest) with
    | some p =>
      let raw := text p.moduleId p.value
      let stop := position + byteLength raw
      let token : Token := ⟨position, stop, String.ofList p.moduleId, String.ofList raw⟩
      findOnto (found.push token) stop p.rest
    | none => findOnto found (position + c.utf8Size) rest
termination_by cs.length
decreasing_by
  · exact length_match? _h
  · simp

/-- The tokens of a text, left to right; none overlaps the one before it. -/
def findAll (text : String) : List Token :=
  (findOnto #[] 0 text.toList).toList

/-- The text holds a token. -/
def occursIn (text : String) : Bool :=
  !(findAll text).isEmpty

/-- The text is one token and nothing else. -/
def isWhole (text : String) : Bool :=
  match findAll text with
  | t :: _ => t.start == 0 && t.stop == text.utf8ByteSize
  | [] => false

/-- The token of a module with a value, whether or not it reads back. -/
def wrap (moduleId value : String) : String :=
  String.ofList (text moduleId.toList value.toList)

end Token

end ClassTemplates
