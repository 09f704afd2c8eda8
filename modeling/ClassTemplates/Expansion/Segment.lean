import ClassTemplates.Template.Catalog

/-!
# Segments

A text falls into segments: its tokens, and the text between them. A token that a catalog binds will
be looked up; every other segment stands for itself.

## Main definitions

- `Segment` — a piece of a text
- `Segment.ofText` — the segments of a text, in order
- `Catalog.plan?`, `Catalog.bindsAny` — the segments of a text with tokens, and whether one is bound
-/

namespace ClassTemplates

/-- A piece of a text. -/
inductive Segment
  /-- The text between two tokens, before the first or behind the last. -/
  | literal (text : String)
  /-- A token with its binding. -/
  | bound (binding : Binding)
  /-- A token without a binding. -/
  | unbound (token : String)
  deriving DecidableEq, Repr

namespace Segment

/-- The text that a segment takes up. -/
def text : Segment → String
  | literal text => text
  | bound binding => binding.fallback
  | unbound token => token

/-- The segment is a token. -/
def isToken : Segment → Bool
  | literal _ => false
  | _ => true

/-- The segment is a token with a binding. -/
def isBound : Segment → Bool
  | bound _ => true
  | _ => false

/-- The segment of a token. -/
def ofToken (catalog : Catalog) (token : String) : Segment :=
  match catalog.resolve? token with
  | some binding => bound binding
  | none => unbound token

/-- The segments in `done`, followed by the characters in `gap` if there are any. -/
def flush (done : Array Segment) (gap : Array Char) : Array Segment :=
  if gap.isEmpty then done else done.push (literal (String.ofList gap.toList))

/-- The segments of a text, behind those in `done` and the characters in `gap`. -/
def segmentsOnto (catalog : Catalog) (done : Array Segment) (gap : Array Char) (cs : List Char) :
    Array Segment :=
  match cs with
  | [] => flush done gap
  | c :: rest =>
    match _h : Token.match? (c :: rest) with
    | some p =>
      let token := String.ofList (Token.text p.moduleId p.value)
      segmentsOnto catalog ((flush done gap).push (ofToken catalog token)) #[] p.rest
    | none => segmentsOnto catalog done (gap.push c) rest
termination_by cs.length
decreasing_by
  · exact Token.length_match? _h
  · simp

/-- The segments of a text, in order. -/
def ofText (catalog : Catalog) (text : String) : List Segment :=
  (segmentsOnto catalog #[] #[] text.toList).toList

end Segment

namespace Catalog

/-- The segments of a text that holds a token. -/
def plan? (catalog : Catalog) (text : String) : Option (List Segment) :=
  let segments := Segment.ofText catalog text
  if segments.any Segment.isToken then some segments else none

/-- The text holds a token that has a binding. -/
def bindsAny (catalog : Catalog) (text : String) : Bool :=
  (Segment.ofText catalog text).any Segment.isBound

end Catalog

end ClassTemplates
