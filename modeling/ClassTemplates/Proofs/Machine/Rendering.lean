import ClassTemplates.Proofs.Expansion.Segments
import ClassTemplates.Proofs.Machine.Basic

/-!
# What the segments of a text stand for

The segments of a text stand for the text with what the lookup method returns in place of every
token that is found in it and has a binding. Everything else is kept: the text in front of the first
token, between two of them and behind the last, and the tokens without a binding.

## Main definitions

- `Token.Replaced` — a text with something in place of its tokens, which are told by their positions
- `Machine.replacement` — what stands in place of a token
- `Catalog.call?` — the call of the lookup method that a token takes

## Main results

- `Machine.replaced_ofText`, `Machine.calls_ofText` — the value and the calls of a text
- `Machine.valueOf_ofText` — the value of a text if the lookup method returns its fallback
-/

namespace ClassTemplates

/-- The text is that of the characters from a position on with something in place of the tokens,
each of which covers the bytes from its start to its stop. -/
inductive Token.Replaced (value : Token → String) : Nat → List Char → List Token → String → Prop
  | nil {position cs} : Replaced value position cs [] (String.ofList cs)
  | cons {position gap raw rest t ts text} : t.start = position + Token.byteLength gap →
      t.stop = t.start + Token.byteLength raw → t.raw = String.ofList raw →
      Replaced value t.stop rest ts text →
      Replaced value position (gap ++ raw ++ rest) (t :: ts) (String.ofList gap ++ value t ++ text)

/-- The call of the lookup method that a token takes, if it has a binding. -/
def Catalog.call? (catalog : Catalog) (t : Token) : Option Machine.Call :=
  (catalog.resolve? t.raw).map fun b => ⟨b.moduleId, b.key, t.raw⟩

namespace Machine

variable {α ω : Type} {M : Machine α ω} {catalog : Catalog}

/-- What stands in place of a token: what the lookup method returns for its binding, and else the
token itself. -/
def replacement (M : Machine α ω) (catalog : Catalog) (t : Token) : String :=
  match catalog.resolve? t.raw with
  | some b => M.lookup b.moduleId b.key t.raw
  | none => t.raw

theorem value_ofToken (t : Token) :
    M.value (Segment.ofToken catalog t.raw) = M.replacement catalog t := by
  unfold Segment.ofToken replacement
  cases hb : catalog.resolve? t.raw with
  | some b => simp [value, Catalog.fallback_of_resolve? hb]
  | none => rfl

theorem call?_ofToken (t : Token) : call? (Segment.ofToken catalog t.raw) = catalog.call? t := by
  unfold Segment.ofToken Catalog.call?
  cases hb : catalog.resolve? t.raw with
  | some b => simp [call?, Catalog.fallback_of_resolve? hb]
  | none => rfl

theorem valueOf_append (ss ss' : List Segment) :
    M.valueOf (ss ++ ss') = M.valueOf ss ++ M.valueOf ss' := by
  simp [valueOf, String.join_append]

theorem valueOf_ofGap (gap : List Char) : M.valueOf (Segment.ofGap gap) = String.ofList gap := by
  unfold Segment.ofGap
  split
  · rename_i hnil
    rw [hnil]
    rfl
  · simp [valueOf, value]

/-- The scan for tokens and the one for segments cut the same characters in the same places. -/
theorem replaced_of_splits {gap cs : List Char} {segments : List Segment}
    (h : Segment.Splits catalog gap cs segments) (found : Array Token) {start position : Nat}
    (hstart : position = start + Token.byteLength gap) :
    ∃ ts, (Token.findOnto found position cs).toList = found.toList ++ ts ∧
      Token.Replaced (M.replacement catalog) start (gap ++ cs) ts (M.valueOf segments) := by
  fun_induction Token.findOnto found position cs generalizing gap segments start with
  | case1 found position =>
    refine ⟨[], (List.append_nil _).symm, ?_⟩
    cases h with
    | nil =>
      rw [valueOf_ofGap, List.append_nil]
      exact .nil
    | token hp => cases hp
  | case2 found position c rest p hp raw stop =>
    rename_i token ih
    cases h with
    | char hno =>
      rw [hp] at hno
      cases hno
    | @token _ _ p' segments hp' hrest =>
      rw [hp] at hp'
      cases hp'
      obtain ⟨ts, hfound, hreplaced⟩ := ih hrest rfl
      refine ⟨token :: ts, ?_, ?_⟩
      · rw [hfound, Array.toList_push, List.append_assoc]
        rfl
      · have hvalue : M.valueOf (Segment.ofGap gap ++
            Segment.ofToken catalog (String.ofList raw) :: segments) =
            String.ofList gap ++ M.replacement catalog token ++ M.valueOf segments := by
          rw [← value_ofToken, valueOf_append, valueOf_ofGap, String.append_assoc]
          simp [valueOf, token]
        rw [Token.match?_eq_some hp, ← List.append_assoc, hvalue]
        exact .cons hstart rfl rfl hreplaced
  | case3 found position c rest hno ih =>
    cases h with
    | token hp =>
      rw [hno] at hp
      cases hp
    | @char gap _ _ _ _ hrest =>
      have hnext : position + c.utf8Size = start + Token.byteLength (gap ++ [c]) := by
        simp [Token.byteLength, hstart]
        omega
      obtain ⟨ts, hfound, hreplaced⟩ := ih hrest hnext
      exact ⟨ts, hfound, by simpa using hreplaced⟩

/-- The segments of a text stand for the text with its tokens replaced. -/
theorem replaced_ofText (text : String) :
    Token.Replaced (M.replacement catalog) 0 text.toList (Token.findAll text)
      (M.valueOf (Segment.ofText catalog text)) := by
  obtain ⟨ts, hfound, hreplaced⟩ : ∃ ts,
      (Token.findOnto #[] 0 text.toList).toList = [] ++ ts ∧
        Token.Replaced (M.replacement catalog) 0 text.toList ts
          (M.valueOf (Segment.ofText catalog text)) :=
    replaced_of_splits (Segment.ofText_splits text) #[] rfl
  have hall : Token.findAll text = ts := by simpa [Token.findAll] using hfound
  rwa [hall]

/-- The lookup method is called once for each token with a binding, in the order of the tokens. -/
theorem calls_ofText (text : String) :
    (Segment.ofText catalog text).filterMap call? =
      (Token.findAll text).filterMap catalog.call? := by
  have htoken (s : Segment) (hs : s.isToken = false) : call? s = none := by
    cases s <;> first | rfl | cases hs
  have hfilter : (Segment.ofText catalog text).filterMap call? =
      ((Segment.ofText catalog text).filter Segment.isToken).filterMap call? := by
    rw [List.filterMap_filter]
    refine List.filterMap_congr fun s _ => ?_
    cases hs : s.isToken with
    | true => simp
    | false => simpa using htoken s hs
  rw [hfilter, Segment.filter_isToken_ofText, List.filterMap_map]
  exact List.filterMap_congr fun t _ => call?_ofToken t

/-- With a lookup method that returns its fallback, a text stands for itself. -/
theorem valueOf_ofText (h : ∀ moduleId key fallback, M.lookup moduleId key fallback = fallback)
    (text : String) : M.valueOf (Segment.ofText catalog text) = text := by
  have hvalue : M.value = Segment.text := by
    funext s
    cases s with
    | bound b => exact h _ _ _
    | _ => rfl
  rw [valueOf, hvalue, Segment.join_ofText]

end Machine

end ClassTemplates
