import ClassTemplates.Expansion.Segment
import ClassTemplates.Proofs.Template.Tokens

/-!
# Segments of a text

The segments of a text make it up again. Each is what it was cut out as also when it stands alone: a
literal holds no token, and a token is nothing but itself.

## Main definitions

- `Segment.Splits` — how characters fall into segments
- `Segment.Stands` — a segment is what it is also as a text of its own

## Main results

- `Segment.join_ofText`, `Segment.stands_of_mem` — the segments of a text
- `Catalog.bindsAny_literal`, `bindsAny_unbound` — such a segment has no bound token in it
- `Catalog.bindsAny_iff` — a text with a bound segment is one with a bound token
-/

namespace ClassTemplates

/-- A binding falls back to the token that it was found for. -/
theorem Catalog.fallback_of_resolve? {catalog : Catalog} {token : String} {b : Binding}
    (h : catalog.resolve? token = some b) : b.fallback = token :=
  eq_of_beq (Array.find?_eq_some_iff_getElem.1 h).1

namespace Segment

variable {catalog : Catalog}

/-- The characters between two tokens as a segment, if there are any. -/
def ofGap (gap : List Char) : List Segment :=
  if gap = [] then [] else [literal (String.ofList gap)]

/-- The characters behind those in a gap fall into segments, the gap included. -/
inductive Splits (catalog : Catalog) : List Char → List Char → List Segment → Prop
  | nil {gap} : Splits catalog gap [] (ofGap gap)
  | token {gap cs p segments} : Token.match? cs = some p → Splits catalog [] p.rest segments →
      Splits catalog gap cs
        (ofGap gap ++ ofToken catalog (String.ofList (Token.text p.moduleId p.value)) :: segments)
  | char {gap c cs segments} : Token.match? (c :: cs) = none →
      Splits catalog (gap ++ [c]) cs segments → Splits catalog gap (c :: cs) segments

theorem toList_flush {done : Array Segment} {gap : Array Char} :
    (flush done gap).toList = done.toList ++ ofGap gap.toList := by
  unfold flush ofGap
  by_cases h : gap = #[]
  · simp [h]
  · simp [h]

theorem segmentsOnto_splits {done : Array Segment} {gap : Array Char} {cs : List Char} :
    ∃ segments, (segmentsOnto catalog done gap cs).toList = done.toList ++ segments ∧
      Splits catalog gap.toList cs segments := by
  fun_induction segmentsOnto catalog done gap cs with
  | case1 done gap => exact ⟨_, toList_flush, .nil⟩
  | case2 done gap c rest p hp token ih =>
    obtain ⟨segments, hs, hsplit⟩ := ih
    refine ⟨_, ?_, .token hp hsplit⟩
    rw [hs]
    simp [toList_flush, token]
  | case3 done gap c rest hno ih =>
    obtain ⟨segments, hs, hsplit⟩ := ih
    rw [Array.toList_push] at hsplit
    exact ⟨segments, hs, .char hno hsplit⟩

theorem ofText_splits (text : String) : Splits catalog [] text.toList (ofText catalog text) := by
  obtain ⟨segments, hs, hsplit⟩ : ∃ segments,
      ofText catalog text = [] ++ segments ∧ Splits catalog [] text.toList segments :=
    segmentsOnto_splits
  rwa [hs]

/-! ### Segments that stand alone -/

/-- The text is one token. -/
def IsToken (text : String) : Prop :=
  ∃ moduleId value, Token.match? text.toList = some ⟨moduleId, value, []⟩

/-- The segment is what it is also as a text of its own: no token starts in a literal, and a token
is one with the binding that it has, or without one. -/
def Stands (catalog : Catalog) : Segment → Prop
  | literal text => ∀ cs, cs <:+ text.toList → Token.match? cs = none
  | bound b => IsToken b.fallback ∧ catalog.resolve? b.fallback = some b
  | unbound token => IsToken token ∧ catalog.resolve? token = none

theorem text_ofToken {token : String} : (ofToken catalog token).text = token := by
  unfold ofToken
  split
  · rename_i b hb
    exact Catalog.fallback_of_resolve? hb
  · rfl

theorem stands_ofToken {token : String} (h : IsToken token) :
    (ofToken catalog token).Stands catalog := by
  have htext : (ofToken catalog token).text = token := text_ofToken
  unfold ofToken at htext ⊢
  split
  · rename_i b hb
    rw [hb] at htext
    obtain rfl : b.fallback = token := htext
    exact ⟨h, hb⟩
  · rename_i hno
    exact ⟨h, hno⟩

theorem isToken_of_match? {cs : List Char} {p : Token.Parts} (h : Token.match? cs = some p) :
    IsToken (String.ofList (Token.text p.moduleId p.value)) :=
  ⟨p.moduleId, p.value, by simpa using Token.match?_text h⟩

/-- No token starts in a gap in front of characters. -/
def Clear (gap cs : List Char) : Prop :=
  ∀ xs, xs <:+ gap → xs ≠ [] → Token.match? (xs ++ cs) = none

theorem clear_nil {cs : List Char} : Clear [] cs :=
  fun _ hxs hne => absurd (List.suffix_nil.1 hxs) hne

theorem stands_ofGap {gap cs : List Char} (h : Clear gap cs) :
    ∀ s ∈ ofGap gap, s.Stands catalog := by
  unfold ofGap
  split
  · simp
  · intro s hs
    rw [List.mem_singleton.1 hs]
    intro xs hxs
    rw [String.toList_ofList] at hxs
    by_cases hne : xs = []
    · rw [hne]
      rfl
    · exact Token.match?_of_append (h xs hxs hne)

theorem Splits.stands {gap cs : List Char} {segments : List Segment}
    (h : Splits catalog gap cs segments) (hgap : Clear gap cs) :
    ∀ s ∈ segments, s.Stands catalog := by
  induction h with
  | nil => exact stands_ofGap hgap
  | token hp _ ih =>
    intro s hs
    rcases List.mem_append.1 hs with hs | hs
    · exact stands_ofGap hgap s hs
    · rcases List.mem_cons.1 hs with rfl | hs
      · exact stands_ofToken (isToken_of_match? hp)
      · exact ih clear_nil s hs
  | @char gap c cs segments hno _ ih =>
    refine ih fun xs hxs hne => ?_
    rcases List.suffix_concat_iff.1 hxs with rfl | ⟨ys, rfl, hys⟩
    · exact absurd rfl hne
    · rw [List.append_assoc, List.singleton_append]
      by_cases hnil : ys = []
      · rwa [hnil]
      · exact hgap ys hys hnil

theorem Splits.join {gap cs : List Char} {segments : List Segment}
    (h : Splits catalog gap cs segments) :
    String.join (segments.map text) = String.ofList (gap ++ cs) := by
  have hjoin (gap : List Char) : String.join ((ofGap gap).map text) = String.ofList gap := by
    unfold ofGap
    split
    · rename_i hnil
      rw [hnil]
      rfl
    · simp [text]
  induction h with
  | nil => simpa using hjoin _
  | @token gap cs p segments hp _ ih =>
    rw [List.nil_append] at ih
    simp only [List.map_append, List.map_cons, String.join_append, String.join_cons, hjoin, ih,
      text_ofToken]
    rw [← String.ofList_append, ← String.ofList_append, ← Token.match?_eq_some hp]
  | char _ _ ih => simpa using ih

/-- The segments of a text make it up again. -/
theorem join_ofText (text : String) :
    String.join ((ofText catalog text).map Segment.text) = text := by
  have hsplit : Splits catalog [] text.toList (ofText catalog text) := ofText_splits text
  simpa using hsplit.join

theorem stands_of_mem {text : String} {s : Segment} (h : s ∈ ofText catalog text) :
    s.Stands catalog :=
  (ofText_splits text).stands clear_nil s h

/-! ### Segments as texts -/

theorem Splits.of_literal {gap cs : List Char} {segments : List Segment}
    (h : Splits catalog gap cs segments) (hno : ∀ xs, xs <:+ cs → Token.match? xs = none) :
    segments = ofGap (gap ++ cs) := by
  induction h with
  | nil => rw [List.append_nil]
  | @token gap cs p segments hp _ _ =>
    rw [hno cs List.suffix_rfl] at hp
    cases hp
  | @char gap c cs segments _ _ ih =>
    rw [ih fun xs hxs => hno xs (hxs.trans (List.suffix_cons c cs)), List.append_assoc,
      List.singleton_append]

theorem ofText_of_isToken {token : String} (h : IsToken token) :
    ofText catalog token = [ofToken catalog token] := by
  obtain ⟨moduleId, value, hm⟩ := h
  have hsplit : Splits catalog [] token.toList (ofText catalog token) := ofText_splits token
  generalize ofText catalog token = segments at hsplit
  generalize hcs : token.toList = cs at hsplit hm
  cases hsplit with
  | nil => cases hm
  | @token _ _ p segments hp hrest =>
    rw [hm] at hp
    cases hp
    have htext := Token.match?_eq_some hm
    rw [List.append_nil, ← hcs] at htext
    have htoken : String.ofList (Token.text moduleId value) = token := by
      rw [← htext, String.ofList_toList]
    cases hrest with
    | nil => simp [ofGap, htoken]
    | token hp => cases hp
  | char hno => rw [hm] at hno; cases hno

/-! ### Segments and tokens -/

theorem filter_isToken_ofGap {gap : List Char} : (ofGap gap).filter isToken = [] := by
  unfold ofGap
  split <;> rfl

theorem isToken_ofToken {token : String} : (ofToken catalog token).isToken = true := by
  unfold ofToken
  split <;> rfl

theorem isBound_ofToken {token : String} :
    (ofToken catalog token).isBound = (catalog.resolve? token).isSome := by
  unfold ofToken
  split <;> rename_i h <;> rw [h] <;> rfl

/-- The segments that are tokens are the tokens that are found, in order. -/
theorem Splits.filter_isToken {gap cs : List Char} {segments : List Segment}
    (h : Splits catalog gap cs segments) (found : Array Token) (position : Nat) :
    ∃ ts, (Token.findOnto found position cs).toList = found.toList ++ ts ∧
      segments.filter isToken = ts.map fun t => ofToken catalog t.raw := by
  -- both scans stop at the same characters, because they ask the same question
  fun_induction Token.findOnto found position cs generalizing gap segments with
  | case1 found position =>
    refine ⟨[], (List.append_nil _).symm, ?_⟩
    cases h with
    | nil => exact filter_isToken_ofGap
    | token hp => cases hp
  | case2 found position c rest p hp raw stop =>
    rename_i token ih
    cases h with
    | char hno =>
      rw [hp] at hno
      cases hno
    | @token _ _ p' segments hp' hrest =>
      rw [hp] at hp'
      cases hp'
      obtain ⟨ts, hfound, htokens⟩ := ih hrest
      refine ⟨token :: ts, ?_, ?_⟩
      · rw [hfound, Array.toList_push, List.append_assoc]
        rfl
      · rw [List.filter_append, filter_isToken_ofGap, List.nil_append,
          List.filter_cons_of_pos isToken_ofToken, htokens]
        rfl
  | case3 found position c rest hno ih =>
    cases h with
    | token hp =>
      rw [hno] at hp
      cases hp
    | char _ hrest => exact ih hrest

theorem filter_isToken_ofText (text : String) :
    (ofText catalog text).filter isToken =
      (Token.findAll text).map fun t => ofToken catalog t.raw := by
  have hsplits : Splits catalog [] text.toList (ofText catalog text) := ofText_splits text
  obtain ⟨ts, hfound, htokens⟩ := hsplits.filter_isToken #[] 0
  have hall : Token.findAll text = ts := by simpa [Token.findAll] using hfound
  rw [hall, htokens]

end Segment

namespace Catalog

variable {catalog : Catalog}

theorem bindsAny_literal {text : String} (h : (Segment.literal text).Stands catalog) :
    catalog.bindsAny text = false := by
  rw [bindsAny, (Segment.ofText_splits text).of_literal h, Segment.ofGap]
  split <;> rfl

theorem bindsAny_unbound {token : String} (h : (Segment.unbound token).Stands catalog) :
    catalog.bindsAny token = false := by
  rw [bindsAny, Segment.ofText_of_isToken h.1, Segment.ofToken, h.2]
  rfl

/-- A text holds a bound token exactly if a token is found in it that has a binding. -/
theorem bindsAny_iff {text : String} : catalog.bindsAny text = true ↔
    ∃ t ∈ Token.findAll text, (catalog.resolve? t.raw).isSome = true := by
  have htokens : (Segment.ofText catalog text).filter Segment.isToken = _ :=
    Segment.filter_isToken_ofText text
  have htoken {s : Segment} (h : s.isBound = true) : s.isToken = true := by
    cases s <;> first | rfl | cases h
  rw [bindsAny, List.any_eq_true]
  constructor
  · rintro ⟨s, hs, hbound⟩
    have hin : s ∈ (Segment.ofText catalog text).filter Segment.isToken :=
      List.mem_filter.2 ⟨hs, htoken hbound⟩
    rw [htokens] at hin
    obtain ⟨t, ht, rfl⟩ := List.mem_map.1 hin
    exact ⟨t, ht, Segment.isBound_ofToken.symm.trans hbound⟩
  · rintro ⟨t, ht, hbound⟩
    have hin : Segment.ofToken catalog t.raw ∈
        (Segment.ofText catalog text).filter Segment.isToken := by
      rw [htokens]
      exact List.mem_map_of_mem ht
    exact ⟨_, (List.mem_filter.1 hin).1, Segment.isBound_ofToken.trans hbound⟩

theorem bindsAny_eq_false_of_not_occursIn {text : String} (h : Token.occursIn text = false) :
    catalog.bindsAny text = false := by
  rw [Bool.eq_false_iff]
  intro hbinds
  obtain ⟨t, ht, -⟩ := bindsAny_iff.1 hbinds
  have hnil : Token.findAll text = [] := by simpa [Token.occursIn] using h
  rw [hnil] at ht
  cases ht

end Catalog

end ClassTemplates
