import Mathlib.Data.List.TakeWhile
import ClassTemplates.Template.Token

/-!
# Tokens in context

Whether a text starts with a token, and with which, is decided by the characters of the token alone:
what follows it makes no difference.

## Main definitions

- `Token.Parts.Spelled` — the parts are ones that a token can be made of

## Main results

- `Token.spelled_of_match?`, `match?_text_append` — what matches, and in front of what
- `Token.match?_text` — a token matches by itself
- `Token.match?_of_append` — a text without a token in front has none once its end is cut off
-/

namespace ClassTemplates.Token

/-- The module is a name, and the value stays on one line and in front of the next mark. -/
structure Parts.Spelled (moduleId value : List Char) : Prop where
  ne_nil : moduleId ≠ []
  name : ∀ c ∈ moduleId, isModuleChar c
  value : ∃ first rest, value = first :: rest ∧ endsLine first = false ∧
    ∀ c ∈ rest, (c != mark && !endsLine c) = true

variable {cs more moduleId value : List Char} {p : Parts}

theorem dropStart?_append {xs : List Char} : dropStart? xs (xs ++ cs) = some cs := by
  induction xs with
  | nil => cases cs <;> rfl
  | cons x xs ih => simpa [dropStart?] using ih

theorem value?_spelled {rest : List Char} (h : value? cs = some (value, rest)) :
    ∃ first tail, value = first :: tail ∧ endsLine first = false ∧
      ∀ c ∈ tail, (c != mark && !endsLine c) = true := by
  unfold value? at h
  split at h
  · cases h
  · rename_i first cs
    split at h
    · cases h
    · rename_i hfirst
      simp only at h
      split at h
      · cases h
      · split at h
        · cases h
          refine ⟨first, _, rfl, Bool.eq_false_iff.2 hfirst, fun c hc => ?_⟩
          exact List.mem_takeWhile_imp (p := fun c => c != mark && !endsLine c) hc
        · cases h

theorem spelled_of_match? (h : match? cs = some p) : Parts.Spelled p.moduleId p.value := by
  unfold match? at h
  obtain ⟨tail, -, h⟩ := Option.bind_eq_some_iff.1 h
  simp only at h
  split at h
  · rename_i m ms after hm hafter
    obtain ⟨⟨value, rest⟩, hv, h⟩ := Option.bind_eq_some_iff.1 h
    cases h
    refine ⟨?_, fun c hc => List.mem_takeWhile_imp hc, value?_spelled hv⟩
    simp [hm]
  · cases h

theorem takeWhile_append_cons {q : Char → Bool} {xs : List Char} {y : Char}
    (hx : ∀ x ∈ xs, q x) (hy : q y = false) (ys : List Char) :
    (xs ++ y :: ys).takeWhile q = xs ∧ (xs ++ y :: ys).dropWhile q = y :: ys := by
  rw [List.takeWhile_append_of_pos hx, List.dropWhile_append_of_pos hx]
  simp [hy]

/-- A token with spelled parts matches in front of anything. -/
theorem match?_text_append (h : Parts.Spelled moduleId value) :
    match? (text moduleId value ++ more) = some ⟨moduleId, value, more⟩ := by
  obtain ⟨hne, hname, first, tail, rfl, hfirst, htail⟩ := h
  have hsplit : text moduleId (first :: tail) ++ more =
      opening ++ (moduleId ++ '#' :: (first :: (tail ++ mark :: more))) := by
    simp [text]
  have hsharp : isModuleChar '#' = false := by decide
  have hmark : (mark != mark && !endsLine mark) = false := by decide
  obtain ⟨hm, hafter⟩ :=
    takeWhile_append_cons hname hsharp (first :: (tail ++ mark :: more))
  obtain ⟨hv, hrest⟩ :=
    takeWhile_append_cons (q := fun c => c != mark && !endsLine c) (y := mark) htail hmark more
  have hvalue : value? (first :: (tail ++ mark :: more)) = some (first :: tail, more) := by
    simp [value?, hfirst, hv, hrest]
  obtain ⟨m, ms, rfl⟩ := List.exists_cons_of_ne_nil hne
  rw [hsplit, match?, dropStart?_append]
  simp only [Option.bind_eq_bind, Option.bind_some, hm, hafter, hvalue]
  rfl

/-- A token matches by itself. -/
theorem match?_text (h : match? cs = some p) :
    match? (text p.moduleId p.value) = some ⟨p.moduleId, p.value, []⟩ := by
  have halone : match? (text p.moduleId p.value ++ []) = some ⟨p.moduleId, p.value, []⟩ :=
    match?_text_append (spelled_of_match? h)
  rwa [List.append_nil] at halone

/-- A text without a token in front has none once its end is cut off. -/
theorem match?_of_append (h : match? (cs ++ more) = none) : match? cs = none := by
  cases hp : match? cs with
  | none => rfl
  | some p =>
    have hcs := match?_eq_some hp
    rw [hcs, List.append_assoc, match?_text_append (spelled_of_match? hp)] at h
    cases h

end ClassTemplates.Token
