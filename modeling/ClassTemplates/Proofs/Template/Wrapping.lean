import ClassTemplates.Proofs.Template.Scanning

/-!
# Values made tokens

A value can be made a token whatever it is, but it does not always read back as one: a value that is
empty, has more than one line or has a mark behind its first character does not. One that does is
found wherever the token is written, as long as no mark stands in front of it.

## Main results

- `Token.findAll_of_match?` — the first token of a text is the one at its first mark, if there is
  one
- `Token.isWhole_iff` — a text is a token if it matches with nothing left
- `Token.isWhole_wrap` — the values that read back, and where their tokens are found
-/

namespace ClassTemplates.Token

open String (utf8Len)

variable {s : String} {front cs : List Char} {p : Parts}

/-- A token that matches behind characters without a mark is the first one of the text. -/
theorem findAll_of_match? (hs : s.toList = front ++ cs) (hfront : mark ∉ front)
    (h : match? cs = some p) :
    ∃ ts, findAll s = placed (utf8Len front) p.moduleId p.value :: ts := by
  have hbehind : s.toList = (front ++ text p.moduleId p.value) ++ p.rest := by
    rw [hs, List.append_assoc, ← match?_eq_some h]
  obtain ⟨ts, hfound, -⟩ := scans_findOnto #[placed (utf8Len front) p.moduleId p.value] hbehind rfl
  refine ⟨ts, ?_⟩
  rw [findAll, hs, findOnto_append _ _ hfront, findOnto_of_match? _ _ h, Nat.zero_add,
    byteLength_eq, ← String.utf8Len_append]
  exact hfound

/-- A text is a token if one matches and nothing is left. -/
theorem isWhole_iff : isWhole s = true ↔ ∃ p, match? s.toList = some p ∧ p.rest = [] := by
  have hs : s.toList = [] ++ s.toList := rfl
  cases h : match? s.toList with
  | none =>
    have hnone : isWhole s = false := by
      unfold isWhole
      split
      · rename_i t ts hfound
        have ht : t.Occurs s := ((scans_findAll s).occurs t (hfound ▸ List.mem_cons_self)).1
        simp [show t.start ≠ 0 from ht.ne_of_match? hs h]
      · rfl
    simp [hnone]
  | some p =>
    obtain ⟨ts, hfound⟩ := findAll_of_match? hs List.not_mem_nil h
    have hlength : s.utf8ByteSize = utf8Len (text p.moduleId p.value) + utf8Len p.rest := by
      rw [← String.utf8Len_toList, match?_eq_some h, String.utf8Len_append]
    simp [isWhole, hfound, placed, byteLength_eq, hlength]

@[simp] theorem toList_wrap (moduleId value : String) :
    (wrap moduleId value).toList = text moduleId.toList value.toList :=
  String.toList_ofList

/-- The token of a value behind a name is a token exactly if its parts are spelled. -/
theorem isWhole_wrap_iff_spelled (moduleId value : String)
    (hname : ∀ c ∈ moduleId.toList, isModuleChar c = true) :
    isWhole (wrap moduleId value) = true ↔ Parts.Spelled moduleId.toList value.toList := by
  rw [isWhole_iff, toList_wrap]
  constructor
  · rintro ⟨p, hp, hrest⟩
    have hspelled := spelled_of_match? hp
    have htext := match?_eq_some hp
    rw [hrest, List.append_nil] at htext
    obtain ⟨hm, hv⟩ := text_inj hname hspelled.name htext
    rwa [hm, hv]
  · intro h
    have halone : match? (text moduleId.toList value.toList ++ []) =
        some ⟨moduleId.toList, value.toList, []⟩ :=
      match?_text_append h
    rw [List.append_nil] at halone
    exact ⟨_, halone, rfl⟩

/-- The token of a value reads back exactly if the value is not empty, stays on one line and has no
mark behind its first character. Then it is the first token of every text in which no mark stands in
front of it. -/
theorem isWhole_wrap (moduleId value : String) (hne : moduleId ≠ "")
    (hname : ∀ c ∈ moduleId.toList, isModuleChar c = true) :
    (isWhole (wrap moduleId value) = true ↔
      value ≠ "" ∧ (∀ c ∈ value.toList, endsLine c = false) ∧ mark ∉ value.toList.tail) ∧
    (isWhole (wrap moduleId value) = true → ∀ x y : String, mark ∉ x.toList →
      (findAll (x ++ wrap moduleId value ++ y)).head? =
        some ⟨x.utf8ByteSize, x.utf8ByteSize + (wrap moduleId value).utf8ByteSize, moduleId,
          wrap moduleId value⟩) := by
  have hspelled := isWhole_wrap_iff_spelled moduleId value hname
  constructor
  · rw [hspelled, Parts.spelled_iff]
    constructor
    · rintro ⟨⟨-, -, hvalue, hline⟩, hmark⟩
      exact ⟨by simpa using hvalue, hline, hmark⟩
    · rintro ⟨hvalue, hline, hmark⟩
      exact ⟨⟨by simpa using hne, hname, by simpa using hvalue, hline⟩, hmark⟩
  · intro h x y hx
    have hmatch : match? (text moduleId.toList value.toList ++ y.toList) =
        some ⟨moduleId.toList, value.toList, y.toList⟩ :=
      match?_text_append (hspelled.1 h)
    have hs : (x ++ wrap moduleId value ++ y).toList =
        x.toList ++ (text moduleId.toList value.toList ++ y.toList) := by
      simp
    obtain ⟨ts, hfound⟩ := findAll_of_match? hs hx hmatch
    rw [hfound]
    simp [placed, wrap, byteLength_eq, String.utf8ByteSize_ofList, String.utf8Len_toList]

theorem isWhole_wrap_leading_mark :
    isWhole (wrap "m" "\x60a") = true ∧ isWhole (wrap "m" "a\x60") = false ∧
      (findAll ("é" ++ wrap "m" "\x60a" ++ "\x60")).head? =
        some ⟨2, 20, "m", "\x60BuildConfig#m#\x60a\x60"⟩ := by
  have hname : ∀ c ∈ "m".toList, isModuleChar c = true := List.forall_mem_singleton.2 rfl
  have hwhole : isWhole (wrap "m" "\x60a") = true :=
    (isWhole_wrap "m" "\x60a" (by decide) hname).1.2
      ⟨by decide, List.forall_mem_cons.2 ⟨rfl, List.forall_mem_singleton.2 rfl⟩, by decide⟩
  refine ⟨hwhole, ?_, ?_⟩
  · refine Bool.eq_false_iff.2 fun h => ?_
    obtain ⟨-, -, hmark⟩ := (isWhole_wrap "m" "a\x60" (by decide) hname).1.1 h
    exact hmark (by decide)
  · exact (isWhole_wrap "m" "\x60a" (by decide) hname).2 hwhole "é" "\x60" (by decide)

end ClassTemplates.Token
