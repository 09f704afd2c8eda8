import ClassTemplates.Batch.Input
import Mathlib.Data.List.Basic

/-!
# Locations

A path is followed part by part. The tree matters only to whether that can be done; where the path
leads is known beforehand. A name below a path leads one further.

## Main definitions

- `Tree.destination` — where a path leads, if it can be followed
- `Tree.way` — the names that a path leads through

## Main results

- `Tree.eq_destination` — where a path leads in any tree
- `Tree.destination_pathBelow` — where the path of a file below a path leads
- `Tree.destination_eq_of_same` — paths with the same parts lead to the same place
-/

namespace ClassTemplates

namespace Path

variable {path a b name part : String}

/-! ### Parts -/

theorem segments_append_slash (a b : String) :
    segments (a ++ "/" ++ b) = segments a ++ segments b := by
  simp [segments, Text.split, List.splitOn_append_cons_self]

theorem segments_of_noSlash (h : '/' ∉ name.toList) : segments name = [name] := by
  simp [segments, Text.split, List.splitOn_eq_singleton h]

theorem notMem_of_mem_splitOn {cs xs : List Char} (h : xs ∈ cs.splitOn '/') : '/' ∉ xs := by
  induction cs generalizing xs with
  | nil =>
    rw [List.splitOn_nil, List.mem_singleton] at h
    simp [h]
  | cons c cs ih =>
    obtain ⟨y, ys, hy⟩ := List.exists_cons_of_ne_nil (List.splitOn_ne_nil '/' cs)
    rw [hy] at ih
    rw [List.splitOn_cons_eq_if_modifyHead, hy] at h
    split at h
    · rcases List.mem_cons.1 h with rfl | h
      · exact List.not_mem_nil
      · exact ih h
    · rename_i hc
      rcases List.mem_cons.1 h with rfl | h
      · have hslash : c ≠ '/' := fun heq => hc (beq_iff_eq.2 heq)
        simp [hslash.symm, ih List.mem_cons_self]
      · exact ih (List.mem_cons_of_mem _ h)

theorem noSlash_of_mem_segments (h : part ∈ segments path) : '/' ∉ part.toList := by
  obtain ⟨cs, hcs, rfl⟩ := List.mem_map.1 h
  simpa using notMem_of_mem_splitOn hcs

/-! ### Absolute paths -/

theorem isAbsolute_iff : isAbsolute path = true ↔ path.toList.head? = some '/' := by
  rw [isAbsolute, String.startsWith_string_iff]
  cases path.toList <;> simp [eq_comm]

theorem isAbsolute_of_noSlash (h : '/' ∉ name.toList) : isAbsolute name = false := by
  rw [Bool.eq_false_iff, ne_eq, isAbsolute_iff]
  exact fun hhead => h (List.mem_of_head? hhead)

theorem isAbsolute_append (h : a ≠ "") : isAbsolute (a ++ b) = isAbsolute a := by
  have hne : a.toList ≠ [] := by simpa using h
  rw [Bool.eq_iff_iff, isAbsolute_iff, isAbsolute_iff, String.toList_append,
    List.head?_append_of_ne_nil _ hne]

/-! ### The last name -/

/-- The parts that count are those that lead somewhere, behind a slash or a dot in front. -/
theorem parts_eq (path : String) : ∃ front, (front = [] ∨ front = ["/"] ∨ front = ["."]) ∧
    parts path = front ++ (segments path).filter (fun part => !isIdle part) ∧
    (isAbsolute path = true ↔ front = ["/"]) := by
  unfold parts
  split
  · rename_i habsolute
    exact ⟨["/"], .inr (.inl rfl), rfl, iff_of_true habsolute rfl⟩
  · rename_i habsolute
    dsimp only
    split
    · exact ⟨["."], .inr (.inr rfl), rfl, iff_of_false habsolute (by decide)⟩
    · exact ⟨[], .inl rfl, rfl, iff_of_false habsolute (by decide)⟩

theorem mem_behind {all : List String} :
    part ∈ all.filter (fun part => !isIdle part) ↔ part ∈ all ∧ isIdle part = false := by
  simp

/-- No part that leads somewhere is taken for a slash or a dot in front. -/
theorem filter_behind : ((segments path).filter fun part => !isIdle part).filter
    (fun part => part == "/" || part == ".") = [] := by
  refine List.filter_eq_nil_iff.2 fun part hpart hfront => ?_
  obtain ⟨hsegment, hidle⟩ := mem_behind.1 hpart
  rcases Bool.or_eq_true_iff.1 hfront with hslash | hdot
  · rw [eq_of_beq hslash] at hsegment
    exact noSlash_of_mem_segments hsegment (by decide)
  · rw [eq_of_beq hdot] at hidle
    cases hidle

/-- Paths with the same parts start at the same place and lead through the same names. -/
theorem eq_of_parts_eq (h : parts a = parts b) : isAbsolute a = isAbsolute b ∧
    (segments a).filter (fun part => !isIdle part) =
      (segments b).filter fun part => !isIdle part := by
  obtain ⟨front, hfront, ha, habsolute⟩ := parts_eq a
  obtain ⟨front', hfront', hb, habsolute'⟩ := parts_eq b
  -- the front can be told from the rest, in which there is no slash and no dot
  obtain rfl : front = front' := by
    have hfilter := congrArg (List.filter fun part => part == "/" || part == ".") h
    rw [ha, hb, List.filter_append, List.filter_append, filter_behind, filter_behind] at hfilter
    rcases hfront with rfl | rfl | rfl <;> rcases hfront' with rfl | rfl | rfl <;>
      first | rfl | exact absurd hfilter (by decide)
  refine ⟨Bool.eq_iff_iff.2 (habsolute.trans habsolute'.symm), ?_⟩
  rw [ha, hb] at h
  exact List.append_cancel_left h

theorem isName_of_fileName? (h : fileName? path = some name) : IsName name := by
  unfold fileName? at h
  split at h
  · rename_i part hlast
    split at h
    · cases h
    · rename_i hproper
      cases h
      simp only [Bool.or_eq_true, beq_iff_eq, not_or] at hproper
      obtain ⟨front, hfront, hparts, -⟩ := parts_eq path
      have hmem := List.mem_of_getLast? hlast
      rw [hparts, List.mem_append] at hmem
      rcases hmem with hmem | hmem
      · rcases hfront with rfl | rfl | rfl <;> simp_all
      · obtain ⟨hsegment, hidle⟩ := mem_behind.1 hmem
        exact ⟨noSlash_of_mem_segments hsegment, hidle, hproper.2⟩
  · cases h

end Path

namespace Tree

variable {t : Tree} {l : Location} {path a b name : String} {names : List String}

/-- Where a path leads if it can be followed. -/
def destination (path : String) : Location :=
  (Path.segments path).foldl step (origin path)

theorem eq_foldl_of_follow? {l' : Location} {parts : List String}
    (h : t.follow? l parts = some l') : l' = parts.foldl step l := by
  induction parts generalizing l with
  | nil => exact (Option.some.inj h).symm
  | cons part rest ih =>
    rw [follow?] at h
    exact ih (Option.ite_none_right_eq_some.1 h).2

/-- Where a path leads does not depend on the tree in which it is followed. -/
theorem eq_destination (h : t.locate? path = some l) : l = destination path :=
  eq_foldl_of_follow? (Option.ite_none_left_eq_some.1 h).2

theorem step_of_isName (h : Path.IsName name) : step l name = l ++ [name] := by
  rw [step, h.counts, if_neg Bool.false_ne_true, if_neg]
  simpa using h.notAbove

/-! ### The way along a path -/

theorem foldl_step_filter {parts : List String} :
    (parts.filter fun part => !Path.isIdle part).foldl step l = parts.foldl step l := by
  induction parts generalizing l with
  | nil => rfl
  | cons part rest ih =>
    cases hidle : Path.isIdle part <;> simp [hidle, ih, step]

/-- The names that a path leads through. -/
def way (path : String) : List String :=
  (Path.segments path).filter fun part => !Path.isIdle part

theorem destination_eq : destination path = (way path).foldl step (origin path) :=
  foldl_step_filter.symm

/-- A name below a path leads one further. -/
theorem way_join (path : String) (h : Path.IsName name) :
    way (Path.join path name) = way path ++ [name] ∧
      origin (Path.join path name) = origin path := by
  have hname : way name = [name] := by
    rw [way, Path.segments_of_noSlash h.noSlash]
    simp [h.counts]
  rw [Path.join, Path.isAbsolute_of_noSlash h.noSlash, Bool.false_or]
  split
  · rename_i hempty
    obtain rfl : path = "" := by simpa using hempty
    rw [hname, origin, Path.isAbsolute_of_noSlash h.noSlash]
    exact ⟨rfl, rfl⟩
  · rename_i hempty
    have hne : path ≠ "" := by simpa using hempty
    have hjoin (front : String) : way (front ++ "/" ++ name) = way front ++ [name] := by
      rw [way, Path.segments_append_slash, List.filter_append, ← way, ← way, hname]
    split
    · rename_i hends
      -- the last part of the path is empty
      obtain ⟨front, rfl⟩ : ∃ front, path = front ++ "/" := by
        rw [String.endsWith_eq_endsWith_toSlice, String.Slice.endsWith_string_iff] at hends
        obtain ⟨cs, hcs⟩ := hends
        exact ⟨String.ofList cs, by rw [← String.toList_inj]; simpa using hcs.symm⟩
      have hfront : way (front ++ "/") = way front := by
        have hsplit := Path.segments_append_slash front ""
        rw [String.append_empty] at hsplit
        rw [way, hsplit, List.filter_append, ← way]
        exact List.append_nil _
      rw [hjoin, hfront, origin, origin, Path.isAbsolute_append hne]
      exact ⟨rfl, rfl⟩
    · rw [hjoin, origin, origin, String.append_assoc, Path.isAbsolute_append hne]
      exact ⟨rfl, rfl⟩

theorem way_pathBelow (path : String) (h : ∀ name ∈ names, Path.IsName name) :
    way (pathBelow path names) = way path ++ names ∧
      origin (pathBelow path names) = origin path := by
  induction names generalizing path with
  | nil => simp [pathBelow]
  | cons name names ih =>
    obtain ⟨hname, hnames⟩ := List.forall_mem_cons.1 h
    obtain ⟨hway, horigin⟩ := way_join path hname
    obtain ⟨hways, horigins⟩ := ih (Path.join path name) hnames
    refine ⟨?_, horigins.trans horigin⟩
    show way (pathBelow (Path.join path name) names) = _
    rw [hways, hway, List.append_assoc, List.singleton_append]

theorem foldl_step_of_isName (h : ∀ name ∈ names, Path.IsName name) :
    names.foldl step l = l ++ names := by
  induction names generalizing l with
  | nil => simp
  | cons name names ih =>
    obtain ⟨hname, hnames⟩ := List.forall_mem_cons.1 h
    rw [List.foldl_cons, ih hnames, step_of_isName hname, List.append_assoc,
      List.singleton_append]

theorem destination_pathBelow (h : ∀ name ∈ names, Path.IsName name) :
    destination (pathBelow path names) = destination path ++ names := by
  obtain ⟨hway, horigin⟩ := way_pathBelow path h
  rw [destination_eq, hway, horigin, List.foldl_append, ← destination_eq, foldl_step_of_isName h]

/-- Paths with the same parts lead to the same place. -/
theorem destination_eq_of_same (h : Path.same a b = true) : destination a = destination b := by
  obtain ⟨habsolute, hparts⟩ := Path.eq_of_parts_eq (eq_of_beq h)
  rw [destination, destination, ← foldl_step_filter, hparts, foldl_step_filter, origin, origin,
    habsolute]

end Tree

end ClassTemplates
