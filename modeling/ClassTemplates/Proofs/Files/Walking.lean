import Mathlib.Data.List.Lex
import Mathlib.Data.List.Nodup
import Mathlib.Data.String.Basic
import ClassTemplates.Proofs.Files.Putting

/-!
# Walks through trees

The files below a path are listed in the order of their names, each of them once. A file is put at
the end of a path behind the directories on the way there. Only those are made, and none where the
path could be followed before.

## Main definitions

- `Tree.OnWay` — a location that a path leads through
- `Tree.AddsOnly` — directories are the only ones that were made

## Main results

- `Tree.sorted_below` — the order in which files are listed
- `Files.writeBelow_adds`, `copy_adds` — the directories that operations make
- `Files.makeParents_of_locate` — no directory is made on the way to what is there
-/

namespace ClassTemplates

namespace Tree

variable {t t' t'' : Tree} {l l' : Location} {path out : String} {names : List String}

/-! ### Listing -/

/-- Names are listed in the lexicographic order. -/
theorem precedes_iff {a b : List String} : precedes a b = true ↔ a ≤ b := by
  rw [← not_lt]
  induction a generalizing b with
  | nil => simp [precedes]
  | cons x xs ih =>
    cases b with
    | nil => simp [precedes]
    | cons y ys =>
      rw [precedes, List.cons_lt_cons_iff]
      by_cases hxy : x = y
      · simp [hxy, ih]
      · simp only [if_neg hxy, decide_eq_true_eq, Ne.symm hxy, false_and, or_false, not_lt]
        exact (Ne.le_iff_lt hxy).symm

/-- The files below a path are listed in the order of their names, each of them once. -/
theorem sorted_below {all : List (List String)} (h : t.below path = .ok all) :
    all.Pairwise (· < ·) := by
  unfold below at h
  split at h
  · cases h
  · rename_i l hlocate
    split at h
    · cases h
      have htrans (a b c : List String) (hab : precedes a b = true) (hbc : precedes b c = true) :
          precedes a c = true :=
        precedes_iff.2 ((precedes_iff.1 hab).trans (precedes_iff.1 hbc))
      have htotal (a b : List String) : (precedes a b || precedes b a) = true := by
        simpa [precedes_iff] using le_total a b
      have hle := List.pairwise_mergeSort htrans htotal
        (t.files.filterMap fun f => namesBelow? l f.1)
      have hnodup : (t.files.filterMap fun f => namesBelow? l f.1).Nodup := by
        have hlocations := List.Nodup.filterMap (f := namesBelow? l) (fun a a' names ha ha' =>
          (namesBelow?_eq_some.1 ha).2.trans (namesBelow?_eq_some.1 ha').2.symm) t.once
        rwa [List.filterMap_map] at hlocations
      have hne := (List.mergeSort_perm _ precedes).nodup_iff.2 hnodup
      exact hle.and hne |>.imp fun ⟨hle, hne⟩ => lt_of_le_of_ne (precedes_iff.1 hle) hne
    · cases h

/-! ### Ways -/

/-- The location is where a path leads, or is passed on the way there. -/
def OnWay (path : String) (l : Location) : Prop :=
  ∃ front, front <+: way path ∧ l = front.foldl step (origin path)

/-- On the way to a file below a path one is on the way to the path, or already below it. -/
theorem onWay_pathBelow (h : ∀ name ∈ names, Path.IsName name)
    (hl : OnWay (pathBelow path names) l) : OnWay path l ∨ destination path <+: l := by
  obtain ⟨front, ⟨back, hsplit⟩, rfl⟩ := hl
  obtain ⟨hway, horigin⟩ := way_pathBelow path h
  rw [hway, List.append_eq_append_iff] at hsplit
  rw [horigin]
  rcases hsplit with ⟨back', hfront, -⟩ | ⟨below, rfl, hbelow⟩
  · exact .inl ⟨front, ⟨back', hfront.symm⟩, rfl⟩
  · right
    rw [List.foldl_append, ← destination_eq, foldl_step_of_isName fun name hname =>
      h name (hbelow ▸ List.mem_append_left _ hname)]
    exact List.prefix_append _ _

/-- Directories that the second tree has and the first has not are at such locations. -/
def AddsOnly (P : Location → Prop) (t t' : Tree) : Prop :=
  ∀ l, t'.isDirectoryAt l = true → t.isDirectoryAt l = true ∨ P l

variable {P Q : Location → Prop}

theorem AddsOnly.refl : AddsOnly P t t :=
  fun _ h => .inl h

theorem AddsOnly.trans (h : AddsOnly P t t') (h' : AddsOnly P t' t'') : AddsOnly P t t'' :=
  fun l hl => (h' l hl).elim (h l) .inr

theorem AddsOnly.imp (h : AddsOnly P t t') (hPQ : ∀ l, P l → Q l) : AddsOnly Q t t' :=
  fun l hl => (h l hl).imp_right (hPQ l)

theorem addsOnly_addDirectory : AddsOnly (· = l) t (t.addDirectory l) := by
  intro l' hl'
  unfold addDirectory at hl'
  split at hl'
  · exact .inl hl'
  · rw [isDirectoryAt, List.contains_cons, Bool.or_left_comm, Bool.or_eq_true_iff,
      beq_iff_eq] at hl'
    exact hl'.symm

end Tree

/-! ### Directories that operations make -/

namespace Files

open ClassTemplates.Tree (destination pathBelow OnWay AddsOnly way)

variable {t t' : Tree} {path source : String} {contents : Contents} {l : Location}

theorem makeFrom_adds {parts : List String}
    (h : (makeFrom path l parts).run t = (.ok (), t')) :
    AddsOnly (fun l' => ∃ front, front <+: parts ∧ l' = front.foldl Tree.step l) t t' := by
  induction parts generalizing l t with
  | nil =>
    obtain ⟨-, rfl⟩ := run_pure_eq_ok.1 h
    exact .refl
  | cons part rest ih =>
    rw [run_makeFrom_cons] at h
    split at h
    · cases h
    · refine .trans (Tree.addsOnly_addDirectory.imp ?_) ((ih h).imp ?_)
      · rintro l' rfl
        exact ⟨[part], by simp, rfl⟩
      · rintro l' ⟨front, hfront, rfl⟩
        exact ⟨part :: front, by simpa using hfront, rfl⟩

theorem makeParents_adds (h : (makeParents path).run t = (.ok (), t')) :
    AddsOnly (OnWay path) t t' := by
  refine (makeFrom_adds h).imp ?_
  rintro l ⟨front, hfront, rfl⟩
  exact ⟨front, hfront.trans (List.dropLast_prefix _), rfl⟩

theorem write_adds (h : (write path contents).run t = (.ok (), t')) :
    t'.directories = t.directories := by
  obtain ⟨-, rfl⟩ := write_eq_ok h
  unfold Tree.setFile
  split <;> rfl

/-- Writing a file makes directories on the way to it only. -/
theorem writeBelow_adds (h : (writeBelow path contents).run t = (.ok (), t')) :
    AddsOnly (OnWay path) t t' := by
  obtain ⟨u, t₁, hparents, hwrite⟩ := run_bind_eq_ok.1 h
  refine (makeParents_adds hparents).trans fun l hl => .inl ?_
  rwa [Tree.isDirectoryAt, write_adds hwrite] at hl

/-- So does copying one. -/
theorem copy_adds (h : (copy source path).run t = (.ok (), t')) :
    AddsOnly (OnWay path) t t' := by
  unfold copy at h
  split at h
  · obtain ⟨-, rfl⟩ := run_pure_eq_ok.1 h
    exact .refl
  · obtain ⟨u, t₁, hparents, hreading⟩ := run_bind_eq_ok.1 h
    obtain ⟨contents, t₂, hread, hwriting⟩ := run_bind_eq_ok.1 hreading
    obtain ⟨-, rfl⟩ := read_eq_ok hread
    obtain ⟨t₃, t₄, hget, hwrite⟩ := run_bind_eq_ok.1 hwriting
    cases hget
    refine (makeParents_adds hparents).trans fun l hl => .inl ?_
    rwa [Tree.isDirectoryAt, write_adds hwrite] at hl

/-! ### Files that are there -/

theorem follow?_way {parts : List String} {l' : Location} (h : t.follow? l parts = some l') :
    t.follow? l (parts.filter fun part => !Path.isIdle part) = some l' := by
  induction parts generalizing l with
  | nil => exact h
  | cons part rest ih =>
    rw [Tree.follow?] at h
    obtain ⟨hdirectory, hrest⟩ := Option.ite_none_right_eq_some.1 h
    cases hidle : Path.isIdle part with
    | true =>
      have hstep : Tree.step l part = l := by rw [Tree.step, hidle, if_pos rfl]
      rw [hstep] at hrest
      simpa [hidle] using ih hrest
    | false =>
      simpa [hidle, Tree.follow?, hdirectory] using ih hrest

theorem makeFrom_of_follow {parts : List String} {l' : Location}
    (hfollow : t.follow? l parts = some l')
    (h : (makeFrom path l parts.dropLast).run t = (.ok (), t')) : t' = t := by
  induction parts generalizing l with
  | nil => exact (run_pure_eq_ok.1 h).2.symm
  | cons part rest ih =>
    cases rest with
    | nil => exact (run_pure_eq_ok.1 h).2.symm
    | cons part' rest =>
      have hrest := (Option.ite_none_right_eq_some.1 hfollow).2
      have hdirectory : t.isDirectoryAt (Tree.step l part) = true :=
        (Option.ite_none_right_eq_some.1 hrest).1
      have hsame : t.addDirectory (Tree.step l part) = t := if_pos hdirectory
      rw [List.dropLast_cons_cons, run_makeFrom_cons, hsame] at h
      split at h
      · cases h
      · exact ih hrest h

/-- No directory is made on the way to what is there. -/
theorem makeParents_of_locate (hlocate : t.locate? path = some l)
    (h : (makeParents path).run t = (.ok (), t')) : t' = t :=
  makeFrom_of_follow (follow?_way (Option.ite_none_left_eq_some.1 hlocate).2) h

end Files

end ClassTemplates
