import ClassTemplates.Proofs.Files.Locations
import ClassTemplates.Proofs.Outcome

/-!
# Files that are put into a tree

Operations that write make the directories on the way and put one file at the end of a path. What a
tree holds afterwards is told by the files that were put below a path: under their names it holds
what was put there last, everywhere else what it held before.

## Main definitions

- `Tree.HasFile` — names that lead from a path to a file
- `Tree.Puts` — files were put below a path, and nothing else has changed
- `Tree.among` — of some files, those under some names

## Main results

- `Tree.contentsAt?_setFile` — what a tree with one more file holds
- `Tree.Puts.trans` — files that are put after others
- `Files.writeBelow_puts`, `Files.copy_puts` — what the operations put
- `Tree.mem_below` — the names below a path
-/

namespace ClassTemplates

namespace Tree

variable {t t' t'' : Tree} {l l' : Location} {contents : Contents} {path out : String}
  {names : List String}

/-! ### One file -/

/-- A tree with a file put at a location holds that file there, and elsewhere what it held. -/
theorem contentsAt?_setFile :
    (t.setFile l contents).contentsAt? l' = if l' = l then some contents else t.contentsAt? l' := by
  unfold setFile
  split
  · rename_i hsome
    -- the file takes the place of those that were there
    have hkey : ((fun f : Location × Contents => f.1 == l') ∘
        fun f => if f.1 == l then (l, contents) else f) = fun f => f.1 == l' := by
      funext f
      by_cases hf : f.1 = l <;> simp [hf]
    rw [contentsAt?, List.find?_map, hkey, Option.map_map]
    split
    · rename_i heq
      subst heq
      obtain ⟨f, hfind⟩ := Option.isSome_iff_exists.1 (Option.isSome_map.symm.trans hsome)
      have hf := List.find?_some hfind
      rw [hfind]
      simp [eq_of_beq hf]
    · rename_i hne
      rw [contentsAt?]
      cases hfind : t.files.find? fun f => f.1 == l' with
      | none => rfl
      | some f =>
        have hfound := List.find?_some hfind
        have hother : f.1 ≠ l := eq_of_beq hfound ▸ hne
        simp [hother]
  · rw [contentsAt?, List.find?_cons]
    by_cases heq : l' = l
    · simp [heq]
    · have hother : (l == l') = false := beq_false_of_ne (Ne.symm heq)
      rw [if_neg heq, hother]
      rfl

theorem isDirectoryAt_setFile : (t.setFile l contents).isDirectoryAt l' = t.isDirectoryAt l' := by
  unfold setFile
  split <;> rfl

theorem isDirectoryAt_addDirectory (h : t.isDirectoryAt l' = true) :
    (t.addDirectory l).isDirectoryAt l' = true := by
  unfold addDirectory
  split
  · exact h
  · rw [isDirectoryAt, Bool.or_eq_true_iff] at h ⊢
    refine h.imp_right fun hmem => ?_
    rw [List.contains_cons, hmem, Bool.or_true]

theorem files_addDirectory : (t.addDirectory l).files = t.files := by
  unfold addDirectory
  split <;> rfl

/-! ### Paths in a larger tree -/

theorem follow?_mono {parts : List String}
    (h : ∀ l, t.isDirectoryAt l = true → t'.isDirectoryAt l = true)
    (hfollow : t.follow? l parts = some l') : t'.follow? l parts = some l' := by
  induction parts generalizing l with
  | nil => exact hfollow
  | cons part rest ih =>
    rw [follow?] at hfollow ⊢
    obtain ⟨hdirectory, hfollow⟩ := Option.ite_none_right_eq_some.1 hfollow
    rw [if_pos (h l hdirectory), ih hfollow]

/-- A path that can be followed still can when there are more directories. -/
theorem locate?_mono (h : ∀ l, t.isDirectoryAt l = true → t'.isDirectoryAt l = true)
    (hlocate : t.locate? path = some l) : t'.locate? path = some l := by
  unfold locate? at hlocate ⊢
  obtain ⟨hne, hfollow⟩ := Option.ite_none_left_eq_some.1 hlocate
  rw [if_neg hne, follow?_mono h hfollow]

theorem contents?_eq_some : t.contents? path = some contents ↔
    t.locate? path = some (destination path) ∧
      t.contentsAt? (destination path) = some contents := by
  rw [contents?, Option.bind_eq_some_iff]
  constructor
  · rintro ⟨l, hlocate, hcontents⟩
    obtain rfl := eq_destination hlocate
    exact ⟨hlocate, hcontents⟩
  · rintro ⟨hlocate, hcontents⟩
    exact ⟨_, hlocate, hcontents⟩

/-! ### Below a path -/

/-- The names are ones that files can have, and lead from a path to a file. -/
structure HasFile (t : Tree) (path : String) (names : List String) : Prop where
  named : ∀ name ∈ names, Path.IsName name
  there : (t.contentsAt? (destination path ++ names)).isSome = true

theorem namesBelow?_eq_some : namesBelow? l l' = some names ↔
    (∀ name ∈ names, Path.IsName name) ∧ l' = l ++ names := by
  induction l generalizing l' with
  | nil =>
    rw [namesBelow?, Option.ite_none_right_eq_some, Option.some.injEq, List.nil_append]
    exact and_congr_left fun hsame => hsame ▸ Iff.rfl
  | cons x xs ih =>
    cases l' with
    | nil => simp [namesBelow?]
    | cons y ys =>
      rw [namesBelow?]
      by_cases hxy : x = y
      · simp [hxy, ih]
      · simp [hxy, Ne.symm hxy]

theorem isSome_contentsAt?_iff : (t.contentsAt? l).isSome = true ↔ ∃ f ∈ t.files, f.1 = l := by
  rw [contentsAt?, Option.isSome_map, List.find?_isSome]
  simp

/-- The names that lead to files below a path. -/
theorem mem_below {all : List (List String)} (h : t.below path = .ok all) :
    t.locate? path = some (destination path) ∧ ∀ names, names ∈ all ↔ t.HasFile path names := by
  unfold below at h
  split at h
  · cases h
  · rename_i l hlocate
    obtain rfl := eq_destination hlocate
    split at h
    · cases h
      refine ⟨hlocate, fun names => ?_⟩
      rw [List.mem_mergeSort, List.mem_filterMap]
      simp only [namesBelow?_eq_some]
      constructor
      · rintro ⟨f, hf, hnamed, hl⟩
        exact ⟨hnamed, isSome_contentsAt?_iff.2 ⟨f, hf, hl⟩⟩
      · rintro ⟨hnamed, hthere⟩
        obtain ⟨f, hf, hl⟩ := isSome_contentsAt?_iff.1 hthere
        exact ⟨f, hf, hnamed, hl⟩
    · cases h

/-! ### Files below a path -/

/-- Between the trees, the files that are given by `puts` were put below a path. They are there, and
otherwise nothing has changed apart from directories that were added. -/
structure Puts (out : String) (puts : List String → Option Contents) (t t' : Tree) : Prop where
  directories : ∀ l, t.isDirectoryAt l = true → t'.isDirectoryAt l = true
  outside : ∀ l, ¬ destination out <+: l → t'.contentsAt? l = t.contentsAt? l
  below : ∀ names, t'.contentsAt? (destination out ++ names) =
    (puts names).or (t.contentsAt? (destination out ++ names))
  located : ∀ names, (puts names).isSome = true →
    t'.locate? (pathBelow out names) = some (destination out ++ names)

variable {puts puts' : List String → Option Contents}

theorem Puts.refl : Puts out (fun _ => none) t t :=
  ⟨fun _ h => h, fun _ _ => rfl, fun _ => rfl, fun _ h => by cases h⟩

/-- Of files that are put after others, the later ones are there. -/
theorem Puts.trans (h : Puts out puts t t') (h' : Puts out puts' t' t'') :
    Puts out (fun names => (puts' names).or (puts names)) t t'' where
  directories := fun l hl => h'.directories l (h.directories l hl)
  outside := fun l hl => (h'.outside l hl).trans (h.outside l hl)
  below := fun names => by rw [h'.below, h.below, Option.or_assoc]
  located := by
    intro names hsome
    rw [Option.isSome_or, Bool.or_eq_true_iff] at hsome
    rcases hsome with hlater | hearlier
    · exact h'.located names hlater
    · exact locate?_mono h'.directories (h.located names hearlier)

/-- What was put below a path is found there. -/
theorem Puts.contents? (h : Puts out puts t t') (hputs : puts names = some contents) :
    t'.contents? (pathBelow out names) = some contents := by
  rw [Tree.contents?, h.located names (by rw [hputs]; rfl), Option.bind_some, h.below, hputs]
  rfl

/-- Apart from the path that files were put below, files are where they were. -/
theorem Puts.contentsAt?_append (h : Puts out puts t t') (hout : ¬ destination out <+: l)
    (hl : ¬ l <+: destination out) (names : List String) :
    t'.contentsAt? (l ++ names) = t.contentsAt? (l ++ names) := by
  refine h.outside _ fun hprefix => ?_
  rcases List.prefix_or_prefix_of_prefix hprefix (List.prefix_append l names) with hle | hle
  · exact hout hle
  · exact hl hle

/-- Where no file was put, a tree holds what it held. -/
theorem Puts.contentsAt?_elsewhere (h : Puts out puts t t')
    (hl : ∀ names, (puts names).isSome = true → l ≠ destination out ++ names) :
    t'.contentsAt? l = t.contentsAt? l := by
  by_cases hprefix : destination out <+: l
  · obtain ⟨names, rfl⟩ := hprefix
    have hnone := Option.not_isSome_iff_eq_none.1 fun hsome => hl names hsome rfl
    rw [h.below, hnone, Option.none_or]
  · exact h.outside l hprefix

/-! ### Files under some names -/

/-- Of the files that are given, those under some names. -/
def among (files : List String → Option Contents) (all : List (List String))
    (names : List String) : Option Contents :=
  if names ∈ all then files names else none

variable {files : List String → Option Contents} {all all' : List (List String)}

theorem isSome_of_among (h : (among files all names).isSome = true) :
    (files names).isSome = true := by
  unfold among at h
  split at h
  · exact h
  · cases h

theorem Puts.among_nil : Puts out (among files []) t t :=
  Puts.refl

theorem Puts.trans_among (h : Puts out (among files all) t t')
    (h' : Puts out (among files all') t' t'') : Puts out (among files (all ++ all')) t t'' := by
  have hsame : (fun names => (among files all' names).or (among files all names)) =
      among files (all ++ all') := by
    funext names
    by_cases hlater : names ∈ all' <;> by_cases hearlier : names ∈ all <;>
      simp [among, hlater, hearlier]
  exact hsame ▸ h.trans h'

/-- A file that is put under names is the one that is given under them. -/
theorem Puts.among_singleton (hfile : files names = some contents)
    (h : Puts out (fun names' => if names' = names then some contents else none) t t') :
    Puts out (among files [names]) t t' := by
  have hsame : (fun names' => if names' = names then some contents else none) =
      among files [names] := by
    funext names'
    by_cases heq : names' = names <;> simp [among, heq, hfile]
  exact hsame ▸ h

/-- All files that are given were put, if there are none under other names. -/
theorem Puts.of_among (h : Puts out (among files all) t t')
    (hnone : ∀ names, names ∉ all → files names = none) : Puts out files t t' := by
  have hsame : among files all = files := by
    funext names
    rw [among]
    split
    · rfl
    · rename_i hnot
      exact (hnone names hnot).symm
  exact hsame ▸ h

end Tree

/-! ### The operations -/

namespace Files

open ClassTemplates.Tree (destination pathBelow Puts)

variable {t t' : Tree} {path source out : String} {contents : Contents} {names : List String}

theorem run_makeFrom_cons {l : Location} {part : String} {rest : List String} :
    (makeFrom path l (part :: rest)).run t =
      if (t.contentsAt? (Tree.step l part)).isSome then (.error (.notDirectory path), t)
      else (makeFrom path (Tree.step l part) rest).run (t.addDirectory (Tree.step l part)) :=
  rfl

theorem makeFrom_eq_ok {l : Location} {parts : List String}
    (h : (makeFrom path l parts).run t = (.ok (), t')) :
    t'.files = t.files ∧ ∀ l, t.isDirectoryAt l = true → t'.isDirectoryAt l = true := by
  induction parts generalizing l t with
  | nil =>
    obtain ⟨-, rfl⟩ := run_pure_eq_ok.1 h
    exact ⟨rfl, fun _ hl => hl⟩
  | cons part rest ih =>
    rw [run_makeFrom_cons] at h
    split at h
    · cases h
    · obtain ⟨hfiles, hdirectories⟩ := ih h
      exact ⟨hfiles.trans Tree.files_addDirectory, fun l hl =>
        hdirectories l (Tree.isDirectoryAt_addDirectory hl)⟩

theorem write_eq_ok (h : (write path contents).run t = (.ok (), t')) :
    t.locate? path = some (destination path) ∧ t' = t.setFile (destination path) contents := by
  unfold write ExceptT.run at h
  dsimp only at h
  split at h
  · cases h
  · rename_i l hlocate
    obtain rfl := Tree.eq_destination hlocate
    split at h
    · cases h
    split at h
    · cases h
      exact ⟨hlocate, rfl⟩
    · cases h

theorem read_eq_ok (h : (read path).run t = (.ok contents, t')) :
    t.contents? path = some contents ∧ t' = t := by
  unfold read ExceptT.run at h
  dsimp only at h
  split at h
  · rename_i contents' hcontents
    cases h
    exact ⟨hcontents, rfl⟩
  · cases h

/-- A file that is written behind directories that were made is put where its path leads. -/
theorem puts_of_write {t₁ : Tree} (hnames : ∀ name ∈ names, Path.IsName name)
    (hparents : (makeParents (pathBelow out names)).run t = (.ok (), t₁))
    (hwrite : (write (pathBelow out names) contents).run t₁ = (.ok (), t')) :
    Puts out (fun names' => if names' = names then some contents else none) t t' := by
  obtain ⟨hfiles, hdirectories⟩ := makeFrom_eq_ok hparents
  obtain ⟨hlocate, rfl⟩ := write_eq_ok hwrite
  -- making directories leaves the files alone
  have hsame (l : Location) : t₁.contentsAt? l = t.contentsAt? l := by
    rw [Tree.contentsAt?, hfiles, Tree.contentsAt?]
  rw [Tree.destination_pathBelow hnames] at hlocate ⊢
  constructor
  case directories =>
    intro l hl
    rw [Tree.isDirectoryAt_setFile]
    exact hdirectories l hl
  case outside =>
    intro l hl
    rw [Tree.contentsAt?_setFile, if_neg, hsame]
    rintro rfl
    exact hl (List.prefix_append _ _)
  case below =>
    intro names'
    rw [Tree.contentsAt?_setFile, hsame]
    by_cases hnames' : names' = names <;> simp [hnames']
  case located =>
    intro names' hsome
    obtain rfl : names' = names := by
      by_contra hne
      rw [if_neg hne] at hsome
      cases hsome
    exact Tree.locate?_mono (fun l hl => by rwa [Tree.isDirectoryAt_setFile]) hlocate

/-- A file that is written below a path is put there. -/
theorem writeBelow_puts (hnames : ∀ name ∈ names, Path.IsName name)
    (h : (writeBelow (pathBelow out names) contents).run t = (.ok (), t')) :
    Puts out (fun names' => if names' = names then some contents else none) t t' := by
  obtain ⟨u, t₁, hparents, hwrite⟩ := run_bind_eq_ok.1 h
  exact puts_of_write hnames hparents hwrite

/-- A file from elsewhere that is copied below a path is put there as it is. -/
theorem copy_puts (hnames : ∀ name ∈ names, Path.IsName name)
    (hsource : ¬ destination out <+: destination source)
    (h : (copy source (pathBelow out names)).run t = (.ok (), t')) :
    ∃ contents, t.contentsAt? (destination source) = some contents ∧
      Puts out (fun names' => if names' = names then some contents else none) t t' := by
  have htarget : destination (pathBelow out names) = destination out ++ names :=
    Tree.destination_pathBelow hnames
  have hne : destination source ≠ destination (pathBelow out names) := by
    intro heq
    rw [heq, htarget] at hsource
    exact hsource (List.prefix_append _ _)
  unfold copy at h
  split at h
  · rename_i hsame
    exact absurd (Tree.destination_eq_of_same hsame) hne
  · obtain ⟨u, t₁, hparents, hreading⟩ := run_bind_eq_ok.1 h
    obtain ⟨contents, t₂, hread, hwriting⟩ := run_bind_eq_ok.1 hreading
    obtain ⟨hcontents, rfl⟩ := read_eq_ok hread
    obtain ⟨t₃, t₄, hget, hwrite⟩ := run_bind_eq_ok.1 hwriting
    cases hget
    obtain ⟨hlocated, hfile⟩ := Tree.contents?_eq_some.1 hcontents
    obtain ⟨hlocate, -⟩ := write_eq_ok hwrite
    -- source and target are different places, so the copy is not emptied
    have hother : (t₂.locate? source == t₂.locate? (pathBelow out names)) = false := by
      rw [hlocated, hlocate]
      exact beq_false_of_ne fun heq => hne (Option.some.inj heq)
    rw [hother, if_neg Bool.false_ne_true] at hwrite
    refine ⟨contents, ?_, puts_of_write hnames hparents hwrite⟩
    rw [← hfile, Tree.contentsAt?, Tree.contentsAt?, (makeFrom_eq_ok hparents).1]

end Files

end ClassTemplates
