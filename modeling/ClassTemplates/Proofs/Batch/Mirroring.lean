import ClassTemplates.Proofs.Batch.Offers

/-!
# Directories in the output

The class files of a directory are looked at first, all in the same tree. Then they are put below
the output one after the other, and after them the other files of the directory are copied there. In
the end every file of the directory is below the output, under the names that lead to it.

## Main definitions

- `Job.Visited.Current` — a class file that is as it was when it was looked at

## Main results

- `Job.place_puts`, `Job.copy_other_puts` — what is put for one file
- `Job.placeAll_puts`, `Job.copyAll_puts` — what is put for the files one after the other
- `Job.directory_eq_ok` — the steps in which a directory is handled
- `Job.directory_puts` — what is put for a directory
-/

namespace ClassTemplates

namespace RunM

variable {α : Type} {t t' : Tree} {a : α}

theorem run_onFiles_eq_ok {x : TreeM α} :
    (onFiles x).run t = (.ok a, t') ↔ x.run t = (.ok a, t') := by
  change onFiles x t = _ ↔ _
  unfold onFiles
  split
  · rename_i hx
    rw [hx]
    constructor <;> rintro ⟨⟩ <;> rfl
  · rename_i hx
    rw [hx]
    constructor <;> rintro ⟨⟩

theorem run_look_eq_ok {f : Tree → Except RunError α} :
    (look f).run t = (.ok a, t') ↔ f t = .ok a ∧ t = t' :=
  Prod.mk.injEq .. ▸ Iff.rfl

end RunM

namespace Job

open ClassTemplates.Tree (destination pathBelow Puts among)

variable {job : Job} {t t' : Tree} {root out : String} {report report' : Report}
  {names : List String}

/-- A class file of a directory is as it was when it was looked at. -/
structure Visited.Current (job : Job) (t : Tree) (root : String) (v : Visited) : Prop where
  named : ∀ name ∈ v.names, Path.IsName name
  isClass : Settings.isClassName (Tree.lastName root v.names) = true
  holds : t.contentsAt? (destination root ++ v.names) = some v.contents
  outcome_eq : v.outcome = job.outcome? v.name v.contents.toBytes

/-- A file of a directory is not below the output. -/
theorem not_below_output (hi : (Input.directory root).Apart t out)
    (hnames : ∀ name ∈ names, Path.IsName name) :
    ¬ destination out <+: destination (pathBelow root names) := by
  rw [Tree.destination_pathBelow hnames]
  intro hprefix
  rcases List.prefix_or_prefix_of_prefix hprefix (List.prefix_append _ names) with hle | hle
  · exact hi.outside hle
  · exact hi.notBelow hle

/-- The class files of a directory are those of its files that have a name of a class file. -/
theorem mem_classFiles {classes : List (List String)} (h : t.classFiles root = .ok classes) :
    ∀ names, names ∈ classes ↔
      t.HasFile root names ∧ Settings.isClassName (Tree.lastName root names) = true := by
  unfold Tree.classFiles at h
  split at h
  · cases h
  · rename_i all hall
    cases h
    intro names
    rw [List.mem_filter, (Tree.mem_below hall).2]

theorem delivery?_of_current {v : Visited} (hi : (Input.directory root).Apart t out)
    (hv : v.Current job t root) :
    job.delivery? t (.directory root) v.names = some (job.result v.name v.contents) := by
  rw [delivery?_directory hi.located_directory hv.named, hv.holds, Option.map_some,
    if_pos hv.isClass]
  rfl

/-- A class file of a directory is put below the output, under the names that lead to it. -/
theorem place_puts {v : Visited} (hi : (Input.directory root).Apart t out)
    (hv : v.Current job t root) (h : (place root (some out) v).run t = (.ok (), t')) :
    Puts out (among (job.delivery? t (.directory root)) [v.names]) t t' := by
  refine Puts.among_singleton (delivery?_of_current hi hv) ?_
  unfold place at h
  dsimp only [Option.map_some, Option.getD_some] at h
  rw [result, ← hv.outcome_eq]
  -- a class that is expanded is written, any other copied
  split at h
  · rename_i bytes houtcome
    rw [houtcome]
    exact Files.writeBelow_puts hv.named h
  · rename_i hexpanded
    obtain ⟨contents, hcontents, hputs⟩ :=
      Files.copy_puts hv.named (not_below_output hi hv.named) h
    rw [Tree.destination_pathBelow hv.named, hv.holds] at hcontents
    cases hcontents
    split
    · rename_i bytes houtcome
      exact absurd houtcome (hexpanded bytes)
    · exact hputs
  · rename_i hnone _
    cases hnone

theorem current_of_visit {classes : List (List String)}
    (hclasses : t.classFiles root = .ok classes) (names : List String) (hmem : names ∈ classes)
    (v : Visited) (hv : job.visit t root names = .ok v) :
    v.names = names ∧ v.Current job t root ∧
      t.locate? (pathBelow root v.names) = some (destination root ++ v.names) := by
  obtain ⟨hfile, hclass⟩ := (mem_classFiles hclasses names).1 hmem
  unfold visit at hv
  dsimp only at hv
  split at hv
  · cases hv
  · rename_i contents hcontents
    cases hv
    obtain ⟨hlocated, hholds⟩ := Tree.contents?_eq_some.1 hcontents
    rw [Tree.destination_pathBelow hfile.named] at hlocated hholds
    exact ⟨rfl, ⟨hfile.named, hclass, hholds, rfl⟩, hlocated⟩

/-- The class files of a directory that were looked at. -/
theorem current_of_visits {classes : List (List String)} {visited : List Visited}
    (hclasses : t.classFiles root = .ok classes)
    (hvisits : classes.mapM (job.visit t root) = .ok visited) :
    visited.map (·.names) = classes ∧ ∀ v ∈ visited, v.Current job t root ∧
      t.locate? (pathBelow root v.names) = some (destination root ++ v.names) := by
  have hside := forall₂_of_mapM_eq_ok hvisits (current_of_visit hclasses)
  refine ⟨?_, fun v hv => ?_⟩
  · rw [map_eq_map_of_forall₂ hside fun _ _ h => h.1, List.map_id']
  · obtain ⟨names, -, -, hcurrent⟩ := exists_left_of_forall₂ hside hv
    exact hcurrent

theorem Visited.Current.of_puts {v : Visited} {puts : List String → Option Contents}
    (hi : (Input.directory root).Apart t out) (hputs : Puts out puts t t')
    (hv : v.Current job t root) : v.Current job t' root :=
  ⟨hv.named, hv.isClass, (hputs.contentsAt?_directory hi v.names).trans hv.holds, hv.outcome_eq⟩

/-- Class files of a directory are put below the output one after the other. -/
theorem placeAll_puts {visited : List Visited} (hi : (Input.directory root).Apart t out)
    (hvisited : ∀ v ∈ visited, v.Current job t root)
    (h : (placeAll root (some out) report visited).run t = (.ok report', t')) :
    Puts out (among (job.delivery? t (.directory root)) (visited.map (·.names))) t t' := by
  -- by induction on the class files; the others stay as they were when one is put
  induction visited generalizing t report with
  | nil =>
    obtain ⟨-, rfl⟩ := run_pure_eq_ok.1 h
    exact Puts.among_nil
  | cons v rest ih =>
    obtain ⟨hv, hrest⟩ := List.forall_mem_cons.1 hvisited
    obtain ⟨u, t₁, hplace, h⟩ := run_bind_eq_ok.1 h
    have hputs := place_puts hi hv (RunM.run_onFiles_eq_ok.1 hplace)
    have hputs' := ih (hputs.apart hi) (fun v hmem => (hrest v hmem).of_puts hi hputs) h
    rw [hputs.delivery?_eq job hi] at hputs'
    exact hputs.trans_among hputs'

/-- A file of a directory that holds no class is put below the output as it is. -/
theorem copy_other_puts (job : Job) (hi : (Input.directory root).Apart t out)
    (hfile : t.HasFile root names)
    (hclass : Settings.isClassName (Tree.lastName root names) = false)
    (h : (Files.copy (pathBelow root names) (pathBelow out names)).run t = (.ok (), t')) :
    Puts out (among (job.delivery? t (.directory root)) [names]) t t' := by
  obtain ⟨contents, hcontents, hputs⟩ :=
    Files.copy_puts hfile.named (not_below_output hi hfile.named) h
  refine Puts.among_singleton ?_ hputs
  rw [Tree.destination_pathBelow hfile.named] at hcontents
  rw [delivery?_directory hi.located_directory hfile.named, hcontents, Option.map_some, hclass]
  rfl

/-- Files of a directory that are not among its class files are put below the output, one after the
other. -/
theorem copyAll_puts (job : Job) {all classes : List (List String)}
    (hi : (Input.directory root).Apart t out)
    (hall : ∀ names ∈ all, t.HasFile root names)
    (hclasses : ∀ names ∈ all, names ∉ classes →
      Settings.isClassName (Tree.lastName root names) = false)
    (h : (forIn all PUnit.unit fun names _ => if !classes.contains names then do
          RunM.onFiles (Files.copy (pathBelow root names) (pathBelow out names))
          pure (ForInStep.yield PUnit.unit)
        else pure (ForInStep.yield PUnit.unit) : RunM PUnit).run t = (.ok PUnit.unit, t')) :
    Puts out (among (job.delivery? t (.directory root))
      (all.filter fun names => !classes.contains names)) t t' := by
  induction all generalizing t with
  | nil =>
    obtain ⟨-, rfl⟩ := run_pure_eq_ok.1 h
    exact Puts.among_nil
  | cons names rest ih =>
    obtain ⟨hfile, hrest⟩ := List.forall_mem_cons.1 hall
    obtain ⟨hclass, hothers⟩ := List.forall_mem_cons.1 hclasses
    rw [List.forIn_cons] at h
    obtain ⟨stepped, t₁, hstep, h⟩ := run_bind_eq_ok.1 h
    rw [List.filter_cons]
    cases hmem : classes.contains names with
    | true =>
      -- the file is a class file, which was dealt with before
      rw [hmem] at hstep
      obtain ⟨rfl, rfl⟩ := run_pure_eq_ok.1 hstep
      exact ih hi hrest hothers h
    | false =>
      rw [hmem] at hstep
      obtain ⟨u, t₂, hcopy, hstep⟩ := run_bind_eq_ok.1 hstep
      obtain ⟨rfl, rfl⟩ := run_pure_eq_ok.1 hstep
      have hputs := copy_other_puts job hi hfile (hclass (by simpa using hmem))
        (RunM.run_onFiles_eq_ok.1 hcopy)
      have hputs' := ih (hputs.apart hi)
        (fun names hmem => (hputs.hasFile_iff hi).2 (hrest names hmem)) hothers h
      rw [hputs.delivery?_eq job hi] at hputs'
      exact hputs.trans_among hputs'

/-- The class files of a directory are listed and looked at, then they are placed, and into an
output the other files are copied. -/
theorem directory_eq_ok {output : Option String}
    (h : (job.directory root output report).run t = (.ok report', t')) :
    ∃ classes visited t₁, t.classFiles root = .ok classes ∧
      classes.mapM (job.visit t root) = .ok visited ∧
      (placeAll root output report visited).run t = (.ok report', t₁) ∧
      (output = none → t' = t₁) ∧ ∀ out, output = some out →
        (copyOthers root out (visited.map (·.names))).run t₁ = (.ok (), t') := by
  unfold directory at h
  obtain ⟨visited, t₁, hlooked, hplacing⟩ := run_bind_eq_ok.1 h
  obtain ⟨hvisiting, rfl⟩ := RunM.run_look_eq_ok.1 hlooked
  obtain ⟨classes, hclasses, hvisits⟩ := bind_eq_ok.1 hvisiting
  obtain ⟨report₁, t₂, hplaced, hcopying⟩ := run_bind_eq_ok.1 hplacing
  cases output with
  | none =>
    obtain ⟨rfl, rfl⟩ := run_pure_eq_ok.1 hcopying
    exact ⟨classes, visited, t₂, hclasses, hvisits, hplaced, fun _ => rfl, by simp⟩
  | some out =>
    obtain ⟨u, t₃, hcopied, hreported⟩ := run_bind_eq_ok.1 hcopying
    obtain ⟨rfl, rfl⟩ := run_pure_eq_ok.1 hreported
    refine ⟨classes, visited, t₂, hclasses, hvisits, hplaced, by simp, ?_⟩
    rintro _ ⟨⟩
    exact hcopied

/-- What a directory offers is put below the output. -/
theorem directory_puts (hi : (Input.directory root).Apart t out)
    (h : (job.directory root (some out) report).run t = (.ok report', t')) :
    Puts out (job.delivery? t (.directory root)) t t' := by
  obtain ⟨classes, visited, t₂, hclasses, hvisits, hplaced, -, hcopying⟩ := directory_eq_ok h
  have hcopied := hcopying out rfl
  obtain ⟨hnames, hcurrent⟩ := current_of_visits hclasses hvisits
  have hplacings := placeAll_puts hi (fun v hv => (hcurrent v hv).1) hplaced
  rw [hnames] at hplacings hcopied
  -- the directory is listed again once its class files have been put
  obtain ⟨all, t₄, hlooked', hloops⟩ := run_bind_eq_ok.1 hcopied
  obtain ⟨hall, rfl⟩ := RunM.run_look_eq_ok.1 hlooked'
  obtain ⟨u', t₅, hloop, hlooped⟩ := run_bind_eq_ok.1 hloops
  obtain ⟨-, rfl⟩ := run_pure_eq_ok.1 hlooped
  have hmem := (Tree.mem_below (mapError_eq_ok.1 hall)).2
  have hcopies := copyAll_puts job (hplacings.apart hi) (fun names => (hmem names).1)
    (fun names hin hnot => by
      rw [hmem, hplacings.hasFile_iff hi] at hin
      rw [mem_classFiles hclasses, not_and] at hnot
      exact Bool.eq_false_iff.2 (hnot hin)) hloop
  rw [hplacings.delivery?_eq job hi] at hcopies
  refine (hplacings.trans_among hcopies).of_among fun names hnot => ?_
  -- every file is a class file or was copied
  simp only [List.mem_append, List.mem_filter, List.contains_eq_mem, Bool.not_eq_true',
    decide_eq_false_iff_not, not_or, not_and, not_not] at hnot
  have hnone : names ∉ all := fun hin => hnot.1 (hnot.2 hin)
  rw [hmem, hplacings.hasFile_iff hi] at hnone
  exact Option.not_isSome_iff_eq_none.1 fun hsome =>
    hnone ((isSome_delivery?_directory hi.located_directory).1 hsome)

end Job

end ClassTemplates
