import ClassTemplates.Proofs.Batch.Mirroring
import ClassTemplates.Proofs.Class.Storing
import ClassTemplates.Proofs.Files.Walking

/-!
# Directories that are handled

A run over a directory looks at each class file of it once, in the order of their paths. A class
that is expanded is written, in place or to the output, and every other file keeps what it holds.
The report gains one entry for each class file. Without an output nothing else in the tree changes;
with one the directory itself stays as it is.

## Main definitions

- `Job.Expands` — a class file that is selected and whose class is expanded
- `Report.Gains` — a report with class files added to it
- `Job.Listed` — the class files of a directory, in order

## Main results

- `Job.placeAll_gains` — what is reported of class files
- `Job.placeAll_here` — class files that are written in place
- `Job.handled_of_directory` — what becomes of the files of a directory, and of the report
-/

namespace ClassTemplates

open Job (Visited)

/-! ### Reports -/

/-- The class file as it is listed among those that failed, if it did. -/
def Job.Visited.failure? (v : Visited) : Option FailedClass :=
  match v.outcome with
  | some (.failed cause) => some ⟨v.name, cause⟩
  | _ => none

namespace Report

/-- The number of class files that are reported. -/
def size (r : Report) : Nat :=
  r.expanded.size + r.unchanged + r.skipped + r.failed.size

/-- The second report has class files on top of the first: the names of those that were expanded and
of those that failed, in order, and the numbers of those that are unchanged or left alone. -/
structure Gains (r r' : Report) (visited : List Visited) : Prop where
  expanded : r'.expanded.toList = r.expanded.toList ++
    (visited.filter fun v => v.outcome.any Outcome.isExpanded).map Visited.name
  failed : r'.failed.toList = r.failed.toList ++ visited.filterMap Visited.failure?
  unchanged : r'.unchanged = r.unchanged + visited.countP fun v => v.outcome = some .unchanged
  skipped : r'.skipped = r.skipped + visited.countP fun v => v.outcome = none

variable {r r' : Report} {v : Visited} {visited : List Visited}

theorem Gains.refl : r.Gains r [] :=
  ⟨by simp, by simp, rfl, rfl⟩

/-- One class file more, in front of others. -/
theorem Gains.cons (h : (r.add v.name v.outcome).Gains r' visited) : r.Gains r' (v :: visited) := by
  obtain ⟨hexpanded, hfailed, hunchanged, hskipped⟩ := h
  cases ho : v.outcome with
  | none =>
    rw [ho] at hexpanded hfailed hunchanged hskipped
    constructor <;> simp_all [add, skip, Visited.failure?, Nat.add_assoc, Nat.add_comm 1]
  | some o =>
    rw [ho] at hexpanded hfailed hunchanged hskipped
    cases o <;> constructor <;>
      simp_all [add, record, Visited.failure?, Outcome.isExpanded, Nat.add_assoc, Nat.add_comm 1]

/-- Each class file is reported once. -/
theorem Gains.size_eq (h : r.Gains r' visited) : r'.size = r.size + visited.length := by
  have hcount : (visited.filter fun v => v.outcome.any Outcome.isExpanded).length +
      (visited.countP fun v => v.outcome = some .unchanged) +
      (visited.countP fun v => v.outcome = none) +
      (visited.filterMap Visited.failure?).length = visited.length := by
    clear h
    induction visited with
    | nil => rfl
    | cons v visited ih =>
      rcases ho : v.outcome with _ | _ | _ | cause <;>
        simp [ho, Visited.failure?, Outcome.isExpanded] <;> omega
  have hexpanded := congrArg List.length h.expanded
  have hfailed := congrArg List.length h.failed
  simp only [List.length_append, List.length_map, Array.length_toList] at hexpanded hfailed
  rw [size, size, hexpanded, hfailed, h.unchanged, h.skipped]
  omega

end Report

namespace Job

open ClassTemplates.Tree (destination pathBelow Puts among OnWay AddsOnly)

variable {job : Job} {t t' : Tree} {root out : String} {output : Option String}
  {report report' : Report} {names : List String} {visited : List Visited}

/-- The report gains the class files that are placed. -/
theorem placeAll_gains (h : (placeAll root output report visited).run t = (.ok report', t')) :
    report.Gains report' visited := by
  induction visited generalizing report t with
  | nil =>
    obtain ⟨rfl, -⟩ := run_pure_eq_ok.1 h
    exact .refl
  | cons v rest ih =>
    obtain ⟨u, t₁, -, hrest⟩ := run_bind_eq_ok.1 h
    exact (ih hrest).cons

/-! ### Class files -/

/-- The class file of a directory is selected and its class is expanded to the bytes. -/
structure Expands (job : Job) (root : String) (names : List String) (contents : Contents)
    (bytes : Bytes) : Prop where
  isClass : Settings.isClassName (Tree.lastName root names) = true
  selected : job.settings.selects (String.intercalate "/" names) = true
  expanded : Outcome.ofClass job.catalog job.settings.lookup contents.toBytes = .expanded bytes

/-- What becomes of a file of a directory: the bytes that its class is expanded to, or what it holds
if there are none. -/
theorem exists_delivery? (job : Job) {contents : Contents}
    (hroot : t.locate? root = some (destination root))
    (hnamed : ∀ name ∈ names, Path.IsName name)
    (hholds : t.contentsAt? (destination root ++ names) = some contents) :
    ∃ contents', job.delivery? t (.directory root) names = some contents' ∧
      (∀ bytes, job.Expands root names contents bytes → contents' = .bytes bytes) ∧
      ((∀ bytes, ¬ job.Expands root names contents bytes) → contents' = contents) := by
  rw [delivery?_directory hroot hnamed, hholds, Option.map_some]
  refine ⟨_, rfl, fun bytes hbytes => ?_, fun hnone => ?_⟩
  · have houtcome : job.outcome? (String.intercalate "/" names) contents.toBytes =
        some (.expanded bytes) := by
      rw [outcome?, if_pos hbytes.selected, hbytes.expanded]
    rw [if_pos hbytes.isClass, result, houtcome]
  · split
    · rename_i hclass
      rw [result]
      split
      · rename_i bytes houtcome
        obtain ⟨hselected, hexpanded⟩ := Option.ite_none_right_eq_some.1 houtcome
        exact absurd ⟨hclass, hselected, Option.some.inj hexpanded⟩ (hnone bytes)
      · rfl
    · rfl

/-- The class files of a directory as they were looked at: each file with the name of a class, once,
in the order of the paths. -/
structure Listed (job : Job) (t : Tree) (root : String) (visited : List Visited) : Prop where
  sorted : (visited.map (·.names)).Pairwise (· < ·)
  mem_iff : ∀ names, names ∈ visited.map (·.names) ↔
    t.HasFile root names ∧ Settings.isClassName (Tree.lastName root names) = true
  current : ∀ v ∈ visited, v.Current job t root

theorem sorted_classFiles {classes : List (List String)} (h : t.classFiles root = .ok classes) :
    classes.Pairwise (· < ·) := by
  unfold Tree.classFiles at h
  split at h
  · cases h
  · rename_i all hall
    cases h
    exact (Tree.sorted_below hall).filter _

/-! ### Class files that are written in place -/

section

variable {files : List String → Option Contents}

/-- A class file is put where it was, and no directory is made. -/
theorem place_here {v : Visited} (hv : v.Current job t root)
    (hlocated : t.locate? (pathBelow root v.names) = some (destination root ++ v.names))
    (hfile : files v.names = some (job.result v.name v.contents))
    (h : (place root none v).run t = (.ok (), t')) :
    Puts root (among files [v.names]) t t' ∧ t'.directories = t.directories := by
  unfold place at h
  dsimp only [Option.map_none, Option.getD_none] at h
  rw [result, ← hv.outcome_eq] at hfile
  split at h
  · rename_i bytes houtcome
    rw [houtcome] at hfile
    refine ⟨(Files.writeBelow_puts hv.named h).among_singleton hfile, ?_⟩
    obtain ⟨u, t₁, hparents, hwrite⟩ := run_bind_eq_ok.1 h
    obtain rfl := Files.makeParents_of_locate hlocated hparents
    exact Files.write_adds hwrite
  · rename_i hnone _
    cases hnone
  · rename_i hexpanded
    obtain ⟨-, rfl⟩ := run_pure_eq_ok.1 h
    have hsame : files v.names = some v.contents := by
      rw [hfile]
      split
      · rename_i bytes houtcome
        exact absurd houtcome (hexpanded bytes)
      · rfl
    -- the file that is there is the one to be put
    refine ⟨⟨fun l hl => hl, fun l _ => rfl, fun names => ?_, fun names hsome => ?_⟩, rfl⟩
    · by_cases hmem : names = v.names
      · simp [among, hmem, hsame, hv.holds]
      · simp [among, hmem]
    · by_cases hmem : names = v.names
      · rw [hmem, hlocated]
      · simp [among, hmem] at hsome

/-- Class files are put where they were one after the other. -/
theorem placeAll_here (hdistinct : (visited.map (·.names)).Nodup)
    (hvisited : ∀ v ∈ visited, v.Current job t root ∧
      t.locate? (pathBelow root v.names) = some (destination root ++ v.names))
    (hfiles : ∀ v ∈ visited, files v.names = some (job.result v.name v.contents))
    (h : (placeAll root none report visited).run t = (.ok report', t')) :
    Puts root (among files (visited.map (·.names))) t t' ∧ t'.directories = t.directories := by
  -- by induction on the class files; putting one leaves the later ones as they were
  induction visited generalizing t report with
  | nil =>
    obtain ⟨-, rfl⟩ := run_pure_eq_ok.1 h
    exact ⟨Puts.among_nil, rfl⟩
  | cons v rest ih =>
    rw [List.map_cons, List.nodup_cons] at hdistinct
    obtain ⟨hnew, hdistinct⟩ := hdistinct
    obtain ⟨⟨hv, hlocated⟩, hvisited⟩ := List.forall_mem_cons.1 hvisited
    obtain ⟨hfile, hfiles⟩ := List.forall_mem_cons.1 hfiles
    obtain ⟨u, t₁, hplace, hplaced⟩ := run_bind_eq_ok.1 h
    obtain ⟨hputs, hdirectories⟩ :=
      place_here hv hlocated hfile (RunM.run_onFiles_eq_ok.1 hplace)
    have hlater : ∀ v' ∈ rest, v'.Current job t₁ root ∧
        t₁.locate? (pathBelow root v'.names) = some (destination root ++ v'.names) := by
      intro v' hmem
      obtain ⟨hv', hlocated'⟩ := hvisited v' hmem
      have hother : v'.names ≠ v.names := fun heq => hnew (List.mem_map.2 ⟨v', hmem, heq⟩)
      refine ⟨⟨hv'.named, hv'.isClass, ?_, hv'.outcome_eq⟩,
        Tree.locate?_mono hputs.directories hlocated'⟩
      rw [hputs.below, among, if_neg (by simpa using hother), Option.none_or, hv'.holds]
    obtain ⟨hputs', hdirectories'⟩ := ih hdistinct hlater hfiles hplaced
    exact ⟨hputs.trans_among hputs', hdirectories'.trans hdirectories⟩

end

/-! ### Directories that are made in the output -/

theorem place_adds {v : Visited} (hnames : ∀ name ∈ v.names, Path.IsName name)
    (h : (place root (some out) v).run t = (.ok (), t')) :
    AddsOnly (fun l => OnWay out l ∨ destination out <+: l) t t' := by
  unfold place at h
  dsimp only [Option.map_some, Option.getD_some] at h
  split at h
  · exact (Files.writeBelow_adds h).imp fun l => Tree.onWay_pathBelow hnames
  · exact (Files.copy_adds h).imp fun l => Tree.onWay_pathBelow hnames
  · rename_i hnone _
    cases hnone

theorem placeAll_adds (hnames : ∀ v ∈ visited, ∀ name ∈ v.names, Path.IsName name)
    (h : (placeAll root (some out) report visited).run t = (.ok report', t')) :
    AddsOnly (fun l => OnWay out l ∨ destination out <+: l) t t' := by
  induction visited generalizing t report with
  | nil =>
    obtain ⟨-, rfl⟩ := run_pure_eq_ok.1 h
    exact .refl
  | cons v rest ih =>
    obtain ⟨hname, hnames⟩ := List.forall_mem_cons.1 hnames
    obtain ⟨u, t₁, hplace, hplaced⟩ := run_bind_eq_ok.1 h
    exact (place_adds hname (RunM.run_onFiles_eq_ok.1 hplace)).trans (ih hnames hplaced)

theorem copyOthers_adds {classes : List (List String)}
    (h : (copyOthers root out classes).run t = (.ok (), t')) :
    AddsOnly (fun l => OnWay out l ∨ destination out <+: l) t t' := by
  obtain ⟨all, t₁, hlooked, hloops⟩ := run_bind_eq_ok.1 h
  obtain ⟨hall, rfl⟩ := RunM.run_look_eq_ok.1 hlooked
  obtain ⟨u, t₂, hloop, hlooped⟩ := run_bind_eq_ok.1 hloops
  obtain ⟨-, rfl⟩ := run_pure_eq_ok.1 hlooped
  have hnames : ∀ names ∈ all, ∀ name ∈ names, Path.IsName name := fun names hmem =>
    (((Tree.mem_below (mapError_eq_ok.1 hall)).2 names).1 hmem).named
  clear hall hlooked hloops h
  induction all generalizing t with
  | nil =>
    obtain ⟨-, rfl⟩ := run_pure_eq_ok.1 hloop
    exact .refl
  | cons names rest ih =>
    obtain ⟨hname, hnames⟩ := List.forall_mem_cons.1 hnames
    rw [List.forIn_cons] at hloop
    obtain ⟨stepped, t₂, hstep, hloop⟩ := run_bind_eq_ok.1 hloop
    cases hmem : classes.contains names with
    | true =>
      rw [hmem] at hstep
      obtain ⟨rfl, rfl⟩ := run_pure_eq_ok.1 hstep
      exact ih hloop hnames
    | false =>
      rw [hmem] at hstep
      obtain ⟨u, t₃, hcopy, hstep⟩ := run_bind_eq_ok.1 hstep
      obtain ⟨rfl, rfl⟩ := run_pure_eq_ok.1 hstep
      exact .trans ((Files.copy_adds (RunM.run_onFiles_eq_ok.1 hcopy)).imp fun l =>
        Tree.onWay_pathBelow hname) (ih hloop hnames)

/-! ### Runs over a directory -/

/-- A directory whose class files were listed can be found. -/
theorem located_of_classFiles {classes : List (List String)} (h : t.classFiles root = .ok classes) :
    t.locate? root = some (destination root) := by
  unfold Tree.classFiles at h
  split at h
  · cases h
  · rename_i all hall
    exact (Tree.mem_below hall).1

/-- Without an output the class files of a directory are put where they were. -/
theorem directory_here (h : (job.directory root none report).run t = (.ok report', t')) :
    (∃ classes, t.classFiles root = .ok classes ∧
      Puts root (among (job.delivery? t (.directory root)) classes) t t') ∧
      t'.directories = t.directories := by
  obtain ⟨classes, visited, t₁, hclasses, hvisits, hplaced, hdone, -⟩ := directory_eq_ok h
  obtain rfl := hdone rfl
  obtain ⟨hnames, hcurrent⟩ := current_of_visits hclasses hvisits
  have hdistinct : (visited.map (·.names)).Nodup :=
    hnames ▸ (sorted_classFiles hclasses).imp fun hlt => ne_of_lt hlt
  have hfiles : ∀ v ∈ visited, job.delivery? t (.directory root) v.names =
      some (job.result v.name v.contents) := by
    intro v hv
    obtain ⟨hv, -⟩ := hcurrent v hv
    rw [delivery?_directory (located_of_classFiles hclasses) hv.named, hv.holds, Option.map_some,
      if_pos hv.isClass]
    rfl
  obtain ⟨hputs, hdirectories⟩ := placeAll_here hdistinct hcurrent hfiles hplaced
  exact ⟨⟨classes, hclasses, hnames ▸ hputs⟩, hdirectories⟩

/-- All files of the directory hold what becomes of them. -/
theorem contentsAt?_of_here {classes : List (List String)}
    (hclasses : t.classFiles root = .ok classes) (hnamed : ∀ name ∈ names, Path.IsName name)
    (hputs : Puts root (among (job.delivery? t (.directory root)) classes) t t') :
    t'.contentsAt? (destination root ++ names) = job.delivery? t (.directory root) names := by
  rw [hputs.below, among, delivery?_directory (located_of_classFiles hclasses) hnamed]
  split
  · rename_i hmem
    obtain ⟨hfile, -⟩ := (mem_classFiles hclasses names).1 hmem
    obtain ⟨contents, hholds⟩ := Option.isSome_iff_exists.1 hfile.there
    rw [hholds, Option.map_some, Option.some_or]
  · rename_i hmem
    rw [mem_classFiles hclasses, not_and, Bool.not_eq_true] at hmem
    rw [Option.none_or]
    cases hholds : t.contentsAt? (destination root ++ names) with
    | none => rfl
    | some contents =>
      rw [Option.map_some, hmem ⟨hnamed, Option.isSome_of_eq_some hholds⟩]
      rfl

/-- The class files of a directory are listed, and the report gains them. -/
theorem directory_gains (h : (job.directory root output report).run t = (.ok report', t')) :
    ∃ visited, job.Listed t root visited ∧ report.Gains report' visited := by
  obtain ⟨classes, visited, t₁, hclasses, hvisits, hplaced, -, -⟩ := directory_eq_ok h
  obtain ⟨hnames, hcurrent⟩ := current_of_visits hclasses hvisits
  exact ⟨visited, ⟨hnames ▸ sorted_classFiles hclasses,
    fun names => hnames ▸ mem_classFiles hclasses names, fun v hv => (hcurrent v hv).1⟩,
    placeAll_gains hplaced⟩

/-- For an output no directories are made other than those that its path leads through and those
below it. -/
theorem directory_adds
    (h : (job.directory root (some out) report).run t = (.ok report', t')) :
    AddsOnly (fun l => OnWay out l ∨ destination out <+: l) t t' := by
  obtain ⟨classes, visited, t₁, hclasses, hvisits, hplaced, -, hcopying⟩ := directory_eq_ok h
  obtain ⟨-, hcurrent⟩ := current_of_visits hclasses hvisits
  exact (placeAll_adds (fun v hv => (hcurrent v hv).1.named) hplaced).trans
    (copyOthers_adds (hcopying out rfl))

/-- A run over a directory gives every file of it, where it was or below the output, the bytes that
its class is expanded to, or what it held before if its name is not that of a class file or its
class is not selected, not changed or cannot be expanded. No other file changes. Where there is no
output no directory is made, and where there is one the files and directories below the input stay
as they are. The report gains every class file once, in the order of the paths. -/
theorem handled_of_directory
    (hout : ∀ out, output = some out →
      ¬ destination out <+: destination root ∧ ¬ destination root <+: destination out)
    (h : (job.directory root output report).run t = (.ok report', t')) :
    (∀ names contents, (∀ name ∈ names, Path.IsName name) →
      t.contentsAt? (destination root ++ names) = some contents →
      ∃ contents', t'.contentsAt? (destination (output.getD root) ++ names) = some contents' ∧
        (∀ bytes, job.Expands root names contents bytes → contents' = .bytes bytes) ∧
        ((∀ bytes, ¬ job.Expands root names contents bytes) → contents' = contents)) ∧
      (∀ l, (∀ names, t.HasFile root names → l ≠ destination (output.getD root) ++ names) →
        t'.contentsAt? l = t.contentsAt? l) ∧
      (output = none → t'.directories = t.directories) ∧
      (∀ out, output = some out →
        (∀ l, destination root <+: l → t'.contentsAt? l = t.contentsAt? l ∧
          (¬ OnWay out l → t'.isDirectoryAt l = t.isDirectoryAt l)) ∧
        ∀ names, t.HasFile root names →
          t'.locate? (pathBelow out names) = some (destination out ++ names)) ∧
      ∃ visited, job.Listed t root visited ∧ report.Gains report' visited ∧
        report'.size = report.size + visited.length := by
  obtain ⟨visited, hlisted, hgains⟩ := directory_gains h
  obtain ⟨classes, -, -, hclasses, -⟩ := directory_eq_ok h
  have hroot := located_of_classFiles hclasses
  cases output with
  | none =>
    obtain ⟨⟨classes', hclasses', hputs⟩, hdirectories⟩ := directory_here h
    refine ⟨fun names contents hnamed hholds => ?_, fun l hl => hputs.contentsAt?_elsewhere ?_,
      fun _ => hdirectories, by simp, visited, hlisted, hgains, hgains.size_eq⟩
    · obtain ⟨contents', hcontents', hhandled⟩ := exists_delivery? job hroot hnamed hholds
      exact ⟨contents', (contentsAt?_of_here hclasses' hnamed hputs).trans hcontents', hhandled⟩
    · exact fun names hsome =>
        hl names ((isSome_delivery?_directory hroot).1 (Tree.isSome_of_among hsome))
  | some out =>
    obtain ⟨houtside, hnotBelow⟩ := hout out rfl
    have hi : (Input.directory root).Apart t out :=
      ⟨hroot, houtside, hnotBelow, fun names hoffers => hoffers.2.named⟩
    have hputs := directory_puts hi h
    refine ⟨fun names contents hnamed hholds => ?_, fun l hl => hputs.contentsAt?_elsewhere
      fun names hsome => hl names ((isSome_delivery?_directory hroot).1 hsome), by simp, ?_,
      visited, hlisted, hgains, hgains.size_eq⟩
    · obtain ⟨contents', hcontents', hhandled⟩ := exists_delivery? job hroot hnamed hholds
      refine ⟨contents', ?_, hhandled⟩
      rw [Option.getD_some, hputs.below, hcontents', Option.some_or]
    rintro _ ⟨⟩
    refine ⟨fun l hl => ?_, fun names hfile => ?_⟩
    · have hapart : ¬ destination out <+: l := fun hle =>
        (List.prefix_or_prefix_of_prefix hle hl).elim houtside hnotBelow
      refine ⟨hputs.outside l hapart, fun hway => Bool.eq_iff_iff.2 ⟨fun hmade => ?_,
        hputs.directories l⟩⟩
      exact (directory_adds h l hmade).resolve_right fun hadded =>
        hadded.elim hway hapart
    · exact hputs.located names ((isSome_delivery?_directory hroot).2 hfile)

/-! ### A directory with a class and a text -/

open ClassFile Expansion

/-- A class that can be expanded beside a text. -/
def loopTree : Tree :=
  ⟨[["in"]], [(["in", "A.class"], .bytes loopClass.toBytes), (["in", "notes.txt"], .bytes [0])],
    by decide⟩

/-- Classes are expanded as the class with an initializer that loops is. -/
def loopJob : Job :=
  ⟨loopCatalog, { Settings.standard with lookup := loopLookup }⟩

theorem exists_expands_loop :
    ∃ bytes, loopJob.Expands "in" ["A.class"] (.bytes loopClass.toBytes) bytes := by
  obtain ⟨c, summary, hexpand, -⟩ := exists_expand_loopClass
  have hout : expandBytes loopCatalog loopLookup loopClass.toBytes =
      .ok (some (loopExpanded c).toBytes) :=
    expandBytes_eq_some.2 ⟨_, _, _, ofBytes_loopClass, hexpand, rfl⟩
  refine ⟨(loopExpanded c).toBytes, by decide +kernel, by decide +kernel, ?_⟩
  show Outcome.ofClass loopCatalog loopLookup loopClass.toBytes = _
  rw [Outcome.ofClass, hout]

/-- Where the class is, it is written. -/
theorem directory_loop {bytes : Bytes}
    (h : loopJob.Expands "in" ["A.class"] (.bytes loopClass.toBytes) bytes) :
    (loopJob.directory "in" none .empty).run loopTree =
      (.ok (Report.empty.add "A.class" (some (.expanded bytes))),
        loopTree.setFile ["in", "A.class"] (.bytes bytes)) := by
  have hvisit : loopJob.visit loopTree "in" ["A.class"] =
      .ok ⟨["A.class"], .bytes loopClass.toBytes, some (.expanded bytes)⟩ := by
    have hcontents : loopTree.contents? (pathBelow "in" ["A.class"]) =
        some (.bytes loopClass.toBytes) := by decide +kernel
    rw [visit, hcontents]
    dsimp only
    rw [outcome?, if_pos h.selected, h.expanded]
    rfl
  have hlooked : (RunM.look fun t => do
      let classes ← t.classFiles "in"
      classes.mapM (loopJob.visit t "in")).run loopTree =
        (.ok [⟨["A.class"], .bytes loopClass.toBytes, some (.expanded bytes)⟩], loopTree) := by
    have hbelow : loopTree.below "in" = .ok [["A.class"], ["notes.txt"]] := by
      have hlocate : loopTree.locate? "in" = some ["in"] := by decide +kernel
      rw [Tree.below, hlocate]
      exact congrArg _ (List.mergeSort_of_pairwise (by decide))
    have hclasses : loopTree.classFiles "in" = .ok [["A.class"]] := by
      rw [Tree.classFiles, hbelow]
      have hfilter : [["A.class"], ["notes.txt"]].filter (fun names =>
          Settings.isClassName (Tree.lastName "in" names)) = [["A.class"]] := by decide +kernel
      exact congrArg Except.ok hfilter
    refine RunM.run_look_eq_ok.2 ⟨bind_eq_ok.2 ⟨_, hclasses, ?_⟩, rfl⟩
    rw [List.mapM_cons, hvisit]
    rfl
  have hwritten : (RunM.onFiles (place "in" none ⟨["A.class"], .bytes loopClass.toBytes,
      some (.expanded bytes)⟩)).run loopTree =
        (.ok (), loopTree.setFile ["in", "A.class"] (.bytes bytes)) := by
    have hlocate : loopTree.locate? (pathBelow "in" ["A.class"]) = some ["in", "A.class"] := by
      decide +kernel
    obtain ⟨u, hmade⟩ : ∃ u, ((Files.makeParents (pathBelow "in" ["A.class"])).run loopTree).1 =
        .ok u := exists_of_isOk (by decide +kernel)
    have hparents : (Files.makeParents (pathBelow "in" ["A.class"])).run loopTree =
        (.ok u, loopTree) :=
      Prod.ext hmade (Files.makeParents_of_locate hlocate (Prod.ext hmade rfl))
    refine RunM.run_onFiles_eq_ok.2 ((run_bind_ok hparents).trans ?_)
    show Files.write (pathBelow "in" ["A.class"]) (.bytes bytes) loopTree = _
    rw [Files.write, hlocate]
    rfl
  exact (run_bind_ok hlooked).trans (run_bind_ok (run_bind_ok hwritten))

theorem handled_of_directory_loop :
    ∃ bytes report' t', loopJob.Expands "in" ["A.class"] (.bytes loopClass.toBytes) bytes ∧
      (loopJob.directory "in" none .empty).run loopTree = (.ok report', t') ∧
      t'.contentsAt? ["in", "A.class"] = some (.bytes bytes) ∧
      t'.contentsAt? ["in", "notes.txt"] = some (.bytes [0]) ∧
      t'.directories = [["in"]] ∧ report'.expanded = #["A.class"] := by
  obtain ⟨bytes, hexpands⟩ := exists_expands_loop
  have hin : destination "in" = ["in"] := by decide +kernel
  obtain ⟨hfiles, -, hdirectories, -, -⟩ :=
    handled_of_directory (by simp) (directory_loop hexpands)
  rw [Option.getD_none, hin] at hfiles
  obtain ⟨contents, hclass, hbytes, -⟩ := hfiles ["A.class"] _ (by decide +kernel) rfl
  obtain ⟨contents', htext, -, hsame⟩ := hfiles ["notes.txt"] _ (by decide +kernel) rfl
  have hnone : ∀ bytes, ¬ loopJob.Expands "in" ["notes.txt"] (.bytes [0]) bytes := fun _ h =>
    absurd h.isClass (by decide +kernel)
  rw [hbytes bytes hexpands] at hclass
  rw [hsame hnone] at htext
  exact ⟨bytes, _, _, hexpands, directory_loop hexpands, hclass, htext, hdirectories rfl, rfl⟩

end Job

end ClassTemplates
