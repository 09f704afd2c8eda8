import ClassTemplates.Proofs.Batch.Delivering
import ClassTemplates.Proofs.Batch.Directories

/-!
# Archives that are handled

A run over an archive looks at each class file in it once, in the order of the entries. The archive
that is written has the same entries under the same names; an entry that is selected and whose class
is expanded holds the new bytes, and every other file in it what it held. The report gains one entry
for each class file. Where it is an archive is left untouched if no class in it is expanded.

## Main definitions

- `Job.ExpandsEntry` — an entry that is selected and whose class is expanded
- `Job.Carries` — an entry and what is written for it
- `Job.Visited.ofEntry` — a class file of an archive, as it is reported

## Main results

- `Job.carries_resultEntry` — what is written for an entry
- `Job.archive_gains` — what is reported of the entries
- `Job.handled_of_archiveFile` — what becomes of an archive, and of the report
-/

namespace ClassTemplates

namespace Job

open ClassTemplates.Tree (destination pathBelow OnWay AddsOnly)

variable {job : Job} {t t' : Tree} {path : String} {output : Option String}
  {report report' : Report} {entry : ArchiveEntry} {entries : List ArchiveEntry}

/-! ### Entries -/

/-- The entry is a class file that is selected, and its class is expanded to the bytes. -/
structure ExpandsEntry (job : Job) (entry : ArchiveEntry) (bytes : Bytes) : Prop where
  notDirectory : entry.isDirectory = false
  isClass : Settings.isClassName entry.name = true
  selected : job.settings.selects entry.name = true
  expanded : Outcome.ofClass job.catalog job.settings.lookup entry.bytes = .expanded bytes

/-- The second entry is what is written for the first: it has its name, and unless it only names a
directory it is kept in the same way and holds the bytes that its class is expanded to, or what it
held. What is stored stays stored. -/
structure Carries (job : Job) (entry written : ArchiveEntry) : Prop where
  name : written.name = entry.name
  stored : entry.compression = .stored → written.compression = .stored
  compression : entry.isDirectory = false → written.compression = entry.compression
  expanded : ∀ bytes, job.ExpandsEntry entry bytes → written.bytes = bytes
  same : entry.isDirectory = false → (∀ bytes, ¬ job.ExpandsEntry entry bytes) →
    written.bytes = entry.bytes

theorem isClassEntry_eq_true : isClassEntry entry = true ↔
    entry.isDirectory = false ∧ Settings.isClassName entry.name = true := by
  rw [isClassEntry, isClassEntryName, Bool.and_eq_true, Bool.not_eq_true']
  rfl

/-- A class file is expanded if that is its outcome. -/
theorem expandsEntry_iff {bytes : Bytes} : job.ExpandsEntry entry bytes ↔
    isClassEntry entry = true ∧
      job.outcome? entry.name entry.bytes = some (.expanded bytes) := by
  rw [isClassEntry_eq_true, outcome?, Option.ite_none_right_eq_some]
  constructor
  · rintro ⟨hfile, hclass, hselected, hexpanded⟩
    exact ⟨⟨hfile, hclass⟩, hselected, congrArg some hexpanded⟩
  · rintro ⟨⟨hfile, hclass⟩, hselected, hexpanded⟩
    exact ⟨hfile, hclass, hselected, Option.some.inj hexpanded⟩

/-- An entry is written as what it is carried to. -/
theorem carries_resultEntry : job.Carries entry (job.resultEntry entry).1 := by
  rw [resultEntry]
  by_cases hclass : isClassEntry entry = true
  · rw [if_pos hclass]
    refine ⟨rfl, fun hstored => hstored, fun _ => rfl, fun bytes hbytes => ?_, fun _ hnone => ?_⟩
    · show ((job.outcome? entry.name entry.bytes).map fun o => o.result entry.bytes).getD _ = _
      rw [(expandsEntry_iff.1 hbytes).2]
      rfl
    · show ((job.outcome? entry.name entry.bytes).map fun o => o.result entry.bytes).getD _ = _
      cases houtcome : job.outcome? entry.name entry.bytes with
      | none => rfl
      | some o =>
        cases o with
        | expanded bytes => exact absurd (expandsEntry_iff.2 ⟨hclass, houtcome⟩) (hnone bytes)
        | unchanged | failed => rfl
  · rw [if_neg hclass]
    have hnone (bytes : Bytes) : ¬ job.ExpandsEntry entry bytes := fun h =>
      hclass (expandsEntry_iff.1 h).1
    show job.Carries entry entry.written
    rw [ArchiveEntry.written]
    by_cases hdirectory : entry.isDirectory = true
    · rw [if_pos hdirectory]
      have habsurd : ¬ entry.isDirectory = false := by simp [hdirectory]
      exact ⟨rfl, fun _ => rfl, fun hfile => absurd hfile habsurd,
        fun bytes hbytes => absurd hbytes (hnone bytes), fun hfile => absurd hfile habsurd⟩
    · rw [if_neg hdirectory]
      exact ⟨rfl, fun hstored => hstored, fun _ => rfl,
        fun bytes hbytes => absurd hbytes (hnone bytes), fun _ _ => rfl⟩

theorem archive_carries : List.Forall₂ job.Carries entries (job.archive entries report).1 := by
  show List.Forall₂ job.Carries entries ((entries.map job.resultEntry).map (·.1))
  rw [List.map_map, List.forall₂_map_right_iff, List.forall₂_same]
  exact fun entry _ => carries_resultEntry

/-- An archive has changed if a class in it is expanded. -/
theorem archive_changed : (job.archive entries report).2.2 = true ↔
    ∃ entry ∈ entries, ∃ bytes, job.ExpandsEntry entry bytes := by
  simp only [archive, List.any_map, List.any_eq_true, Function.comp_apply, expandsEntry_iff]
  refine exists_congr fun entry => and_congr_right fun _ => ?_
  rw [resultEntry]
  by_cases hclass : isClassEntry entry = true
  · rw [if_pos hclass]
    rcases job.outcome? entry.name entry.bytes with _ | _ | _ | _ <;>
      simp [hclass, Outcome.isExpanded]
  · rw [if_neg hclass]
    simp [hclass]

/-! ### What is reported -/

/-- The entry as the class file that is reported, under its whole name. -/
def Visited.ofEntry (job : Job) (entry : ArchiveEntry) : Visited :=
  ⟨[entry.name], .bytes entry.bytes, job.outcome? entry.name entry.bytes⟩

theorem Visited.name_ofEntry : (Visited.ofEntry job entry).name = entry.name :=
  rfl

/-- The report gains the class files of an archive, in the order of the entries. -/
theorem archive_gains : report.Gains (job.archive entries report).2.1
    ((entries.filter isClassEntry).map (Visited.ofEntry job)) := by
  show report.Gains ((entries.map job.resultEntry).foldl (fun r x => addEntry r x.1 x.2) report) _
  induction entries generalizing report with
  | nil => exact .refl
  | cons entry entries ih =>
    rw [List.map_cons, List.foldl_cons, resultEntry]
    by_cases hclass : isClassEntry entry = true
    · rw [if_pos hclass, List.filter_cons_of_pos hclass, List.map_cons]
      exact .cons ih
    · rw [if_neg hclass, List.filter_cons_of_neg hclass]
      exact ih

/-! ### Runs over an archive -/

/-- Where an archive is written. -/
def archiveTarget (path : String) (output : Option String) : String :=
  (output.map fun out => Path.join out (Path.fileName path)).getD path

/-- An archive is opened, and what is made of it is reported. It stays where nothing in it changes
and it has no other place to go. -/
theorem archiveFile_eq_ok
    (h : (job.archiveFile path output report).run t = (.ok report', t')) :
    ∃ contents entries, t.contents? path = some contents ∧ contents.entries = .ok entries ∧
      report' = (job.archive entries report).2.1 ∧
      (output = none ∧ (job.archive entries report).2.2 = false ∧ t' = t ∨
        (output = none → (job.archive entries report).2.2 = true) ∧
          ∃ u, (Files.writeBelow (archiveTarget path output)
            (.archive (job.archive entries report).1)).run t = (.ok u, t')) := by
  obtain ⟨entries, t₁, hentries, hwriting⟩ := run_bind_eq_ok.1 h
  obtain ⟨contents, hcontents, hopened, rfl⟩ := entriesOf_eq_ok hentries
  refine ⟨contents, entries, hcontents, hopened, ?_⟩
  dsimp only at hwriting
  split at hwriting
  · rename_i hstays
    obtain ⟨rfl, rfl⟩ := run_pure_eq_ok.1 hwriting
    obtain ⟨hnone, hchanged⟩ := Bool.and_eq_true_iff.1 hstays
    exact ⟨rfl, .inl ⟨Option.isNone_iff_eq_none.1 hnone, by simpa using hchanged, rfl⟩⟩
  · rename_i hwrites
    obtain ⟨u, t₂, hwritten, hreported⟩ := run_bind_eq_ok.1 hwriting
    obtain ⟨rfl, rfl⟩ := run_pure_eq_ok.1 hreported
    refine ⟨rfl, .inr ⟨fun hnone => ?_, u, RunM.run_onFiles_eq_ok.1 hwritten⟩⟩
    simpa [hnone] using hwrites

/-- A file that is written below a path changes, and no other one. -/
theorem puts_of_writeBelow {target : String} {contents : Contents} {u : Unit}
    (h : (Files.writeBelow target contents).run t = (.ok u, t')) :
    t'.contents? target = some contents ∧
      (∀ l, l ≠ destination target → t'.contentsAt? l = t.contentsAt? l) ∧
      AddsOnly (OnWay target) t t' := by
  -- the file is put below its own path, where no names lead to it
  have hnamed : ∀ name ∈ ([] : List String), Path.IsName name := by simp
  have hwritten : (Files.writeBelow (pathBelow target []) contents).run t = (.ok u, t') := h
  have hputs := Files.writeBelow_puts hnamed hwritten
  refine ⟨hputs.contents? (if_pos rfl), fun l hl => ?_, Files.writeBelow_adds hwritten⟩
  refine hputs.contentsAt?_elsewhere fun names hsome heq => hl ?_
  by_cases hnames : names = []
  · rw [heq, hnames, List.append_nil]
  · rw [if_neg hnames] at hsome
    cases hsome

/-- The archive is written unless it stays where it is and none of its classes is expanded. Each
entry is written as what it is carried to, and no other file changes. The report gains each class
file once. -/
theorem handled_of_archiveFile
    (h : (job.archiveFile path output report).run t = (.ok report', t')) :
    ∃ contents entries, t.contents? path = some contents ∧ contents.entries = .ok entries ∧
      (output = none → (∀ entry ∈ entries, ∀ bytes, ¬ job.ExpandsEntry entry bytes) → t' = t) ∧
      (output ≠ none ∨ (∃ entry ∈ entries, ∃ bytes, job.ExpandsEntry entry bytes) →
        ∃ written, t'.contents? (archiveTarget path output) = some (.archive written) ∧
          List.Forall₂ job.Carries entries written ∧
          (∀ l, l ≠ destination (archiveTarget path output) →
            t'.contentsAt? l = t.contentsAt? l) ∧
          AddsOnly (OnWay (archiveTarget path output)) t t') ∧
      report.Gains report' ((entries.filter isClassEntry).map (Visited.ofEntry job)) ∧
      report'.size = report.size + entries.countP fun entry =>
        !entry.isDirectory && Settings.isClassName entry.name := by
  obtain ⟨contents, entries, hcontents, hopened, rfl, hcases⟩ := archiveFile_eq_ok h
  have hgains : report.Gains (job.archive entries report).2.1
      ((entries.filter isClassEntry).map (Visited.ofEntry job)) := archive_gains
  have hsize := hgains.size_eq
  rw [List.length_map, ← List.countP_eq_length_filter] at hsize
  refine ⟨contents, entries, hcontents, hopened, ?_, ?_, hgains, hsize⟩
  · intro hnone hunchanged
    rcases hcases with ⟨-, -, hsame⟩ | ⟨hchanged, -⟩
    · exact hsame
    · obtain ⟨entry, hentry, bytes, hbytes⟩ := archive_changed.1 (hchanged hnone)
      exact absurd hbytes (hunchanged entry hentry bytes)
  · intro hwrites
    rcases hcases with ⟨hnone, hunchanged, -⟩ | ⟨-, u, hwritten⟩
    · rcases hwrites with hsome | hexpands
      · exact absurd hnone hsome
      · rw [archive_changed.2 hexpands] at hunchanged
        cases hunchanged
    · obtain ⟨hholds, helsewhere, hadds⟩ := puts_of_writeBelow hwritten
      exact ⟨_, hholds, archive_carries, helsewhere, hadds⟩

/-! ### An archive with a class and a text -/

/-- A class that can be expanded, as an entry of an archive. -/
def loopEntry : ArchiveEntry :=
  ⟨"lib/A.class", .stored, ClassFile.loopClass.toBytes⟩

/-- The class in a directory and beside a text. -/
def loopEntries : List ArchiveEntry :=
  [⟨"lib/", .stored, []⟩, loopEntry, ⟨"notes.txt", .deflated, [0]⟩]

/-- The archive with the class, and no other file. -/
def archiveTree : Tree :=
  ⟨[], [(["in.jar"], .archive loopEntries)], by decide⟩

theorem exists_expandsEntry_loop : ∃ bytes, loopJob.ExpandsEntry loopEntry bytes := by
  obtain ⟨bytes, hexpands⟩ := exists_expands_loop
  exact ⟨bytes, by decide +kernel, by decide +kernel, by decide +kernel, hexpands.expanded⟩

/-- Where the archive is, it is written. -/
theorem archiveFile_loop {bytes : Bytes} (h : loopJob.ExpandsEntry loopEntry bytes) :
    (loopJob.archiveFile "in.jar" none .empty).run archiveTree =
      (.ok (loopJob.archive loopEntries .empty).2.1,
        archiveTree.setFile ["in.jar"] (.archive (loopJob.archive loopEntries .empty).1)) := by
  have hentries : (entriesOf "in.jar").run archiveTree = (.ok loopEntries, archiveTree) := by
    have hcontents : archiveTree.contents? "in.jar" = some (.archive loopEntries) := by
      decide +kernel
    have hread : (RunM.onFiles (Files.read "in.jar")).run archiveTree =
        (.ok (.archive loopEntries), archiveTree) := by
      refine RunM.run_onFiles_eq_ok.2 ?_
      show Files.read "in.jar" archiveTree = _
      rw [Files.read, hcontents]
    exact (run_bind_ok hread).trans rfl
  have hwritten : (RunM.onFiles (Files.writeBelow "in.jar"
      (.archive (loopJob.archive loopEntries .empty).1))).run archiveTree =
        (.ok (), archiveTree.setFile ["in.jar"]
          (.archive (loopJob.archive loopEntries .empty).1)) := by
    have hlocate : archiveTree.locate? "in.jar" = some ["in.jar"] := by decide +kernel
    obtain ⟨u, hmade⟩ : ∃ u, ((Files.makeParents "in.jar").run archiveTree).1 = .ok u :=
      exists_of_isOk (by decide +kernel)
    have hparents : (Files.makeParents "in.jar").run archiveTree = (.ok u, archiveTree) :=
      Prod.ext hmade (Files.makeParents_of_locate hlocate (Prod.ext hmade rfl))
    refine RunM.run_onFiles_eq_ok.2 ((run_bind_ok hparents).trans ?_)
    show Files.write "in.jar" _ archiveTree = _
    rw [Files.write, hlocate]
    rfl
  have hchanged : (loopJob.archive loopEntries .empty).2.2 = true :=
    archive_changed.2 ⟨_, by simp [loopEntries], bytes, h⟩
  refine (run_bind_ok hentries).trans ?_
  dsimp only
  rw [hchanged, Bool.not_true, Bool.and_false, if_neg Bool.false_ne_true]
  exact run_bind_ok hwritten

theorem handled_of_archiveFile_loop :
    ∃ bytes report' t' folder cls text, loopJob.ExpandsEntry loopEntry bytes ∧
      (loopJob.archiveFile "in.jar" none .empty).run archiveTree = (.ok report', t') ∧
      t'.contents? "in.jar" = some (.archive [folder, cls, text]) ∧
      cls.name = "lib/A.class" ∧ cls.compression = .stored ∧ cls.bytes = bytes ∧
      text.name = "notes.txt" ∧ text.bytes = [0] ∧
      report'.size = 1 ∧ report'.expanded.toList = ["lib/A.class"] := by
  obtain ⟨bytes, hexpands⟩ := exists_expandsEntry_loop
  obtain ⟨contents, entries, hcontents, hopened, -, hwritten, hgains, hsize⟩ :=
    handled_of_archiveFile (archiveFile_loop hexpands)
  obtain rfl : entries = loopEntries := by
    have hin : archiveTree.contents? "in.jar" = some (.archive loopEntries) := by decide +kernel
    cases hin.symm.trans hcontents
    exact (Except.ok.inj hopened).symm
  have hmem : loopEntry ∈ loopEntries := by simp [loopEntries]
  obtain ⟨written, harchive, hcarries, -, -⟩ := hwritten (.inr ⟨_, hmem, bytes, hexpands⟩)
  cases hcarries with | cons hfolder hrest =>
  cases hrest with | cons hcls hrest =>
  cases hrest with | cons htext hrest =>
  cases hrest
  have hclasses : loopEntries.filter isClassEntry = [loopEntry] := by decide +kernel
  have hnone (bytes : Bytes) : ¬ loopJob.ExpandsEntry ⟨"notes.txt", .deflated, [0]⟩ bytes :=
    fun h => absurd h.isClass (by decide +kernel)
  refine ⟨bytes, _, _, _, _, _, hexpands, archiveFile_loop hexpands, harchive, hcls.name,
    hcls.stored rfl, hcls.expanded bytes hexpands, htext.name, htext.same (by decide +kernel) hnone,
    ?_, ?_⟩
  · rw [hsize, List.countP_eq_length_filter]
    exact congrArg (0 + List.length ·) hclasses
  · have hexpanded : (Visited.ofEntry loopJob loopEntry).outcome.any Outcome.isExpanded = true := by
      rw [Visited.ofEntry, (expandsEntry_iff.1 hexpands).2]
      rfl
    rw [hgains.expanded, hclasses, List.map_singleton, List.filter_cons, if_pos hexpanded,
      List.filter_nil, List.map_singleton, Visited.name_ofEntry]
    rfl

end Job

end ClassTemplates
