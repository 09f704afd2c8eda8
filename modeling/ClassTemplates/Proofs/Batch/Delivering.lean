import ClassTemplates.Proofs.Batch.Mirroring

/-!
# What a run puts into its output

A run with an output directory puts what becomes of its inputs below that directory, one input after
the other. Nothing keeps two inputs from offering files under the same names. Then what becomes of
the last one is there, and the run succeeds all the same.

## Main definitions

- `Job.deliveries?` — what becomes of the files that inputs offer under names

## Main results

- `Job.archiveFile_puts`, `Job.classFile_puts` — what is put for archives and single class files
- `Job.inputs_puts` — what is put for inputs one after the other
- `Job.delivered_of_run` — what an input offers is in the output unless a later one offers it too
-/

namespace ClassTemplates

namespace Job

open ClassTemplates.Tree (destination pathBelow Puts)

variable {job : Job} {t t' : Tree} {path out : String} {report report' : Report}
  {names : List String}

/-! ### Archives and class files -/

/-- The entries of an archive are those of the file that is read, and reading it changes nothing. -/
theorem entriesOf_eq_ok {entries : List ArchiveEntry}
    (h : (entriesOf path).run t = (.ok entries, t')) :
    ∃ contents, t.contents? path = some contents ∧ contents.entries = .ok entries ∧ t = t' := by
  obtain ⟨contents, t₁, hread, hreading⟩ := run_bind_eq_ok.1 h
  obtain ⟨hcontents, rfl⟩ := Files.read_eq_ok (RunM.run_onFiles_eq_ok.1 hread)
  refine ⟨contents, hcontents, ?_⟩
  split at hreading
  · rename_i entries' hentries'
    obtain ⟨rfl, rfl⟩ := run_pure_eq_ok.1 hreading
    exact ⟨hentries', rfl⟩
  · cases hreading

/-- An archive is put below the output under its name, with the classes in it expanded. -/
theorem archiveFile_puts (hi : (Input.archive path).Apart t out)
    (h : (job.archiveFile path (some out) report).run t = (.ok report', t')) :
    Puts out (job.delivery? t (.archive path)) t t' ∧
      (job.delivery? t (.archive path) [Path.fileName path]).isSome = true := by
  obtain ⟨entries, t₁, hentries, hwriting⟩ := run_bind_eq_ok.1 h
  obtain ⟨contents, hcontents, hopened, rfl⟩ := entriesOf_eq_ok hentries
  obtain ⟨u, t₃, hwritten, hreported⟩ := run_bind_eq_ok.1 hwriting
  obtain ⟨-, rfl⟩ := run_pure_eq_ok.1 hreported
  have hputs := Files.writeBelow_puts (hi.named _ rfl) (RunM.run_onFiles_eq_ok.1 hwritten)
  have hdelivered : job.delivery? t (.archive path) [Path.fileName path] =
      some (.archive (job.archive entries report).1) := by
    simp [delivery?, hcontents, hopened, archive, Except.toOption]
  refine ⟨(hputs.among_singleton hdelivered).of_among fun names hnot => ?_,
    Option.isSome_of_eq_some hdelivered⟩
  simp [delivery?, List.mem_singleton.not.1 hnot]

/-- A selected class file holds the result of its outcome. -/
theorem result_of_selects {name : String} {bytes : Bytes}
    (h : job.settings.selects name = true) : job.result name (.bytes bytes) =
      .bytes ((Outcome.ofClass job.catalog job.settings.lookup bytes).result bytes) := by
  have houtcome : job.outcome? name (Contents.bytes bytes).toBytes =
      some (Outcome.ofClass job.catalog job.settings.lookup bytes) := if_pos h
  rw [result, houtcome]
  cases Outcome.ofClass job.catalog job.settings.lookup bytes <;> rfl

/-- A single class file is put below the output under its name. -/
theorem classFile_puts (hi : (Input.classFile path).Apart t out)
    (h : (job.classFile path (some out) report).run t = (.ok report', t')) :
    Puts out (job.delivery? t (.classFile path)) t t' ∧
      (job.delivery? t (.classFile path) [Path.fileName path]).isSome = true := by
  have hnames := hi.named _ rfl
  suffices ∃ contents, job.delivery? t (.classFile path) [Path.fileName path] = some contents ∧
      Puts out (fun names => if names = [Path.fileName path] then some contents else none) t t' by
    obtain ⟨contents, hdelivered, hputs⟩ := this
    refine ⟨(hputs.among_singleton hdelivered).of_among fun names hnot => ?_,
      Option.isSome_of_eq_some hdelivered⟩
    simp [delivery?, List.mem_singleton.not.1 hnot]
  -- a selected class file is written anew, one that is not selected is copied
  unfold classFile at h
  dsimp only at h
  split at h
  · rename_i hselected
    obtain ⟨contents, t₁, hread, hwriting⟩ := run_bind_eq_ok.1 h
    obtain ⟨hcontents, rfl⟩ := Files.read_eq_ok (RunM.run_onFiles_eq_ok.1 hread)
    refine ⟨job.result (Path.fileName path) (.bytes contents.toBytes), ?_, ?_⟩
    · simp [delivery?, hcontents, hselected]
    rw [result_of_selects hselected]
    cases houtcome : Outcome.ofClass job.catalog job.settings.lookup contents.toBytes <;>
    · rw [houtcome] at hwriting
      obtain ⟨u, t₂, hwritten, hreported⟩ := run_bind_eq_ok.1 hwriting
      obtain ⟨-, rfl⟩ := run_pure_eq_ok.1 hreported
      exact Files.writeBelow_puts hnames (RunM.run_onFiles_eq_ok.1 hwritten)
  · rename_i hselected
    obtain ⟨u, t₁, hcopied, hskipped⟩ := run_bind_eq_ok.1 h
    obtain ⟨-, rfl⟩ := run_pure_eq_ok.1 hskipped
    obtain ⟨contents, hcontents, hputs⟩ :=
      Files.copy_puts hnames hi.outside (RunM.run_onFiles_eq_ok.1 hcopied)
    refine ⟨contents, ?_, hputs⟩
    have hheld := Tree.contents?_eq_some.2 ⟨hi.located, hcontents⟩
    change t.contents? path = _ at hheld
    simp [delivery?, hheld, hselected]

/-! ### Runs -/

variable {input : Input} {inputs : List Input}

/-- What an input offers is put below the output. -/
theorem input_puts (hi : input.Apart t out)
    (h : (job.input (some out) report input).run t = (.ok report', t')) :
    Puts out (job.delivery? t input) t t' ∧
      ∀ names, input.Offers t names → (job.delivery? t input names).isSome = true := by
  unfold Job.input at h
  cases input with
  | directory root =>
    refine ⟨directory_puts hi h, fun names hoffers => ?_⟩
    exact (isSome_delivery?_directory hi.located_directory).2 hoffers.2
  | archive path =>
    obtain ⟨hputs, hsome⟩ := archiveFile_puts hi h
    refine ⟨hputs, fun names hoffers => ?_⟩
    rw [show names = [Path.fileName path] from hoffers]
    exact hsome
  | classFile path =>
    obtain ⟨hputs, hsome⟩ := classFile_puts hi h
    refine ⟨hputs, fun names hoffers => ?_⟩
    rw [show names = [Path.fileName path] from hoffers]
    exact hsome

/-- Only what an input offers is delivered. -/
theorem offers_of_delivery? (hi : input.Apart t out)
    (h : (job.delivery? t input names).isSome = true) : input.Offers t names := by
  cases input with
  | directory root =>
    exact ⟨hi.located, (isSome_delivery?_directory hi.located_directory).1 h⟩
  | archive path | classFile path =>
    rw [delivery?] at h
    split at h
    · rename_i hname
      exact hname
    · cases h

/-- What becomes of the files that inputs offer under names, if they are put somewhere one after the
other: what the last of them delivers. -/
def deliveries? (job : Job) (t : Tree) : List Input → List String → Option Contents
  | [], _ => none
  | input :: rest, names => (deliveries? job t rest names).or (job.delivery? t input names)

theorem deliveries?_congr
    (h : ∀ input ∈ inputs, job.delivery? t' input = job.delivery? t input) :
    job.deliveries? t' inputs = job.deliveries? t inputs := by
  induction inputs with
  | nil => rfl
  | cons input rest ih =>
    obtain ⟨hinput, hrest⟩ := List.forall_mem_cons.1 h
    funext names
    rw [deliveries?, deliveries?, ih hrest, hinput]

theorem deliveries?_eq_none (h : ∀ input ∈ inputs, job.delivery? t input names = none) :
    job.deliveries? t inputs names = none := by
  induction inputs with
  | nil => rfl
  | cons input rest ih =>
    obtain ⟨hinput, hrest⟩ := List.forall_mem_cons.1 h
    rw [deliveries?, ih hrest, hinput]
    rfl

/-- Of what inputs deliver under names, there stays what has nothing delivered after it. -/
theorem deliveries?_append_cons {front later : List Input} {contents : Contents}
    (hlater : ∀ other ∈ later, job.delivery? t other names = none)
    (h : job.delivery? t input names = some contents) :
    job.deliveries? t (front ++ input :: later) names = some contents := by
  induction front with
  | nil =>
    rw [List.nil_append, deliveries?, deliveries?_eq_none hlater, h]
    rfl
  | cons earlier front ih =>
    rw [List.cons_append, deliveries?, ih]
    rfl

/-- What inputs offer is put below the output one after the other, so that of the files for the same
names the last one stays. -/
theorem inputs_puts (hinputs : ∀ input ∈ inputs, input.Apart t out)
    (h : (inputs.foldlM (job.input (some out)) report).run t = (.ok report', t')) :
    Puts out (job.deliveries? t inputs) t t' ∧ ∀ input ∈ inputs, ∀ names,
      input.Offers t names → (job.delivery? t input names).isSome = true := by
  induction inputs generalizing t report with
  | nil =>
    obtain ⟨-, rfl⟩ := run_pure_eq_ok.1 h
    exact ⟨Puts.refl, by simp⟩
  | cons input inputs ih =>
    obtain ⟨hi, hrest⟩ := List.forall_mem_cons.1 hinputs
    rw [List.foldlM_cons] at h
    obtain ⟨report₁, t₁, hfirst, hlater⟩ := run_bind_eq_ok.1 h
    obtain ⟨hputs, hdelivered⟩ := input_puts hi hfirst
    obtain ⟨hputs', hdelivered'⟩ := ih (fun other hmem => hputs.apart (hrest other hmem)) hlater
    -- what is put for one input changes nothing for those that follow
    have hsame : ∀ other ∈ inputs, job.delivery? t₁ other = job.delivery? t other :=
      fun other hmem => hputs.delivery?_eq job (hrest other hmem)
    rw [deliveries?_congr hsame] at hputs'
    refine ⟨hputs.trans hputs', List.forall_mem_cons.2 ⟨hdelivered, ?_⟩⟩
    intro other hmem names hoffers
    rw [← hsame other hmem]
    exact hdelivered' other hmem names ((hputs.offers_iff (hrest other hmem)).2 hoffers)

/-- A run into an output that lies apart from its inputs changes nothing elsewhere, and nothing in
the output under names that no input offers. What an input offers is in the output as it has become,
unless a later input offers a file under the same names. -/
theorem delivered_of_run {lists : List String} (hresolve : Input.resolve t lists = .ok inputs)
    (hout : ∀ input ∈ inputs, ¬ destination out <+: destination input.path ∧
      ¬ destination input.path <+: destination out)
    (h : (job.run inputs (some out)).run t = (.ok report, t')) :
    (∀ l, ¬ destination out <+: l → t'.contentsAt? l = t.contentsAt? l) ∧
      (∀ names, (∀ input ∈ inputs, ¬ input.Offers t names) →
        t'.contentsAt? (destination out ++ names) = t.contentsAt? (destination out ++ names)) ∧
      ∀ front input later names, inputs = front ++ input :: later → input.Offers t names →
        (∀ other ∈ later, ¬ other.Offers t names) →
        ∃ contents, job.delivery? t input names = some contents ∧
          t'.contents? (pathBelow out names) = some contents := by
  -- the inputs were resolved in this very tree, so each of them can be found
  have hapart : ∀ input ∈ inputs, input.Apart t out := by
    intro input hmem
    obtain ⟨path, -, hpath⟩ := exists_left_of_forall₂ (mapM_eq_ok.1 hresolve) hmem
    obtain ⟨houtside, hnotBelow⟩ := hout input hmem
    exact Input.apart_of_ofPath hpath houtside hnotBelow
  have hnone : ∀ input ∈ inputs, ∀ names, ¬ input.Offers t names →
      job.delivery? t input names = none := fun input hmem names hoffers =>
    Option.not_isSome_iff_eq_none.1 fun hsome =>
      hoffers (offers_of_delivery? (hapart input hmem) hsome)
  obtain ⟨hputs, hdelivered⟩ := inputs_puts hapart h
  refine ⟨hputs.outside, fun names hoffers => ?_, ?_⟩
  · rw [hputs.below, deliveries?_eq_none fun input hmem =>
      hnone input hmem names (hoffers input hmem)]
    rfl
  · rintro front input later names rfl hoffers hlater
    obtain ⟨contents, hcontents⟩ :=
      Option.isSome_iff_exists.1 (hdelivered input (by simp) names hoffers)
    refine ⟨contents, hcontents, hputs.contents? (deliveries?_append_cons ?_ hcontents)⟩
    exact fun other hmem => hnone other (by simp [hmem]) names (hlater other hmem)

/-- Two class files of one name in different directories. -/
def twoOfOneName : Tree :=
  ⟨[["a"], ["b"]], [(["a", "X.class"], .bytes [0]), (["b", "X.class"], .bytes [1])], by decide⟩

theorem delivered_of_run_twoOfOneName :
    ∃ inputs report t', Input.resolve twoOfOneName ["a", "b/X.class"] = .ok inputs ∧
      (run ⟨.empty, .standard⟩ inputs (some "out")).run twoOfOneName = (.ok report, t') ∧
      delivery? ⟨.empty, .standard⟩ twoOfOneName (.directory "a") ["X.class"] =
        some (.bytes [0]) ∧
      t'.contents? (pathBelow "out" ["X.class"]) = some (.bytes [1]) := by
  have hresolve : Input.resolve twoOfOneName ["a", "b/X.class"] =
      .ok [.directory "a", .classFile "b/X.class"] := by decide +kernel
  obtain ⟨⟨result, t'⟩, h⟩ : ∃ outcome, (run ⟨.empty, .standard⟩ [.directory "a",
      .classFile "b/X.class"] (some "out")).run twoOfOneName = outcome := ⟨_, rfl⟩
  have hok : ((run ⟨.empty, .standard⟩ [.directory "a", .classFile "b/X.class"]
      (some "out")).run twoOfOneName).1.isOk = true := by decide +kernel
  rw [h] at hok
  obtain ⟨report, rfl⟩ := exists_of_isOk hok
  obtain ⟨-, -, hdelivered⟩ := delivered_of_run hresolve (by decide +kernel) h
  obtain ⟨contents, hcontents, hholds⟩ :=
    hdelivered [.directory "a"] (.classFile "b/X.class") [] ["X.class"] rfl
      (show ["X.class"] = [Path.fileName "b/X.class"] by decide +kernel) (by simp)
  have hsecond : delivery? ⟨.empty, .standard⟩ twoOfOneName (.classFile "b/X.class") ["X.class"] =
      some (.bytes [1]) := by decide +kernel
  exact ⟨_, report, t', hresolve, h, by decide +kernel,
    hholds.trans (hcontents.symm.trans hsecond)⟩

end Job

end ClassTemplates
