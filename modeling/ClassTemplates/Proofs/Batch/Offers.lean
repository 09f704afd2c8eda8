import ClassTemplates.Batch.Run
import ClassTemplates.Proofs.Files.Putting

/-!
# What inputs have for the output

Every input offers files under names: a directory those below it, an archive and a single class file
the one under its own name. What becomes of such a file depends only on what the input holds, which
stays as it is while files are put into an output that lies apart from it.

## Main definitions

- `Input.Offers` — the names under which an input has a file for the output
- `Job.delivery?` — what becomes of the file that an input offers under names
- `Input.Apart` — an input that can be found, neither inside nor above the output

## Main results

- `Tree.Puts.apart`, `Tree.Puts.offers_iff`, `Tree.Puts.delivery?_eq` — putting files into the
  output changes nothing for the inputs
- `Input.apart_of_ofPath` — the inputs that paths stand for can be found
-/

namespace ClassTemplates

/-! ### Inputs -/

namespace Input

/-- The path of an input. -/
def path : Input → String
  | directory path | archive path | classFile path => path

/-- The input has a file for the output under the names: a directory every file below it, an archive
and a single class file the one under its own name. -/
def Offers (t : Tree) : Input → List String → Prop
  | directory root, names =>
    t.locate? root = some (Tree.destination root) ∧ t.HasFile root names
  | archive path, names | classFile path, names => names = [Path.fileName path]

end Input

namespace Job

/-- What a class file holds once it has been offered for expansion under a name. -/
def result (job : Job) (name : String) (contents : Contents) : Contents :=
  match job.outcome? name contents.toBytes with
  | some (.expanded bytes) => .bytes bytes
  | _ => contents

/-- What becomes of the file that an input offers under the names: the bytes of a class that is
expanded, an archive with the classes in it expanded, and what the file held in all other cases. -/
def delivery? (job : Job) (t : Tree) : Input → List String → Option Contents
  | .directory root, names =>
    if ∀ name ∈ names, Path.IsName name then do
      let l ← t.locate? root
      let contents ← t.contentsAt? (l ++ names)
      pure (if Settings.isClassName (Tree.lastName root names) then
        job.result (String.intercalate "/" names) contents else contents)
    else none
  | .archive path, names =>
    if names = [Path.fileName path] then do
      let contents ← t.contents? path
      let entries ← contents.entries.toOption
      pure (.archive (entries.map fun entry => (job.resultEntry entry).1))
    else none
  | .classFile path, names =>
    if names = [Path.fileName path] then do
      let contents ← t.contents? path
      let name := Path.fileName path
      pure (if job.settings.selects name then
        job.result name (.bytes contents.toBytes) else contents)
    else none

end Job

/-! ### An output apart from the inputs -/

/-- The input is found in the tree, the output is neither inside nor above it nor the same, and what
it offers has names that files can have. -/
structure Input.Apart (t : Tree) (out : String) (input : Input) : Prop where
  located : t.locate? input.path = some (Tree.destination input.path)
  outside : ¬ Tree.destination out <+: Tree.destination input.path
  notBelow : ¬ Tree.destination input.path <+: Tree.destination out
  named : ∀ names, input.Offers t names → ∀ name ∈ names, Path.IsName name

section

variable {t : Tree} {root out : String} {names : List String}

theorem Input.Apart.located_directory (h : (directory root).Apart t out) :
    t.locate? root = some (Tree.destination root) :=
  h.located

theorem Input.offers_directory_iff (h : t.locate? root = some (Tree.destination root)) :
    (directory root).Offers t names ↔ t.HasFile root names :=
  and_iff_right h

theorem Job.delivery?_directory {job : Job} (h : t.locate? root = some (Tree.destination root))
    (hnamed : ∀ name ∈ names, Path.IsName name) :
    job.delivery? t (.directory root) names =
      (t.contentsAt? (Tree.destination root ++ names)).map fun contents =>
        if Settings.isClassName (Tree.lastName root names) then
          job.result (String.intercalate "/" names) contents else contents := by
  rw [Job.delivery?, if_pos hnamed, h, Option.map_eq_bind]
  rfl

/-- A directory delivers what it has. -/
theorem Job.isSome_delivery?_directory {job : Job}
    (h : t.locate? root = some (Tree.destination root)) :
    (job.delivery? t (.directory root) names).isSome = true ↔ t.HasFile root names := by
  by_cases hnamed : ∀ name ∈ names, Path.IsName name
  · rw [Job.delivery?_directory h hnamed, Option.isSome_map]
    exact ⟨fun hthere => ⟨hnamed, hthere⟩, fun hfile => hfile.there⟩
  · rw [Job.delivery?, if_neg hnamed]
    exact ⟨fun hsome => absurd hsome Bool.false_ne_true, fun hfile => absurd hfile.named hnamed⟩

end

namespace Tree

variable {t t' : Tree} {out root : String} {puts : List String → Option Contents} {input : Input}
  {names : List String}

theorem Puts.contentsAt?_apart (h : Puts out puts t t') (hi : input.Apart t out)
    (names : List String) : t'.contentsAt? (destination input.path ++ names) =
      t.contentsAt? (destination input.path ++ names) :=
  h.contentsAt?_append hi.outside hi.notBelow names

theorem Puts.contentsAt?_directory (h : Puts out puts t t')
    (hi : (Input.directory root).Apart t out) (names : List String) :
    t'.contentsAt? (destination root ++ names) = t.contentsAt? (destination root ++ names) :=
  h.contentsAt?_apart hi names

theorem Puts.locate?_apart (h : Puts out puts t t') (hi : input.Apart t out) :
    t'.locate? input.path = t.locate? input.path := by
  rw [hi.located, locate?_mono h.directories hi.located]

theorem Puts.locate?_directory (h : Puts out puts t t') (hi : (Input.directory root).Apart t out) :
    t'.locate? root = some (destination root) :=
  (h.locate?_apart hi).trans hi.located_directory

theorem Puts.contents?_apart (h : Puts out puts t t') (hi : input.Apart t out) :
    t'.contents? input.path = t.contents? input.path := by
  have hsame := h.contentsAt?_apart hi []
  rw [List.append_nil] at hsame
  rw [Tree.contents?, h.locate?_apart hi, hi.located, Option.bind_some, hsame, Tree.contents?,
    hi.located, Option.bind_some]

theorem Puts.hasFile_iff (h : Puts out puts t t') (hi : (Input.directory root).Apart t out) :
    t'.HasFile root names ↔ t.HasFile root names := by
  have hsame := h.contentsAt?_directory hi names
  exact ⟨fun hfile => ⟨hfile.named, hsame ▸ hfile.there⟩,
    fun hfile => ⟨hfile.named, hsame ▸ hfile.there⟩⟩

/-- What an input offers does not change while files are put into the output. -/
theorem Puts.offers_iff (h : Puts out puts t t') (hi : input.Apart t out) :
    input.Offers t' names ↔ input.Offers t names := by
  -- only what a directory offers depends on the tree
  cases input with
  | directory root =>
    rw [Input.offers_directory_iff hi.located_directory,
      Input.offers_directory_iff (h.locate?_directory hi), h.hasFile_iff hi]
  | archive | classFile => rfl

theorem Puts.apart (h : Puts out puts t t') (hi : input.Apart t out) : input.Apart t' out :=
  ⟨(h.locate?_apart hi).trans hi.located, hi.outside, hi.notBelow, fun names hoffers =>
    hi.named names ((h.offers_iff hi).1 hoffers)⟩

/-- What becomes of it does not change either. -/
theorem Puts.delivery?_eq (job : Job) (h : Puts out puts t t') (hi : input.Apart t out) :
    job.delivery? t' input = job.delivery? t input := by
  funext names
  have hcontents := h.contents?_apart hi
  cases input with
  | directory root =>
    simp only [Job.delivery?, hi.located_directory, h.locate?_directory hi, Option.bind_eq_bind,
      Option.bind_some, h.contentsAt?_directory hi]
  | archive path | classFile path =>
    change t'.contents? path = t.contents? path at hcontents
    simp only [Job.delivery?, hcontents]

end Tree

/-! ### Inputs that paths stand for -/

namespace Input

open ClassTemplates.Tree (destination)

variable {t : Tree} {path out : String} {input : Input}

/-- An archive and a single class file have a name. -/
theorem isName_of_ofFile (h : ofFile path = .ok input) :
    Path.IsName (Path.fileName path) ∧ (input = .archive path ∨ input = .classFile path) := by
  unfold ofFile at h
  cases hextension : Path.extension? path with
  | none =>
    rw [hextension] at h
    cases h
  | some extension =>
    rw [Path.extension?, Option.bind_eq_some_iff] at hextension
    obtain ⟨name, hname, -⟩ := hextension
    rw [Path.fileName, hname]
    refine ⟨Path.isName_of_fileName? hname, ?_⟩
    split at h
    all_goals cases h
    all_goals simp

/-- The inputs that paths stand for can be found. -/
theorem apart_of_ofPath (h : ofPath t path = .ok input)
    (hout : ¬ destination out <+: destination input.path)
    (hbelow : ¬ destination input.path <+: destination out) : input.Apart t out := by
  -- a path that is a directory or a file can be followed
  unfold ofPath at h
  split at h
  · rename_i hdirectory
    cases h
    have hlocated : t.locate? path = some (destination path) := by
      unfold Tree.isDirectory at hdirectory
      split at hdirectory
      · rename_i l hl
        rw [hl, Tree.eq_destination hl]
      · cases hdirectory
    exact ⟨hlocated, hout, hbelow, fun names hoffers => hoffers.2.named⟩
  split at h
  · rename_i hfile
    obtain ⟨contents, hcontents⟩ := Option.isSome_iff_exists.1 hfile
    obtain ⟨hname, rfl | rfl⟩ := isName_of_ofFile h
    all_goals
      refine ⟨(Tree.contents?_eq_some.1 hcontents).1, hout, hbelow, ?_⟩
      rintro names rfl
      simpa using hname
  · cases h

end Input

end ClassTemplates
