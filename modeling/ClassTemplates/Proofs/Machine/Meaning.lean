import ClassTemplates.Proofs.Expansion.Lasting
import ClassTemplates.Proofs.Expansion.Settled
import ClassTemplates.Proofs.Machine.Rendering
import ClassTemplates.Proofs.Machine.Surely

/-!
# What the expansion of a text means

At any point of the use of an expander with its pool, a text is expanded exactly if one of its
tokens has a binding. The code then pushes the text with its bound tokens looked up, whatever the
lookup method returns and whatever is on the stack, and expanding the text again later gives the
same code for nothing.

## Main definitions

- `Insn.Supplied` — an instruction without operands, or one whose index stands for something
- `Expander.Renders` — everything that is known of the code for a text

## Main results

- `Expander.renders_of_builds` — the code that builds the segments of a text
- `Expander.expand_renders` — the expansion of a text
-/

namespace ClassTemplates

/-! ### Indices -/

/-- The instruction takes no index, or the pool has the text, the class or the member that its
index stands for. -/
def Insn.Supplied (p : Pool) : Insn → Prop
  | .op _ => True
  | .ldc index => ∃ text, p.stringValue? index = some text
  | .type _ index => ∃ name, p.className? index = some name
  | .invoke _ index => ∃ m, p.member? index = some m
  | _ => False

section

variable {lookup : LookupMethod} {p : Pool} {m : BuilderMembers} {x : Insn}

theorem Loads.supplied {text : String} (h : Loads p text x) : x.Supplied p := by
  obtain ⟨i, rfl, ht⟩ := h
  exact ⟨text, ht⟩

theorem Pushes.supplied {s : Segment} {xs : List Insn} (hm : m.Resolves lookup p)
    (h : Pushes m p s xs) : ∀ x ∈ xs, x.Supplied p := by
  cases h with
  | literal hx => simpa using hx.supplied
  | unbound hx => simpa using hx.supplied
  | bound hx hy hz =>
    simp only [List.forall_mem_cons]
    exact ⟨hx.supplied, hy.supplied, hz.supplied, ⟨_, hm.lookup⟩, by simp⟩

theorem Appends.supplied {ss : List Segment} {xs : List Insn} (hm : m.Resolves lookup p)
    (h : Appends m p ss xs) : ∀ x ∈ xs, x.Supplied p := by
  induction h with
  | nil => simp
  | cons hs _ ih =>
    rw [List.forall_mem_append, List.forall_mem_cons]
    exact ⟨hs.supplied hm, ⟨_, hm.append⟩, ih⟩

theorem Builds.supplied {ss : List Segment} {code : List Insn} (h : Builds lookup p ss code) :
    ∀ x ∈ code, x.Supplied p := by
  obtain ⟨m, middle, hm, happ, rfl⟩ := h
  simp only [List.forall_mem_append, Expander.start, List.forall_mem_cons]
  exact ⟨⟨⟨⟨_, hm.builder⟩, trivial, ⟨_, hm.init⟩, by simp⟩, happ.supplied hm⟩,
    ⟨_, hm.toText⟩, by simp⟩

end

/-! ### Code for a text -/

namespace Expander

open Machine

/-- The code renders a text, in a pool, on every machine. -/
structure Renders (catalog : Catalog) (lookup : LookupMethod) (p : Pool) (text : String)
    (code : List Insn) : Prop where
  supplied : ∀ x ∈ code, x.Supplied p
  /-- The code pushes the text with its bound tokens looked up, calls the lookup method for each of
  them in order, and makes one builder. It can do so, and it can do nothing else. -/
  pushes : ∀ {α ω : Type} (M : Machine α ω) (m : Memory α ω), ∃ value,
    Token.Replaced (M.replacement catalog) 0 text.toList (Token.findAll text) value ∧
      ((∀ moduleId key fallback, M.lookup moduleId key fallback = fallback) → value = text) ∧
      (∃ m', RunsThrough M lookup p code m m') ∧
      ∀ m', RunsThrough M lookup p code m m' ↔ ∃ r ∉ m.builders, m' =
        ⟨.text value :: m.stack, m.builders.insert r value,
          m.calls ++ (Token.findAll text).filterMap catalog.call?, m.world⟩
  /-- At every point on the way there are no more than four values on top of the stack, the code can
  run on to its end, and it can go nowhere else. -/
  keeps : ∀ {α ω : Type} (M : Machine α ω) (m m₁ : Memory α ω) (front back : List Insn),
    code = front ++ back → RunsThrough M lookup p front m m₁ →
      (∃ above, m₁.stack = above ++ m.stack ∧ above.length ≤ 4) ∧
      (∃ m', RunsThrough M lookup p back m₁ m') ∧
      ∀ x rest o m₂, back = x :: rest → Executes M lookup p x m₁ o m₂ → o = .next
  /-- At one point, which every run comes to, there are four. -/
  peaks : ∀ {α ω : Type} (M : Machine α ω) (m : Memory α ω), ∃ front back, code = front ++ back ∧
    (∃ m₁, RunsThrough M lookup p front m m₁) ∧
      ∀ m₁, RunsThrough M lookup p front m m₁ →
        ∃ above, m₁.stack = above ++ m.stack ∧ above.length = 4

variable {catalog : Catalog} {lookup : LookupMethod} {p : Pool} {text : String} {code : List Insn}
  {e : Expander}

/-- The code that builds the segments of a text, one of them bound, renders the text. -/
theorem renders_of_builds (h : Builds lookup p (Segment.ofText catalog text) code)
    (hb : catalog.bindsAny text = true) : Renders catalog lookup p text code where
  supplied := h.supplied
  pushes {α ω} M m := by
    have hsurely := surely_of_builds (M := M) (m := m) h
    refine ⟨M.valueOf (Segment.ofText catalog text), replaced_ofText text,
      fun hfallback => valueOf_ofText hfallback text, hsurely.exists_run, fun m' => ?_⟩
    rw [← calls_ofText]
    constructor
    · exact fun hrun => hsurely.stop hrun
    · rintro ⟨r, hr, rfl⟩
      exact runsThrough_of_builds h hr
  keeps {α ω} M m m₁ front back hcode hrun := by
    have hsurely := surely_of_builds (M := M) (m := m) h
    rw [hcode] at hsurely
    have hrest := hsurely.of_runsThrough hrun
    refine ⟨hrest.start, hrest.exists_run, ?_⟩
    rintro x rest o m₂ rfl hx
    exact (hrest.2.2.2 o m₂ hx).1
  peaks {α ω} M m := by
    obtain ⟨front, back, hcode, hsurely⟩ := exists_peak_of_builds (M := M) (m := m) h hb
    exact ⟨front, back, hcode, hsurely.exists_run, fun m₁ => hsurely.stop⟩

/-- In the course of a use of an expander with its pool, a text without a bound token is left alone.
A text with one gets code that renders it, in the pool that has grown, and it gets the same code
again at every later point, without any addition to the pool. -/
theorem expand_renders (he : Used catalog lookup (ofPool .empty) e) (text : String) :
    (∀ e', (expand catalog lookup text).run e = (.ok none, e') ↔
      (∀ t ∈ Token.findAll text, catalog.resolve? t.raw = none) ∧ e' = e) ∧
    ∀ code e', (expand catalog lookup text).run e = (.ok (some code), e') →
      e.pool ≤ e'.pool ∧ Renders catalog lookup e'.pool text code ∧
      ∀ later, Used catalog lookup e' later →
        ∃ again, (expand catalog lookup text).run later = (.ok (some code), again) ∧
          again.pool = later.pool := by
  have hready : e.Ready lookup := he.onward.ready (ready_ofPool (Nat.zero_le _))
  have hbinds : catalog.bindsAny text = false ↔
      ∀ t ∈ Token.findAll text, catalog.resolve? t.raw = none := by
    rw [Bool.eq_false_iff, ne_eq, Catalog.bindsAny_iff]
    simp
  refine ⟨fun e' => ?_, fun code e' h => ?_⟩
  · rw [← hbinds]
    constructor
    · intro h
      obtain ⟨-, -, ⟨hb, -, rfl⟩ | ⟨-, _, hcode, -⟩⟩ := expand_eq_ok hready h
      · exact ⟨hb, rfl⟩
      · cases hcode
    · rintro ⟨hb, rfl⟩
      exact expand_of_not_bindsAny hb
  · obtain ⟨hg, -, ⟨-, hcode, -⟩ | ⟨hb, _, hcode, hbuilds⟩⟩ := expand_eq_ok hready h
    · cases hcode
    · cases hcode
      refine ⟨hg.le, renders_of_builds hbuilds hb, fun later hlater => ?_⟩
      obtain ⟨again, hagain, hback⟩ := (expand_lasting text).again h hlater.onward
      exact ⟨again, hagain, Pool.le_antisymm hback.pool.le (expand_onward hagain).pool.le⟩

theorem expand_renders_adjacent :
    ∃ e code e', Used ⟨#[⟨"app", "key", "\x60BuildConfig#m#v\x60"⟩]⟩ ⟨"Config", "get"⟩
        (ofPool .empty) e ∧
      code.length = 15 ∧ Renders ⟨#[⟨"app", "key", "\x60BuildConfig#m#v\x60"⟩]⟩ ⟨"Config", "get"⟩
        (pool e') "x=\x60BuildConfig#m#v\x60\x60BuildConfig#n#w\x60;" code ∧
      ∃ again, (expand ⟨#[⟨"app", "key", "\x60BuildConfig#m#v\x60"⟩]⟩ ⟨"Config", "get"⟩
        "x=\x60BuildConfig#m#v\x60\x60BuildConfig#n#w\x60;").run e' = (.ok (some code), again) ∧
        again.pool = e'.pool := by
  have hused : Used ⟨#[⟨"app", "key", "\x60BuildConfig#m#v\x60"⟩]⟩ ⟨"Config", "get"⟩
      (ofPool .empty) ((onPool (Pool.push (.utf8 "x="))).run (ofPool .empty)).2 :=
    .pushed (c := .utf8 "x=") (.refl _) rfl
  have hok : ((expand ⟨#[⟨"app", "key", "\x60BuildConfig#m#v\x60"⟩]⟩ ⟨"Config", "get"⟩
      "x=\x60BuildConfig#m#v\x60\x60BuildConfig#n#w\x60;").run
      ((onPool (Pool.push (.utf8 "x="))).run (ofPool .empty)).2).1.map
        (·.map List.length) = .ok (some 15) := by
    decide +kernel
  obtain ⟨code?, e', h, hlength⟩ := exists_of_map_eq_ok hok
  obtain ⟨code, rfl, hcode⟩ := Option.map_eq_some_iff.1 hlength
  obtain ⟨-, hrenders, hagain⟩ := (expand_renders hused _).2 code e' h
  exact ⟨_, code, e', hused, hcode, hrenders, hagain e' (.refl e')⟩

end Expander

end ClassTemplates
