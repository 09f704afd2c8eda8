import ClassTemplates.Proofs.Class.Replacing
import ClassTemplates.Proofs.Class.Storing
import ClassTemplates.Scan

/-!
# The texts that are listed

The texts with tokens of a class are listed without regard to the tokens that are bound, to the
calls that loads feed, and to repeated type initializers. So whatever an expansion replaces or
defers has been listed, with the member and the offset at which it was, and a class without listed
texts is never expanded.

## Main definitions

- `ClassFile.HoldsText` — a text at one of the places that are looked at

## Main results

- `ClassFile.mem_findings_iff` — the texts that are listed
- `ClassFile.listed_of_expandBytes` — what an expansion touches is listed
-/

namespace ClassTemplates

namespace Finding

variable {pool : Pool} {f m : Member} {index : UInt16} {offset : Nat} {insn : Insn} {x : Finding}
  {text : String}

theorem textAt?_eq_some :
    textAt? pool index = some text ↔ pool.stringValue? index = some text ∧ Token.occursIn text :=
  Option.filter_eq_some_iff

theorem ofField?_eq_some : ofField? pool f = some x ↔
    ∃ i text, f.constantIndex? = some i ∧ pool.stringValue? i = some text ∧ Token.occursIn text ∧
      ⟨(pool.utf8? f.name).getD "?" ++ ":" ++ (pool.utf8? f.descriptor).getD "?", none, text⟩ =
        x := by
  simp [ofField?, Option.bind_eq_some_iff, textAt?_eq_some, and_assoc]

theorem ofInsn?_eq_some : ofInsn? pool m offset insn = some x ↔
    ∃ i text, insn = .ldc i ∧ pool.stringValue? i = some text ∧ Token.occursIn text ∧
      ⟨pool.signature m, some offset, text⟩ = x := by
  cases insn with
  | ldc index => simp [ofInsn?, Option.bind_eq_some_iff, textAt?_eq_some, and_assoc]
  | _ => simp [ofInsn?]

theorem ofArgument?_eq_some : ofArgument? pool index = some x ↔
    ∃ text, pool.stringValue? index = some text ∧ Token.occursIn text ∧
      ⟨bootstrapMember, none, text⟩ = x := by
  simp [ofArgument?, Option.bind_eq_some_iff, textAt?_eq_some, and_assoc]

/-- The tokens of a text that holds one. -/
theorem tokens_ne_nil (h : Token.occursIn x.text = true) : x.tokens ≠ [] := by
  simpa [tokens, Token.occursIn] using h

end Finding

namespace ClassFile

open Expansion

/-- A text at one of the places of a class that are looked at: it is the constant of a field, or
some code loads it, or it is an argument of a bootstrap method. -/
inductive HoldsText (cls : ClassFile) : Finding → Prop
  | field {f : Member} {i : UInt16} {text : String} : f ∈ cls.fields →
      f.constantIndex? = some i → cls.pool.stringValue? i = some text →
      cls.HoldsText ⟨(cls.pool.utf8? f.name).getD "?" ++ ":" ++
        (cls.pool.utf8? f.descriptor).getD "?", none, text⟩
  | load {m : Member} {c : Code} {decoded : List (Nat × Insn)} {offset : Nat} {i : UInt16}
      {text : String} : m ∈ cls.methods → m.code? = some c →
      Insn.decode c.bytes = .ok decoded → (offset, .ldc i) ∈ decoded →
      cls.pool.stringValue? i = some text → cls.HoldsText ⟨cls.pool.signature m, some offset, text⟩
  | argument {i : UInt16} {text : String} : i ∈ cls.bootstrapIndices →
      cls.pool.stringValue? i = some text → cls.HoldsText ⟨Finding.bootstrapMember, none, text⟩

variable {catalog : Catalog} {lookup : LookupMethod} {cls cls' : ClassFile}
  {summary : ExpansionSummary} {m m' : Member} {x : Finding} {xs findings : List Finding}
  {bytes : Bytes} {name : String}

/-- In a class whose pool holds no token there is no text with one. -/
theorem HoldsText.not_occursIn (h : cls.HoldsText x) (hpool : cls.pool.hasToken = false) :
    Token.occursIn x.text = false := by
  cases h with
  | field _ _ ht => exact not_occursIn_of_not_hasToken hpool ht
  | load _ _ _ _ ht => exact not_occursIn_of_not_hasToken hpool ht
  | argument _ ht => exact not_occursIn_of_not_hasToken hpool ht

/-- The texts that are listed for a method are those that its code loads. -/
theorem mem_ofMethod_iff (h : Finding.ofMethod cls.pool m = .ok xs) :
    x ∈ xs ↔ ∃ c decoded offset i text, m.code? = some c ∧ Insn.decode c.bytes = .ok decoded ∧
      (offset, .ldc i) ∈ decoded ∧ cls.pool.stringValue? i = some text ∧ Token.occursIn text ∧
      ⟨cls.pool.signature m, some offset, text⟩ = x := by
  unfold Finding.ofMethod at h
  split at h
  · rename_i hc
    cases h
    simp [hc]
  · rename_i c hc
    obtain ⟨decoded, hd, h⟩ := bind_eq_ok.1 h
    cases h
    simp only [List.mem_filterMap, Finding.ofInsn?_eq_some]
    constructor
    · rintro ⟨⟨offset, insn⟩, hmem, i, text, rfl, ht, hocc, hx⟩
      exact ⟨c, decoded, offset, i, text, hc, hd, hmem, ht, hocc, hx⟩
    · rintro ⟨c', decoded', offset, i, text, hc', hd', hmem, ht, hocc, hx⟩
      cases hc.symm.trans hc'
      cases hd.symm.trans hd'
      exact ⟨(offset, .ldc i), hmem, i, text, rfl, ht, hocc, hx⟩

/-- The texts that are listed are those with a token at the places that are looked at. -/
theorem mem_findings_iff (h : cls.findings = .ok findings) :
    x ∈ findings ↔ cls.HoldsText x ∧ Token.occursIn x.text = true := by
  unfold ClassFile.findings at h
  split at h
  · obtain ⟨lists, hlists, h⟩ := bind_eq_ok.1 h
    cases h
    have hall := mapM_eq_ok.1 hlists
    simp only [List.mem_append, List.mem_filterMap, List.mem_flatten, Finding.ofField?_eq_some,
      Finding.ofArgument?_eq_some]
    constructor
    · rintro ((⟨f, hf, i, text, hi, ht, hocc, rfl⟩ | ⟨xs, hxs, hx⟩) | ⟨i, hi, text, ht, hocc, rfl⟩)
      · exact ⟨.field hf hi ht, hocc⟩
      · obtain ⟨m, hm, hxs⟩ := exists_left_of_forall₂ hall hxs
        obtain ⟨c, decoded, offset, i, text, hc, hd, hmem, ht, hocc, rfl⟩ :=
          (mem_ofMethod_iff hxs).1 hx
        exact ⟨.load hm hc hd hmem ht, hocc⟩
      · exact ⟨.argument hi ht, hocc⟩
    · rintro ⟨hx, hocc⟩
      cases hx with
      | field hf hi ht => exact .inl (.inl ⟨_, hf, _, _, hi, ht, hocc, rfl⟩)
      | load hm hc hd hmem ht =>
        obtain ⟨xs, hxs, hmethod⟩ := exists_mem_of_mapM_eq_ok hlists hm
        exact .inl (.inr ⟨xs, hxs, (mem_ofMethod_iff hmethod).2
          ⟨_, _, _, _, _, hc, hd, hmem, ht, hocc, rfl⟩⟩)
      | argument hi ht => exact .inr ⟨_, hi, _, ht, hocc, rfl⟩
  · -- a pool without tokens is not looked at any further
    rename_i hpool
    cases h
    refine iff_of_false List.not_mem_nil fun ⟨hx, hocc⟩ => ?_
    rw [hx.not_occursIn (Bool.eq_false_iff.2 hpool)] at hocc
    cases hocc

/-! ### What an expansion touches -/

/-- A text with a bound token is listed wherever it is looked for. -/
theorem HoldsText.mem_findings (h : cls.HoldsText x) (hfindings : cls.findings = .ok findings)
    (hbound : catalog.bindsAny x.text = true) : x ∈ findings := by
  refine (mem_findings_iff hfindings).2 ⟨h, ?_⟩
  by_contra hocc
  rw [Catalog.bindsAny_eq_false_of_not_occursIn (Bool.eq_false_iff.2 hocc)] at hbound
  cases hbound

/-- A load that was replaced is listed, with the offset that it had. -/
theorem mem_findings_of_replacedLoad {q : Pool} {zs : List (Nat × Splice)} {z : Nat × Splice}
    {text : String} (hfindings : cls.findings = .ok findings) (hm : m ∈ cls.methods)
    (hspliced : m.Spliced m' zs) (hz : z ∈ zs)
    (hload : ReplacedLoad catalog lookup cls.pool q z.2 text) :
    ⟨cls.pool.signature m, some z.1, text⟩ ∈ findings := by
  obtain ⟨c, decoded, hc, hd, hmem⟩ := hspliced.mem_decoded hz
  obtain ⟨i, hi, ht⟩ := hload.load
  rw [hi] at hmem
  exact (HoldsText.load hm hc hd hmem ht).mem_findings hfindings hload.bound

/-- A constant that is deferred is listed, with the name and the descriptor of its field. -/
theorem mem_findings_of_defers {f : Member} {c : DeferredConstant}
    (hfindings : cls.findings = .ok findings) (hf : f ∈ cls.fields)
    (hd : Defers catalog cls.pool f c) :
    ⟨c.field ++ ":" ++ Initializer.stringDescriptor, none, c.text⟩ ∈ findings := by
  obtain ⟨i, hi, ht⟩ := hd.text.value
  have hmem := (HoldsText.field hf hi ht).mem_findings hfindings hd.text.bound
  rwa [hd.field, hd.text.descriptor] at hmem

/-- An expanded class had texts that are listed. -/
theorem findings_ne_nil (hcls : cls.Closed) (hfindings : cls.findings = .ok findings)
    (h : cls.expand catalog lookup = .ok (.expanded cls' summary)) : findings ≠ [] := by
  obtain ⟨he, _, -, ⟨s⟩⟩ := nonempty_run h
  obtain ⟨_, -, hpass⟩ := exists_ofNamed h
  rcases Nat.add_pos_iff_pos_or_pos.1 (work_pos he hcls hpass) with hloads | hdeferred
  · obtain ⟨zss, hsum, hspliced⟩ := s.exists_splices he hcls
    rw [hsum, List.sum_pos_iff_exists_pos_nat] at hloads
    obtain ⟨n, hn, hpos⟩ := hloads
    obtain ⟨k, hk, rfl⟩ := List.mem_map.1 hn
    have hget := List.getElem?_eq_getElem (List.mem_range.1 hk)
    obtain ⟨m', -, hm, htexts⟩ := hspliced k _ hget
    obtain ⟨z, hz, hcode⟩ := Splice.exists_of_replaced_pos hpos
    obtain ⟨text, htext⟩ := htexts z hz hcode
    exact List.ne_nil_of_mem
      (mem_findings_of_replacedLoad hfindings (List.mem_of_getElem? hget) hm hz htext)
  · rw [s.summary_eq] at hdeferred
    obtain ⟨c, hc⟩ := List.exists_mem_of_length_pos hdeferred
    obtain ⟨f, hf, hd⟩ := exists_left_of_forall₂ (deferFields_spec s.defers).2 hc
    exact List.ne_nil_of_mem (mem_findings_of_defers hfindings (List.mem_filter.1 hf).1 hd)

/-- Whatever an expansion of the bytes of a class touches has been listed, if the indices of the
class lie inside of its pool. A class without listed texts is not expanded. The loads that an
expansion replaces, which are as many as the summary tells of, are listed with the name and the
descriptor of their method, the offset that they had and their text. The constants that it defers
are listed with the name and the descriptor of their field, and without an offset. Each text is
listed with its tokens in order, of which it has at least one. -/
theorem listed_of_expandBytes (hbytes : ofBytes bytes = .ok cls) (hcls : cls.Closed)
    (hscan : Scan.ofBytes bytes = .ok (name, findings)) :
    (findings = [] → ∀ out, expandBytes catalog lookup bytes ≠ .ok (some out)) ∧
    (∀ out, expandBytes catalog lookup bytes = .ok (some out) → ∃ cls' summary,
      cls.expand catalog lookup = .ok (.expanded cls' summary) ∧ out = cls'.toBytes ∧
      (∃ zss : Nat → List (Nat × Splice),
        summary.loads = ((List.range cls.methods.length).map fun k =>
          (Splice.replaced ((zss k).map (·.2))).length).sum ∧
        ∀ (k : Nat) (m : Member), cls.methods[k]? = some m → ∃ m', cls'.methods[k]? = some m' ∧
          m.Spliced m' (zss k) ∧ ∀ z ∈ zss k, z.2.code ≠ none →
            ∃ text, ReplacedLoad catalog lookup cls.pool cls'.pool z.2 text ∧
              ⟨cls.pool.signature m, some z.1, text⟩ ∈ findings) ∧
      ∃ cs, cs.length = summary.deferred ∧
        List.Forall₂ (Defers catalog cls.pool)
          (cls.fields.filter fun f => (templateOf? catalog cls.pool f).isSome) cs ∧
        ∀ c ∈ cs, ⟨c.field ++ ":" ++ Initializer.stringDescriptor, none, c.text⟩ ∈ findings) ∧
    ∀ x ∈ findings, x.tokens = (Token.findAll x.text).map (·.raw) ∧ x.tokens ≠ [] := by
  obtain ⟨cls₀, hread, hscan⟩ := bind_eq_ok.1 hscan
  cases hbytes.symm.trans hread
  obtain ⟨findings₀, hfindings, hpair⟩ := bind_eq_ok.1 hscan
  cases hpair
  have hexpanded : ∀ out, expandBytes catalog lookup bytes = .ok (some out) → ∃ cls' summary,
      cls.expand catalog lookup = .ok (.expanded cls' summary) ∧ out = cls'.toBytes := by
    intro out hout
    obtain ⟨cls₀, cls', summary, hread, hexpand, rfl⟩ := expandBytes_eq_some.1 hout
    cases hbytes.symm.trans hread
    exact ⟨cls', summary, hexpand, rfl⟩
  refine ⟨fun hnil out hout => ?_, fun out hout => ?_, fun x hx => ⟨rfl, ?_⟩⟩
  · obtain ⟨cls', summary, hexpand, -⟩ := hexpanded out hout
    exact findings_ne_nil hcls hfindings hexpand hnil
  · obtain ⟨cls', summary, hexpand, hbytes'⟩ := hexpanded out hout
    obtain ⟨he, _, -, ⟨s⟩⟩ := nonempty_run hexpand
    obtain ⟨zss, hsum, hspliced⟩ := s.exists_splices he hcls
    have hdefers := (deferFields_spec s.defers).2
    refine ⟨cls', summary, hexpand, hbytes', ⟨zss, hsum, fun k m hk => ?_⟩, s.cs, ?_, hdefers,
      fun c hc => ?_⟩
    · obtain ⟨m', hget, hm, htexts⟩ := hspliced k m hk
      refine ⟨m', hget, hm, fun z hz hcode => ?_⟩
      obtain ⟨text, htext⟩ := htexts z hz hcode
      exact ⟨text, htext,
        mem_findings_of_replacedLoad hfindings (List.mem_of_getElem? hk) hm hz htext⟩
    · exact (congrArg ExpansionSummary.deferred s.summary_eq).symm
    · obtain ⟨f, hf, hd⟩ := exists_left_of_forall₂ hdefers hc
      exact mem_findings_of_defers hfindings (List.mem_filter.1 hf).1 hd
  · exact Finding.tokens_ne_nil ((mem_findings_iff hfindings).1 hx).2

/-! ### The class with a constant and a load -/

theorem loadingClass_closed : loadingClass.Closed := by
  have hloop := loopClass_closed
  refine ⟨hloop.pool, hloop.fields,
    List.forall_mem_singleton.2 (hloop.methods loopInitializer List.mem_cons_self),
    List.forall_mem_singleton.2 ?_⟩
  rintro c ⟨⟩ decoded hdecoded
  rw [decode_loadingCode] at hdecoded
  cases hdecoded
  unfold Pool.Inside
  decide

theorem ofBytes_loadingClass : ofBytes loadingClass.toBytes = .ok loadingClass := by
  have hloop := asRead_loopClass
  have hcode : loadingClass.pool.contentKind? 11 = some .code := rfl
  refine ofBytes_of_asRead_loop ⟨hloop.interfaces, hloop.fields, ⟨by decide, ?_⟩,
    hloop.attributes⟩ rfl
  refine List.forall_mem_singleton.2 ⟨by decide, List.forall_mem_singleton.2 ?_⟩
  exact .code hcode (by decide) (by decide) (fun _ ha => (List.not_mem_nil ha).elim) (by decide)

/-- The constant of the class and the load in its initializer are listed, and the class
is expanded. -/
theorem listed_of_expandBytes_loading :
    ∃ name findings out, ofBytes loadingClass.toBytes = .ok loadingClass ∧ loadingClass.Closed ∧
      Scan.ofBytes loadingClass.toBytes = .ok (name, findings) ∧
      expandBytes loopCatalog loopLookup loadingClass.toBytes = .ok (some out) ∧
      ⟨"text:Ljava/lang/String;", none, "\x60BuildConfig#m#v\x60"⟩ ∈ findings ∧
      ⟨"<clinit>()V", some 1, "\x60BuildConfig#m#v\x60"⟩ ∈ findings := by
  have htoken : loadingClass.pool.hasToken = true := by decide +kernel
  obtain ⟨xs, hmethod⟩ : ∃ xs, Finding.ofMethod loadingClass.pool loadingInitializer = .ok xs :=
    ⟨_, bind_eq_ok.2 ⟨_, decode_loadingCode, rfl⟩⟩
  obtain ⟨findings, hfindings⟩ : ∃ findings, loadingClass.findings = .ok findings := by
    unfold ClassFile.findings
    rw [if_pos htoken]
    exact ⟨_, bind_eq_ok.2 ⟨[xs], mapM_eq_ok.2 (.cons hmethod .nil), rfl⟩⟩
  have hscan : Scan.ofBytes loadingClass.toBytes = .ok (_, findings) :=
    bind_eq_ok.2 ⟨_, ofBytes_loadingClass, bind_eq_ok.2 ⟨_, hfindings, rfl⟩⟩
  obtain ⟨expanded, _, summary, hexpand, -, -, hloads, hdeferred⟩ := exists_expand_loadingClass
  have hout : expandBytes loopCatalog loopLookup loadingClass.toBytes =
      .ok (some expanded.toBytes) :=
    expandBytes_eq_some.2 ⟨_, _, _, ofBytes_loadingClass, hexpand, rfl⟩
  obtain ⟨cls', summary', hexpand', -, ⟨zss, hsum, hspliced⟩, cs, hlength, hdefers, hlisted⟩ :=
    (listed_of_expandBytes ofBytes_loadingClass loadingClass_closed hscan).2.1 _ hout
  cases hexpand.symm.trans hexpand'
  refine ⟨_, findings, _, ofBytes_loadingClass, loadingClass_closed, hscan, hout, ?_, ?_⟩
  · obtain ⟨⟨field, text⟩, rfl⟩ := List.length_eq_one_iff.1 (hlength.trans hdeferred)
    obtain ⟨f, hf, hd⟩ := exists_left_of_forall₂ hdefers List.mem_cons_self
    obtain rfl : f = loopField := List.mem_singleton.1 (List.mem_filter.1 hf).1
    have hfield : some "text" = some field := hd.field
    have htext := templateOf?_loopField.symm.trans (templateOf?_eq_some.2 hd.text)
    cases hfield
    cases htext
    exact hlisted _ List.mem_cons_self
  · -- one load was replaced, and the code has only one
    obtain ⟨m', -, hm, htexts⟩ := hspliced 0 loadingInitializer rfl
    have hone : (Splice.replaced ((zss 0).map (·.2))).length = 1 := by
      have hmethods : loadingClass.methods.length = 1 := rfl
      rw [hloads, hmethods] at hsum
      simpa using hsum.symm
    obtain ⟨z, hz, hcode⟩ := Splice.exists_of_replaced_pos (hone ▸ Nat.one_pos)
    obtain ⟨text, htext, hin⟩ := htexts z hz hcode
    obtain ⟨c, decoded, ⟨⟩, hd, hinsn⟩ := hm.mem_decoded hz
    cases decode_loadingCode.symm.trans hd
    obtain ⟨i, hi, hvalue⟩ := htext.load
    obtain ⟨hoffset, rfl⟩ : z.1 = 1 ∧ i = 8 := by simpa [hi] using hinsn
    have hstring : loadingClass.pool.stringValue? 8 = some "\x60BuildConfig#m#v\x60" := by
      decide +kernel
    cases hstring.symm.trans hvalue
    rw [hoffset] at hin
    exact hin

end ClassFile

end ClassTemplates
