import Mathlib.Data.String.Basic
import ClassTemplates.Proofs.Template.Patterns

/-!
# The scan for tokens

The tokens of a text are those that a scan over the places where tokens stand in it comes by. From a
cursor, the scan goes to the least position at or behind it where a token starts, takes the shortest
token that starts there, and goes on from its end until no token starts any more.

## Main definitions

- `Token.Parts.Allowed` — the parts can be written between the marks of a token
- `Token.Occurs` — the token stands in the text
- `Token.Scans` — the tokens are those that the scan takes from a cursor on
- `Token.placed` — a token with a module and a value, at a position

## Main results

- `Token.scans_findOnto` — the tokens found behind a front are those that the scan takes
- `Token.Scans.unique` — the scan has one result
- `Token.findAll_scans` — the tokens of a text are the result of the scan, with what this says
  about where they stand and where no token starts
-/

namespace ClassTemplates.Token

open String (utf8Len)

/-- The module is a name, and the value is not empty and stays on one line. Unlike in
`Parts.Spelled`, marks may stand anywhere in the value. -/
structure Parts.Allowed (moduleId value : List Char) : Prop where
  module_ne_nil : moduleId ≠ []
  name : ∀ c ∈ moduleId, isModuleChar c
  value_ne_nil : value ≠ []
  line : ∀ c ∈ value, endsLine c = false

/-- The token stands in the text: it is written with its module and some value, and the bytes from
its start to its stop are its own. -/
structure Occurs (s : String) (t : Token) : Prop where
  written : ∃ value, Parts.Allowed t.moduleId.toList value ∧
    t.raw = String.ofList (text t.moduleId.toList value)
  located : ∃ front back, s = front ++ t.raw ++ back ∧ t.start = front.utf8ByteSize
  stop_eq : t.stop = t.start + t.raw.utf8ByteSize

/-- The tokens are those that the scan takes from a cursor on. -/
inductive Scans (s : String) : Nat → List Token → Prop
  | stop {cursor : Nat} : (∀ u : Token, u.Occurs s → u.start < cursor) → Scans s cursor []
  | token {cursor : Nat} {t : Token} {ts : List Token} : t.Occurs s → cursor ≤ t.start →
      (∀ u : Token, u.Occurs s → cursor ≤ u.start → t.start ≤ u.start) →
      (∀ u : Token, u.Occurs s → u.start = t.start → t.stop ≤ u.stop) →
      Scans s t.stop ts → Scans s cursor (t :: ts)

/-- A token with a module and a value, at a position. -/
def placed (position : Nat) (moduleId value : List Char) : Token :=
  ⟨position, position + byteLength (text moduleId value), String.ofList moduleId,
    String.ofList (text moduleId value)⟩

variable {s : String} {moduleId moduleId' value value' front back cs more : List Char}
  {cursor cursor' : Nat} {t u : Token} {ts us : List Token} {p : Parts}

/-! ### Bytes in front of a token -/

theorem byteLength_eq (cs : List Char) : byteLength cs = utf8Len cs := by
  have hfold (cs : List Char) (n : Nat) :
      cs.foldl (fun n c => n + c.utf8Size) n = n + utf8Len cs := by
    induction cs generalizing n with
    | nil => rfl
    | cons c cs ih =>
      rw [List.foldl_cons, ih, String.utf8Len_cons]
      omega
  rw [byteLength, hfold, Nat.zero_add]

/-- Of two fronts of the same characters, the one of fewer bytes starts the other one. -/
theorem exists_gap {front' cs' : List Char} (h : front ++ cs = front' ++ cs')
    (hle : utf8Len front ≤ utf8Len front') : ∃ gap, front' = front ++ gap ∧ cs = gap ++ cs' := by
  obtain ⟨gap, hfront, hcs⟩ | ⟨gap, hfront, hcs⟩ := List.append_eq_append_iff.1 h
  · exact ⟨gap, hfront, hcs⟩
  · have hgap : gap = [] := by
      rw [hfront, String.utf8Len_append] at hle
      exact String.utf8Len_eq_zero.1 (by omega)
    subst hgap
    exact ⟨[], by simpa using hfront.symm, by simpa using hcs.symm⟩

theorem occurs_iff : t.Occurs s ↔ ∃ front moduleId value back, Parts.Allowed moduleId value ∧
    s.toList = front ++ (text moduleId value ++ back) ∧
      t = placed (utf8Len front) moduleId value := by
  constructor
  · rintro ⟨⟨value, hvalue, hraw⟩, ⟨front, back, hs, hstart⟩, hstop⟩
    refine ⟨front.toList, t.moduleId.toList, value, back.toList, hvalue, ?_, ?_⟩
    · rw [hs, hraw]
      simp
    · rw [hraw, String.utf8ByteSize_ofList] at hstop
      obtain ⟨start, stop, moduleId, raw⟩ := t
      simp_all [placed, byteLength_eq, String.utf8Len_toList]
  · rintro ⟨front, moduleId, value, back, hvalue, hs, rfl⟩
    refine ⟨⟨value, ?_, ?_⟩, ⟨String.ofList front, String.ofList back, ?_, ?_⟩, ?_⟩
    · simpa [placed] using hvalue
    · simp [placed]
    · rw [← String.toList_inj, hs]
      simp [placed]
    · simp [placed, String.utf8ByteSize_ofList]
    · simp [placed, byteLength_eq, String.utf8ByteSize_ofList]

/-- An occurrence at or behind a position that cuts the text lies in what is behind the cut. -/
theorem Occurs.behind (h : t.Occurs s) (hs : s.toList = front ++ cs)
    (hle : utf8Len front ≤ t.start) : ∃ gap moduleId value back,
      Parts.Allowed moduleId value ∧ cs = gap ++ (text moduleId value ++ back) ∧
        t = placed (utf8Len front + utf8Len gap) moduleId value := by
  obtain ⟨front', moduleId, value, back, hvalue, hs', rfl⟩ := occurs_iff.1 h
  obtain ⟨gap, rfl, hcs⟩ := exists_gap (hs.symm.trans hs') hle
  exact ⟨gap, moduleId, value, back, hvalue, hcs, by rw [String.utf8Len_append]⟩

/-- An occurrence that starts at a cut of the text is in front of what is behind the cut. -/
theorem Occurs.in_front (h : t.Occurs s) (hs : s.toList = front ++ cs)
    (hstart : t.start = utf8Len front) : ∃ moduleId value back,
      Parts.Allowed moduleId value ∧ cs = text moduleId value ++ back ∧
        t = placed (utf8Len front) moduleId value := by
  obtain ⟨gap, moduleId, value, back, hvalue, hcs, rfl⟩ := h.behind hs hstart.ge
  obtain rfl : gap = [] := String.utf8Len_eq_zero.1 (by simpa [placed] using hstart)
  exact ⟨moduleId, value, back, hvalue, hcs, rfl⟩

theorem Occurs.start_lt_stop (h : t.Occurs s) : t.start < t.stop := by
  obtain ⟨front, moduleId, value, back, -, -, rfl⟩ := occurs_iff.1 h
  have hmark := Char.utf8Size_pos mark
  simp only [placed, byteLength_eq, text, String.utf8Len_append, String.utf8Len_cons]
  omega

/-! ### Tokens that start in one place -/

theorem Parts.spelled_iff :
    Parts.Spelled moduleId value ↔ Parts.Allowed moduleId value ∧ mark ∉ value.tail := by
  constructor
  · rintro ⟨hne, hname, first, tail, rfl, hfirst, htail⟩
    simp only [Bool.and_eq_true, bne_iff_ne, Bool.not_eq_true'] at htail
    exact ⟨⟨hne, hname, List.cons_ne_nil first tail,
      List.forall_mem_cons.2 ⟨hfirst, fun c hc => (htail c hc).2⟩⟩,
      fun hmark => (htail mark hmark).1 rfl⟩
  · rintro ⟨⟨hne, hname, hvalue, hline⟩, hmark⟩
    obtain ⟨first, tail, rfl⟩ := List.exists_cons_of_ne_nil hvalue
    obtain ⟨hfirst, htail⟩ := List.forall_mem_cons.1 hline
    refine ⟨hne, hname, first, tail, rfl, hfirst, fun c hc => ?_⟩
    have hc' : c ≠ mark := fun h => hmark (h ▸ hc)
    simp [hc', htail c hc]

/-- Where a token is written there is a spelled one, which is the same or a shorter one: its value
stops at the first mark. -/
theorem Parts.Allowed.exists_match? (h : Parts.Allowed moduleId value) (more : List Char) :
    ∃ value' rest, match? (text moduleId value ++ more) = some ⟨moduleId, value', rest⟩ ∧
      text moduleId value' <+: text moduleId value := by
  by_cases hmark : mark ∈ value.tail
  · obtain ⟨hne, hname, hvalue, hline⟩ := h
    obtain ⟨first, tail, rfl⟩ := List.exists_cons_of_ne_nil hvalue
    obtain ⟨front, back, rfl, hfront⟩ := List.eq_append_cons_of_mem hmark
    have hspelled : Parts.Spelled moduleId (first :: front) :=
      Parts.spelled_iff.2 ⟨⟨hne, hname, List.cons_ne_nil first front,
        fun c hc => hline c (List.mem_append_left (mark :: back) hc)⟩, hfront⟩
    have htext : text moduleId (first :: (front ++ mark :: back)) =
        text moduleId (first :: front) ++ (back ++ [mark]) := by
      simp [text]
    refine ⟨first :: front, back ++ [mark] ++ more, ?_, ⟨back ++ [mark], htext.symm⟩⟩
    rw [htext, List.append_assoc]
    exact match?_text_append hspelled
  · exact ⟨value, more, match?_text_append (Parts.spelled_iff.2 ⟨h, hmark⟩), List.prefix_rfl⟩

/-- The module and the value of a token can be read off its text. -/
theorem text_inj (h : ∀ c ∈ moduleId, isModuleChar c) (h' : ∀ c ∈ moduleId', isModuleChar c)
    (heq : text moduleId value = text moduleId' value') :
    moduleId = moduleId' ∧ value = value' := by
  have hsharp : isModuleChar '#' = false := by decide
  have hbehind : moduleId ++ '#' :: (value ++ [mark]) = moduleId' ++ '#' :: (value' ++ [mark]) := by
    simpa [text] using heq
  obtain ⟨hm, hv⟩ := takeWhile_append_cons h hsharp (value ++ [mark])
  obtain ⟨hm', hv'⟩ := takeWhile_append_cons h' hsharp (value' ++ [mark])
  rw [hbehind] at hm hv
  refine ⟨hm.symm.trans hm', ?_⟩
  simpa using hv.symm.trans hv'

theorem text_ne_nil : text moduleId value ≠ [] := by
  simp [text]

/-- Where no token matches, none starts. -/
theorem Occurs.ne_of_match? (h : t.Occurs s) (hs : s.toList = front ++ cs)
    (hno : match? cs = none) : t.start ≠ utf8Len front := by
  intro hstart
  obtain ⟨moduleId, value, back, hvalue, rfl, -⟩ := h.in_front hs hstart
  obtain ⟨value', rest, hmatch, -⟩ := hvalue.exists_match? back
  rw [hmatch] at hno
  cases hno

/-- A token that matches occurs, and no other one that starts with it is shorter. -/
theorem occurs_of_match? (hs : s.toList = front ++ cs) (h : match? cs = some p) :
    (placed (utf8Len front) p.moduleId p.value).Occurs s ∧
      ∀ u : Token, u.Occurs s → u.start = utf8Len front →
        (placed (utf8Len front) p.moduleId p.value).stop ≤ u.stop := by
  constructor
  · have hallowed := (Parts.spelled_iff.1 (spelled_of_match? h)).1
    refine occurs_iff.2 ⟨front, p.moduleId, p.value, p.rest, hallowed, ?_, rfl⟩
    rw [hs, ← match?_eq_some h]
  · intro u hu hstart
    obtain ⟨moduleId, value, back, hvalue, rfl, rfl⟩ := hu.in_front hs hstart
    obtain ⟨value', rest, hmatch, hprefix⟩ := hvalue.exists_match? back
    rw [hmatch] at h
    cases h
    simpa [placed, byteLength_eq] using String.utf8Len_le_of_prefix hprefix

/-- An occurrence is told by where it starts and stops. -/
theorem Occurs.eq_of_range (ht : t.Occurs s) (hu : u.Occurs s) (hstart : t.start = u.start)
    (hstop : t.stop = u.stop) : t = u := by
  obtain ⟨front, moduleId, value, back, hvalue, hs, rfl⟩ := occurs_iff.1 ht
  obtain ⟨moduleId', value', back', hvalue', hcs, rfl⟩ := hu.in_front hs hstart.symm
  have hlength : utf8Len (text moduleId value) = utf8Len (text moduleId' value') := by
    simpa [placed, byteLength_eq] using hstop
  obtain ⟨more, htext, -⟩ := exists_gap hcs hlength.le
  obtain rfl : more = [] := by
    refine String.utf8Len_eq_zero.1 ?_
    rw [htext, String.utf8Len_append] at hlength
    omega
  rw [List.append_nil] at htext
  obtain ⟨rfl, rfl⟩ := text_inj hvalue.name hvalue'.name htext.symm
  rfl

/-! ### The scan -/

/-- A scan may start further ahead if no token starts in between. -/
theorem Scans.of_le (h : Scans s cursor' ts) (hle : cursor ≤ cursor')
    (hnone : ∀ u : Token, u.Occurs s → cursor ≤ u.start → cursor' ≤ u.start) :
    Scans s cursor ts := by
  cases h with
  | stop hstop =>
    refine .stop fun u hu => ?_
    by_contra hcursor
    have hahead := hnone u hu (by omega)
    have hbehind := hstop u hu
    omega
  | token ht hcursor hleast hshort hrest =>
    exact .token ht (hle.trans hcursor) (fun u hu h => hleast u hu (hnone u hu h)) hshort hrest

/-- What is found behind a front is what the scan takes from there on. -/
theorem scans_findOnto (found : Array Token) {position : Nat} (hs : s.toList = front ++ cs)
    (hposition : position = utf8Len front) :
    ∃ ts, (findOnto found position cs).toList = found.toList ++ ts ∧ Scans s position ts := by
  fun_induction findOnto found position cs generalizing front with
  | case1 found position =>
    refine ⟨[], (List.append_nil _).symm, .stop fun u hu => ?_⟩
    by_contra hle
    obtain ⟨gap, moduleId, value, back, -, hcs, -⟩ := hu.behind hs (by omega)
    simp [text_ne_nil] at hcs
  | case2 found position c rest p hp raw stop =>
    rename_i token ih
    subst hposition
    obtain ⟨hoccurs, hshort⟩ := occurs_of_match? hs hp
    have hbehind : s.toList = front ++ raw ++ p.rest := by
      rw [hs, List.append_assoc, ← match?_eq_some hp]
    have hstop : stop = utf8Len (front ++ raw) := by
      simp [stop, byteLength_eq]
    obtain ⟨ts, hfound, hscans⟩ := ih hbehind hstop
    refine ⟨token :: ts, ?_, ?_⟩
    · rw [hfound, Array.toList_push, List.append_assoc]
      rfl
    · exact .token hoccurs le_rfl (fun u _ hu => hu) hshort hscans
  | case3 found position c rest hno ih =>
    subst hposition
    have hnext : s.toList = front ++ [c] ++ rest := by simpa using hs
    obtain ⟨ts, hfound, hscans⟩ := ih hnext (by simp)
    refine ⟨ts, hfound, hscans.of_le (Nat.le_add_right _ _) fun u hu hle => ?_⟩
    have hne := hu.ne_of_match? hs hno
    obtain ⟨gap, moduleId, value, back, -, hcs, rfl⟩ := hu.behind hs hle
    cases gap with
    | nil => simp [placed] at hne
    | cons d gap =>
      obtain ⟨rfl, -⟩ := List.cons.inj hcs
      simp [placed]

theorem scans_findAll (s : String) : Scans s 0 (findAll s) := by
  obtain ⟨ts, hfound, hscans⟩ : ∃ ts,
      (findOnto #[] 0 s.toList).toList = [] ++ ts ∧ Scans s 0 ts :=
    scans_findOnto #[] (List.nil_append _).symm rfl
  rwa [findAll, hfound]

/-- The scan has one result. -/
theorem Scans.unique (h : Scans s cursor ts) (h' : Scans s cursor us) : ts = us := by
  induction h generalizing us with
  | stop hstop =>
    cases h' with
    | stop => rfl
    | token ht hcursor =>
      have hlt := hstop _ ht
      omega
  | @token cursor t ts ht hcursor hleast hshort _ ih =>
    cases h' with
    | stop hstop =>
      have hlt := hstop t ht
      omega
    | @token _ u us hu hcursor' hleast' hshort' hrest' =>
      have hstart : t.start = u.start :=
        le_antisymm (hleast u hu hcursor') (hleast' t ht hcursor)
      have hstop : t.stop = u.stop :=
        le_antisymm (hshort u hu hstart.symm) (hshort' t ht hstart)
      obtain rfl := ht.eq_of_range hu hstart hstop
      rw [ih hrest']

/-- What the scan takes occurs in the text, from the cursor on. -/
theorem Scans.occurs (h : Scans s cursor ts) : ∀ t ∈ ts, t.Occurs s ∧ cursor ≤ t.start := by
  induction h with
  | stop => simp
  | @token cursor t ts ht hcursor _ _ _ ih =>
    refine List.forall_mem_cons.2 ⟨⟨ht, hcursor⟩, fun u hu => ?_⟩
    obtain ⟨hoccurs, hstop⟩ := ih u hu
    have hlt := ht.start_lt_stop
    exact ⟨hoccurs, by omega⟩

theorem Scans.pairwise (h : Scans s cursor ts) : ts.Pairwise fun t u => t.stop ≤ u.start := by
  induction h with
  | stop => exact .nil
  | token _ _ _ _ hrest ih => exact List.pairwise_cons.2 ⟨fun u hu => (hrest.occurs u hu).2, ih⟩

/-- From the cursor on, a token starts only inside of those that the scan takes. -/
theorem Scans.covers (h : Scans s cursor ts) (hu : u.Occurs s) (hcursor : cursor ≤ u.start) :
    ∃ t ∈ ts, t.start ≤ u.start ∧ u.start < t.stop := by
  induction h with
  | stop hstop =>
    have hlt := hstop u hu
    omega
  | @token cursor t ts _ _ hleast _ _ ih =>
    by_cases hlt : u.start < t.stop
    · exact ⟨t, List.mem_cons_self, hleast u hu hcursor, hlt⟩
    · obtain ⟨t', ht', hstart⟩ := ih (by omega)
      exact ⟨t', List.mem_cons_of_mem t ht', hstart⟩

theorem findOnto_of_match? (found : Array Token) (position : Nat) (h : match? cs = some p) :
    findOnto found position cs =
      findOnto (found.push (placed position p.moduleId p.value))
        (position + byteLength (text p.moduleId p.value)) p.rest := by
  cases cs with
  | nil => cases h
  | cons c cs =>
    rw [findOnto]
    split
    · rename_i p' hp
      rw [h] at hp
      cases hp
      rfl
    · rename_i hnone
      rw [h] at hnone
      cases hnone

theorem findOnto_of_none {c : Char} (found : Array Token) (position : Nat)
    (h : match? (c :: cs) = none) :
    findOnto found position (c :: cs) = findOnto found (position + c.utf8Size) cs := by
  rw [findOnto]
  split
  · rename_i p hp
    rw [h] at hp
    cases hp
  · rfl

@[simp] theorem findOnto_nil (found : Array Token) (position : Nat) :
    findOnto found position [] = found := by
  rw [findOnto]

theorem match?_cons_of_ne {c : Char} (h : c ≠ mark) : match? (c :: cs) = none := by
  rw [match?, opening, dropStart?, if_neg h.symm]
  rfl

/-- Characters in front of the first mark are passed over. -/
theorem findOnto_append (found : Array Token) (position : Nat) (h : mark ∉ front) :
    findOnto found position (front ++ cs) = findOnto found (position + utf8Len front) cs := by
  induction front generalizing position with
  | nil => rfl
  | cons c front ih =>
    obtain ⟨hc, hfront⟩ := not_or.1 (mt List.mem_cons.2 h)
    rw [List.cons_append, findOnto_of_none _ _ (match?_cons_of_ne (Ne.symm hc)), ih _ hfront,
      String.utf8Len_cons, Nat.add_assoc, Nat.add_comm c.utf8Size]

/-- The tokens of a text are what the scan takes from its front on. So they stand in the text where
they say, one behind the other, and no token starts in front of them, between two of them or behind
the last one. At every place, the token that starts there is the preferred match of the pattern. -/
theorem findAll_scans (s : String) :
    (∀ ts, findAll s = ts ↔ Scans s 0 ts) ∧
      (∀ t ∈ findAll s, t.Occurs s ∧ t.start < t.stop) ∧
      ((findAll s).Pairwise fun t u => t.stop ≤ u.start) ∧
      (∀ u : Token, u.Occurs s → ∃ t ∈ findAll s, t.start ≤ u.start ∧ u.start < t.stop) ∧
      (occursIn s = true ↔ findAll s ≠ []) ∧
      (occursIn s = true ↔ ∃ u : Token, u.Occurs s) ∧
      ∀ front cs, s.toList = front ++ cs → (Pattern.ways pattern cs).head? =
        (match? cs).map fun p => ([opening, p.moduleId, ['#'], p.value, [mark]], p.rest) := by
  have hscan := scans_findAll s
  have hfound : occursIn s = true ↔ findAll s ≠ [] := by
    simp [occursIn]
  refine ⟨fun ts => ⟨fun h => h ▸ hscan, hscan.unique⟩, fun t ht => ?_, hscan.pairwise,
    fun u hu => hscan.covers hu (Nat.zero_le _), hfound, hfound.trans ⟨fun h => ?_, ?_⟩,
    fun _ cs _ => head?_ways_pattern cs⟩
  · obtain ⟨hoccurs, -⟩ := hscan.occurs t ht
    exact ⟨hoccurs, hoccurs.start_lt_stop⟩
  · obtain ⟨t, ht⟩ := List.exists_mem_of_ne_nil _ h
    exact ⟨t, (hscan.occurs t ht).1⟩
  · rintro ⟨u, hu⟩
    obtain ⟨t, ht, -⟩ := hscan.covers hu (Nat.zero_le _)
    exact List.ne_nil_of_mem ht

theorem findAll_scans_shared_mark :
    Scans "é\x60BuildConfig#m#\x60\x60BuildConfig#n#x\x60" 0
        [⟨2, 19, "m", "\x60BuildConfig#m#\x60\x60"⟩] ∧
      ∃ t ∈ findAll "é\x60BuildConfig#m#\x60\x60BuildConfig#n#x\x60",
        t.start ≤ 18 ∧ 18 < t.stop := by
  have hall : findAll "é\x60BuildConfig#m#\x60\x60BuildConfig#n#x\x60" =
      [⟨2, 19, "m", "\x60BuildConfig#m#\x60\x60"⟩] := by
    have hsplit : "é\x60BuildConfig#m#\x60\x60BuildConfig#n#x\x60".toList =
        ['é'] ++ "\x60BuildConfig#m#\x60\x60BuildConfig#n#x\x60".toList := by
      decide
    have hmatch : match? "\x60BuildConfig#m#\x60\x60BuildConfig#n#x\x60".toList =
        some ⟨['m'], [mark], "BuildConfig#n#x".toList ++ [mark]⟩ := by
      decide
    rw [findAll, hsplit, findOnto_append _ _ (by decide), findOnto_of_match? _ _ hmatch,
      findOnto_append _ _ (by decide), findOnto_of_none _ _ (by decide), findOnto_nil]
    decide
  have hinner : Occurs "é\x60BuildConfig#m#\x60\x60BuildConfig#n#x\x60"
      ⟨18, 35, "n", "\x60BuildConfig#n#x\x60"⟩ :=
    occurs_iff.2 ⟨"é\x60BuildConfig#m#\x60".toList, ['n'], ['x'], [],
      ⟨by decide, List.forall_mem_singleton.2 rfl, by decide, List.forall_mem_singleton.2 rfl⟩,
      by decide, by decide⟩
  obtain ⟨hscan, -, -, hcover, -⟩ :=
    findAll_scans "é\x60BuildConfig#m#\x60\x60BuildConfig#n#x\x60"
  exact ⟨(hscan _).1 hall, hcover _ hinner⟩

end ClassTemplates.Token
