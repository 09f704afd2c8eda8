import ClassTemplates.Proofs.Body.RoundTrip
import ClassTemplates.Proofs.Depth.Edits
import ClassTemplates.Proofs.Depth.Exact

/-!
# Depths do not depend on labels

Labels take nothing off the stack and put nothing on it, so control runs through them to the next
instruction at the same depth. What the analysis finds depends on the instructions between labels
and on which of these instructions the branches and handlers lead to.

## Main definitions

- `unlabeled`, `ordinal` — the instructions without labels, and the number of these in front of an
  index
- `Body.Alike` — bodies with the same instructions and branches, whatever labels they have
- `depthsOf` — the depths in front of the instructions that are not labels

## Main results

- `Body.Levels.settles` — control runs through labels
- `Body.Alike.levels` — depths of a body are depths of every body like it
- `Body.Alike.depths` — the analysis of bodies that are alike
-/

namespace ClassTemplates

/-! ### Other labels -/

namespace Insn

variable {insn : Insn} {f : Label → Label}

theorem goesOn_relabel : (insn.relabel f).goesOn = insn.goesOn := by
  cases insn <;> rfl

theorem callsSubroutine_relabel : (insn.relabel f).callsSubroutine = insn.callsSubroutine := by
  cases insn <;> rfl

end Insn

/-! ### Instructions without labels -/

/-- The instructions that do not only place a label. -/
def unlabeled (insns : List Insn) : List Insn :=
  insns.filter fun i => !i.isLabel

/-- The number of instructions in front of an index, labels aside. -/
def ordinal (insns : List Insn) (i : Nat) : Nat :=
  (unlabeled (insns.take i)).length

/-- The index of the instruction that has a number of others in front of it, labels aside. -/
def spot : List Insn → Nat → Nat
  | [], _ => 0
  | i :: rest, 0 => if i.isLabel then spot rest 0 + 1 else 0
  | i :: rest, k + 1 => spot rest (if i.isLabel then k + 1 else k) + 1

/-- The depths that are known in front of the instructions, labels aside. -/
def depthsOf (insns : List Insn) (known : List (Option UInt16)) : List (Option UInt16) :=
  ((insns.zip known).filter fun x => !x.1.isLabel).map (·.2)

section

variable {insns : List Insn} {x : Insn} {i k : Nat}

theorem unlabeled_label (hx : x.isLabel = true) : unlabeled (x :: insns) = unlabeled insns :=
  List.filter_cons_of_neg (by simp [hx])

theorem unlabeled_cons (hx : x.isLabel = false) :
    unlabeled (x :: insns) = x :: unlabeled insns :=
  List.filter_cons_of_pos (by simp [hx])

theorem unlabeled_append {front back : List Insn} :
    unlabeled (front ++ back) = unlabeled front ++ unlabeled back :=
  List.filter_append ..

theorem ordinal_succ (h : insns[i]? = some x) :
    ordinal insns (i + 1) = if x.isLabel then ordinal insns i else ordinal insns i + 1 := by
  rw [ordinal, List.take_add_one, h, unlabeled_append, List.length_append, ordinal]
  cases hx : x.isLabel <;> simp [hx, unlabeled]

theorem ordinal_cons : ordinal (x :: insns) (i + 1) =
    if x.isLabel then ordinal insns i else ordinal insns i + 1 := by
  rw [ordinal, List.take_succ_cons, ordinal]
  cases hx : x.isLabel with
  | true => rw [unlabeled_label hx, if_pos rfl]
  | false => rw [unlabeled_cons hx, if_neg Bool.false_ne_true, List.length_cons]

theorem spot_label (hx : x.isLabel = true) : spot (x :: insns) k = spot insns k + 1 := by
  cases k <;> simp [spot, hx]

theorem spot_zero (hx : x.isLabel = false) : spot (x :: insns) 0 = 0 := by
  simp [spot, hx]

theorem spot_succ (hx : x.isLabel = false) : spot (x :: insns) (k + 1) = spot insns k + 1 := by
  simp [spot, hx]

theorem spot_ordinal (h : insns[i]? = some x) (hx : x.isLabel = false) :
    spot insns (ordinal insns i) = i := by
  induction insns generalizing i with
  | nil => cases h
  | cons y rest ih =>
    cases i with
    | zero =>
      obtain rfl : y = x := by simpa using h
      exact spot_zero hx
    | succ i =>
      have hi : spot rest (ordinal rest i) = i := ih (by simpa using h)
      rw [ordinal_cons]
      cases hy : y.isLabel with
      | true => rw [if_pos rfl, spot_label hy, hi]
      | false => rw [if_neg Bool.false_ne_true, spot_succ hy, hi]

/-- The instruction that has a number of others in front of it. -/
theorem getElem?_spot (h : (unlabeled insns)[k]? = some x) :
    insns[spot insns k]? = some x ∧ x.isLabel = false ∧ ordinal insns (spot insns k) = k := by
  induction insns generalizing k with
  | nil => cases h
  | cons y rest ih =>
    cases hy : y.isLabel with
    | true =>
      rw [unlabeled_label hy] at h
      obtain ⟨hget, hx, hk⟩ := ih h
      rw [spot_label hy, ordinal_cons, hy, if_pos rfl]
      exact ⟨hget, hx, hk⟩
    | false =>
      rw [unlabeled_cons hy] at h
      cases k with
      | zero =>
        obtain rfl : y = x := by simpa using h
        rw [spot_zero hy]
        exact ⟨rfl, hy, rfl⟩
      | succ k =>
        obtain ⟨hget, hx, hk⟩ := ih (k := k) (by simpa using h)
        rw [spot_succ hy, ordinal_cons, hy, if_neg Bool.false_ne_true, hk]
        exact ⟨hget, hx, rfl⟩

theorem getElem?_unlabeled (h : insns[i]? = some x) (hx : x.isLabel = false) :
    (unlabeled insns)[ordinal insns i]? = some x := by
  have hsplit : unlabeled insns = unlabeled (insns.take i) ++ unlabeled (insns.drop i) := by
    rw [← unlabeled_append, List.take_append_drop]
  have hdrop : insns.drop i = x :: insns.drop (i + 1) := by
    obtain ⟨hi, rfl⟩ := List.getElem?_eq_some_iff.1 h
    exact List.drop_eq_getElem_cons hi
  rw [hsplit, ordinal, List.getElem?_append_right (Nat.le_refl _), Nat.sub_self, hdrop,
    unlabeled_cons hx, List.getElem?_cons_zero]

/-- An index with instructions behind it is one of an instruction. -/
theorem lt_length_of_ordinal (h : ordinal insns i < (unlabeled insns).length) :
    i < insns.length := by
  by_contra hle
  rw [ordinal, List.take_of_length_le (Nat.le_of_not_lt hle)] at h
  exact Nat.lt_irrefl _ h

/-- Behind the last instruction there are all the others. -/
theorem spot_of_le (h : (unlabeled insns).length ≤ k) : spot insns k = insns.length := by
  induction insns generalizing k with
  | nil => rfl
  | cons y rest ih =>
    cases hy : y.isLabel with
    | true =>
      rw [unlabeled_label hy] at h
      rw [spot_label hy, ih h, List.length_cons]
    | false =>
      rw [unlabeled_cons hy, List.length_cons] at h
      obtain ⟨k, rfl⟩ := Nat.exists_eq_add_of_lt h
      rw [spot_succ hy, ih (Nat.le_add_right _ k), List.length_cons]

theorem getElem?_depthsOf {known : List (Option UInt16)} (h : known.length = insns.length) :
    (depthsOf insns known)[k]? = known[spot insns k]? := by
  induction insns generalizing known k with
  | nil =>
    obtain rfl := List.length_eq_zero_iff.1 h
    rfl
  | cons y rest ih =>
    obtain ⟨d, known, rfl⟩ := List.exists_cons_of_length_eq_add_one h
    have hlen : known.length = rest.length := by simpa using h
    have hrest (k : Nat) : (depthsOf rest known)[k]? = known[spot rest k]? := ih hlen
    unfold depthsOf at hrest
    rw [depthsOf, List.zip_cons_cons]
    cases hy : y.isLabel with
    | true => simp [hy, spot_label hy, ← hrest]
    | false => cases k <;> simp [hy, spot_zero hy, spot_succ hy, ← hrest]

end

/-! ### Bodies that are alike -/

namespace Body

/-- The labels that instructions and handlers of a body lead to. -/
def leads (b : Body) : List Label :=
  b.insns.flatMap Insn.targets ++ b.handlers.map (·.target)

/-- The label that is numbered by the instructions in front of the place of a label. -/
def numbered (b : Body) (l : Label) : Label :=
  ⟨((lastPlace? b.insns l).map (ordinal b.insns)).getD 0⟩

/-- The bodies have the same instructions, labels aside, and in both of them branches and handlers
lead to the same ones. -/
structure Alike (b b' : Body) : Prop where
  insns : (unlabeled b.insns).map (Insn.relabel b.numbered) =
    (unlabeled b'.insns).map (Insn.relabel b'.numbered)
  handlers : b.handlers.map (fun h => b.numbered h.target) =
    b'.handlers.map fun h => b'.numbered h.target
  bound : ∀ l ∈ b.leads, b.Bound l
  bound' : ∀ l ∈ b'.leads, b'.Bound l

variable {b b' : Body} {pool : Pool} {depth depth' : Nat → UInt16} {i j : Nat} {insn : Insn}
  {l l' : Label} {kept : Bool}

theorem Alike.symm (h : b.Alike b') : b'.Alike b :=
  ⟨h.insns.symm, h.handlers.symm, h.bound', h.bound⟩

theorem mem_leads_of_target (hi : b.insns[i]? = some insn) (hl : l ∈ insn.targets) :
    l ∈ b.leads :=
  List.mem_append_left _ (List.mem_flatMap.2 ⟨insn, List.mem_of_getElem? hi, hl⟩)

/-- A label that leads somewhere has a counterpart that leads to the same instruction. -/
theorem ordinal_of_numbered (hl : b.Bound l) (hl' : lastPlace? b'.insns l' = some j)
    (h : b.numbered l = b'.numbered l') :
    ∃ i, lastPlace? b.insns l = some i ∧ ordinal b.insns i = ordinal b'.insns j := by
  obtain ⟨i, hi⟩ := hl
  refine ⟨i, hi, ?_⟩
  rw [numbered, numbered, hi, hl'] at h
  exact congrArg Label.id h

/-- The instruction that stands in the same place among the others. -/
theorem Alike.exists_insn (h : b.Alike b') {insn' : Insn} (hj : b'.insns[j]? = some insn')
    (hx : insn'.isLabel = false) :
    ∃ i insn, b.insns[i]? = some insn ∧ insn.isLabel = false ∧
      ordinal b.insns i = ordinal b'.insns j ∧
      insn.relabel b.numbered = insn'.relabel b'.numbered := by
  have hget := congrArg (·[ordinal b'.insns j]?) h.insns
  simp only [List.getElem?_map, getElem?_unlabeled hj hx, Option.map_some] at hget
  obtain ⟨insn, hinsn, hsame⟩ := Option.map_eq_some_iff.1 hget
  obtain ⟨hi, hlabel, hordinal⟩ := getElem?_spot hinsn
  exact ⟨_, insn, hi, hlabel, hordinal, hsame⟩

/-- From the same instruction control goes to the same ones. -/
theorem Alike.edge (h : b.Alike b') {insn' : Insn} {i' j' : Nat} (hi : b.insns[i]? = some insn)
    (hx : insn.isLabel = false) (hi' : b'.insns[i']? = some insn')
    (hordinal : ordinal b.insns i = ordinal b'.insns i')
    (hsame : insn.relabel b.numbered = insn'.relabel b'.numbered) (he : b'.Edge i' j' kept) :
    ∃ j, b.Edge i j kept ∧ ordinal b.insns j = ordinal b'.insns j' := by
  have hx' : insn'.isLabel = false := by
    rw [← Insn.isLabel_relabel (f := b'.numbered), ← hsame, Insn.isLabel_relabel, hx]
  have hnext : ordinal b.insns (i + 1) = ordinal b'.insns (i' + 1) := by
    rw [ordinal_succ hi, ordinal_succ hi', hx, hx', hordinal]
  have hgoes : insn.goesOn = insn'.goesOn := by
    have hgoes := congrArg Insn.goesOn hsame
    rwa [Insn.goesOn_relabel, Insn.goesOn_relabel] at hgoes
  have hcalls : insn.callsSubroutine = insn'.callsSubroutine := by
    have hcalls := congrArg Insn.callsSubroutine hsame
    rwa [Insn.callsSubroutine_relabel, Insn.callsSubroutine_relabel] at hcalls
  rcases (edge_iff hi').1 he with ⟨rfl, ⟨l', hl', hj'⟩ | ⟨hgo, rfl⟩⟩ | ⟨rfl, hcall, rfl⟩
  · have htargets := congrArg Insn.targets hsame
    rw [Insn.targets_relabel, Insn.targets_relabel] at htargets
    obtain ⟨l, hl, hnumber⟩ := List.mem_map.1 (htargets ▸ List.mem_map_of_mem hl')
    obtain ⟨j, hj, hordinals⟩ :=
      ordinal_of_numbered (h.bound l (mem_leads_of_target hi hl)) hj' hnumber
    exact ⟨j, .target hi hl hj, hordinals⟩
  · exact ⟨i + 1, .next hi (hgoes.trans hgo), hnext⟩
  · exact ⟨i + 1, .back hi (hcalls.trans hcall), hnext⟩

/-! ### Depths of bodies that are alike -/

theorem after_zero {d : UInt16} : (⟨0, 0⟩ : Effect).after d = d := by
  have hd := d.toNat_lt
  rw [Effect.after, ← UInt16.toNat_inj]
  simp
  omega

theorem effect?_of_label (hi : b.insns[i]? = some (.label l)) :
    b.effect? pool i = some ⟨0, 0⟩ := by
  rw [effect?, hi]
  rfl

/-- From a label control goes on only. -/
theorem Edge.of_label (h : b.Edge i j kept) (hi : b.insns[i]? = some (.label l)) :
    j = i + 1 ∧ kept = false := by
  rcases (edge_iff hi).1 h with ⟨hkept, ⟨l', hl', -⟩ | ⟨-, hj⟩⟩ | ⟨-, hcalls, -⟩
  · cases hl'
  · exact ⟨hj, hkept⟩
  · cases hcalls

/-- Control goes on behind a label, at the same depth. -/
theorem Levels.behind_label (hlevels : b.Levels pool depth) (hr : b.Reaches i)
    (hi : b.insns[i]? = some insn) (hx : insn.isLabel = true) :
    b.Reaches (i + 1) ∧ depth (i + 1) = depth i := by
  obtain ⟨l, rfl⟩ := Insn.exists_of_isLabel hx
  have hedge : b.Edge i (i + 1) false := .next hi rfl
  exact ⟨hr.step hedge,
    (hlevels.agrees _ _ _ _ hr hedge (effect?_of_label hi)).trans after_zero⟩

/-- Control runs through labels to an instruction, at the same depth. -/
theorem Levels.settles (hlevels : b.Levels pool depth) (hr : b.Reaches i) :
    ∃ j insn, b.insns[j]? = some insn ∧ insn.isLabel = false ∧
      ordinal b.insns j = ordinal b.insns i ∧ b.Reaches j ∧ depth j = depth i := by
  -- by induction on what is left; control does not run off the end
  induction hn : b.insns.length - i generalizing i with
  | zero =>
    have hlt := hlevels.inside i hr
    omega
  | succ n ih =>
    have hi : b.insns[i]? = some b.insns[i] := List.getElem?_eq_getElem (hlevels.inside i hr)
    cases hx : b.insns[i].isLabel with
    | false => exact ⟨i, _, hi, hx, rfl, hr, rfl⟩
    | true =>
      obtain ⟨hr', hdepth⟩ := hlevels.behind_label hr hi hx
      obtain ⟨j, insn, hj, hlabel, hordinal, hreach, hsame⟩ := ih hr' (by omega)
      rw [ordinal_succ hi, hx, if_pos rfl] at hordinal
      exact ⟨j, insn, hj, hlabel, hordinal, hreach, hsame.trans hdepth⟩

/-- Where control is in front of the same instruction, labels aside, it runs to that one. -/
theorem Alike.settles (h : b.Alike b') (hlevels : b.Levels pool depth) {insn' : Insn}
    (hi : b.Reaches i) (hordinal : ordinal b.insns i = ordinal b'.insns j)
    (hj : b'.insns[j]? = some insn') (hx : insn'.isLabel = false) :
    ∃ k insn, b.insns[k]? = some insn ∧ insn.isLabel = false ∧ b.Reaches k ∧
      ordinal b.insns k = ordinal b'.insns j ∧
      insn.relabel b.numbered = insn'.relabel b'.numbered := by
  obtain ⟨k, insn, hk, hlabel, hordinal', hreach, -⟩ := hlevels.settles hi
  obtain ⟨k', insn₁, hk', hlabel', hordinal₁, hsame⟩ := h.exists_insn hj hx
  obtain rfl : k = k' := by
    rw [← spot_ordinal hk hlabel, ← spot_ordinal hk' hlabel', hordinal', hordinal₁, hordinal]
  cases hk.symm.trans hk'
  exact ⟨k, insn, hk, hlabel, hreach, hordinal₁, hsame⟩

/-- The handlers of bodies that are alike lead to the same instructions. -/
theorem Alike.exists_handler (h : b.Alike b') {g' : Handler Label} (hg' : g' ∈ b'.handlers)
    (hj : lastPlace? b'.insns g'.target = some j) :
    ∃ g ∈ b.handlers, ∃ i, lastPlace? b.insns g.target = some i ∧
      ordinal b.insns i = ordinal b'.insns j := by
  obtain ⟨g, hg, hnumber⟩ := List.mem_map.1 (h.handlers ▸ List.mem_map_of_mem hg')
  exact ⟨g, hg, ordinal_of_numbered
    (h.bound _ (List.mem_append_right _ (List.mem_map_of_mem hg))) hj hnumber⟩

/-- What is reached in one of the bodies is reached in the other one. -/
theorem Alike.reaches (h : b.Alike b') (hlevels : b.Levels pool depth) (hr : b'.Reaches j) :
    ∃ i, b.Reaches i ∧ ordinal b.insns i = ordinal b'.insns j := by
  induction hr with
  | entry => exact ⟨0, .entry, rfl⟩
  | handler hg' hj =>
    obtain ⟨g, hg, i, hi, hordinal⟩ := h.exists_handler hg' hj
    exact ⟨i, .handler hg hi, hordinal⟩
  | @step i' j' kept _ hedge ih =>
    obtain ⟨i, hi, hordinal⟩ := ih
    obtain ⟨insn', hinsn'⟩ := hedge.exists_insn
    cases hx : insn'.isLabel with
    | true =>
      -- nothing but a label lies between the two
      obtain ⟨l, rfl⟩ := Insn.exists_of_isLabel hx
      obtain ⟨rfl, -⟩ := hedge.of_label hinsn'
      exact ⟨i, hi, by rw [hordinal, ordinal_succ hinsn', hx, if_pos rfl]⟩
    | false =>
      obtain ⟨k, insn, hk, hlabel, hreach, hordinal', hsame⟩ :=
        h.settles hlevels hi hordinal hinsn' hx
      obtain ⟨j, hj, hordinals⟩ := h.edge hk hlabel hinsn' hordinal' hsame hedge
      exact ⟨j, hreach.step hj, hordinals⟩

/-- The depths in front of the instructions of a body, at the counterparts of these in another one.
-/
def depthLike (b b' : Body) (depth : Nat → UInt16) (j : Nat) : UInt16 :=
  depth (spot b.insns (ordinal b'.insns j))

theorem Levels.depthLike_eq (hlevels : b.Levels pool depth) (hr : b.Reaches i)
    (h : ordinal b.insns i = ordinal b'.insns j) : depthLike b b' depth j = depth i := by
  obtain ⟨k, insn, hk, hlabel, hordinal, -, hdepth⟩ := hlevels.settles hr
  rw [depthLike, ← h, ← hordinal, spot_ordinal hk hlabel, hdepth]

theorem effect?_eq_of_relabel {insn' : Insn} (hi : b.insns[i]? = some insn)
    (hj : b'.insns[j]? = some insn')
    (hsame : insn.relabel b.numbered = insn'.relabel b'.numbered) :
    b.effect? pool i = b'.effect? pool j := by
  have heffect := congrArg (Effect.ofInsn? pool) hsame
  rw [Effect.ofInsn?_relabel, Effect.ofInsn?_relabel] at heffect
  rw [effect?, effect?, hi, hj]
  exact heffect

/-- Control does not run off the end of a body like one with depths. -/
theorem Alike.inside (h : b.Alike b') (hlevels : b.Levels pool depth) (hr : b'.Reaches j) :
    j < b'.insns.length := by
  obtain ⟨i, hi, hordinal⟩ := h.reaches hlevels hr
  obtain ⟨k, insn, hk, hlabel, hordinal', -, -⟩ := hlevels.settles hi
  have hlt := (List.getElem?_eq_some_iff.1 (getElem?_unlabeled hk hlabel)).1
  have hlength := congrArg List.length h.insns
  rw [List.length_map, List.length_map] at hlength
  rw [hordinal', hordinal, hlength] at hlt
  exact lt_length_of_ordinal hlt

/-- Depths of a body are depths of every body like it. -/
theorem Alike.levels (h : b.Alike b') (hlevels : b.Levels pool depth) :
    b'.Levels pool (depthLike b b' depth) where
  entry := (hlevels.depthLike_eq .entry rfl).trans hlevels.entry
  handlers := by
    intro g' hg' j hj
    obtain ⟨g, hg, i, hi, hordinal⟩ := h.exists_handler hg' hj
    rw [hlevels.depthLike_eq (.handler hg hi) hordinal, hlevels.handlers g hg i hi]
  inside := fun _ => h.inside hlevels
  enough := by
    intro j hr
    obtain ⟨i, hi, hordinal⟩ := h.reaches hlevels hr
    obtain ⟨insn', hj⟩ : ∃ insn', b'.insns[j]? = some insn' :=
      ⟨_, List.getElem?_eq_getElem (h.inside hlevels hr)⟩
    cases hx : insn'.isLabel with
    | true =>
      obtain ⟨l, rfl⟩ := Insn.exists_of_isLabel hx
      exact ⟨_, effect?_of_label hj, UInt16.zero_le⟩
    | false =>
      obtain ⟨k, insn, hk, hlabel, hreach, hordinal', hsame⟩ :=
        h.settles hlevels hi hordinal hj hx
      obtain ⟨e, he, hpops⟩ := hlevels.enough k hreach
      rw [hlevels.depthLike_eq hreach hordinal']
      exact ⟨e, (effect?_eq_of_relabel hk hj hsame).symm.trans he, hpops⟩
  bound := by
    intro j insn _ hj l hl
    exact h.bound' l (mem_leads_of_target hj hl)
  agrees := by
    intro i' j' kept e hr hedge he
    obtain ⟨i, hi, hordinal⟩ := h.reaches hlevels hr
    obtain ⟨insn', hinsn'⟩ := hedge.exists_insn
    cases hx : insn'.isLabel with
    | true =>
      obtain ⟨l, rfl⟩ := Insn.exists_of_isLabel hx
      obtain ⟨rfl, rfl⟩ := hedge.of_label hinsn'
      cases (effect?_of_label hinsn').symm.trans he
      rw [depthLike, ordinal_succ hinsn', hx, if_pos rfl]
      exact after_zero.symm
    | false =>
      obtain ⟨k, insn, hk, hlabel, hreach, hordinal', hsame⟩ :=
        h.settles hlevels hi hordinal hinsn' hx
      obtain ⟨j, hj, hordinals⟩ := h.edge hk hlabel hinsn' hordinal' hsame hedge
      rw [hlevels.depthLike_eq (hreach.step hj) hordinals, hlevels.depthLike_eq hreach hordinal']
      exact hlevels.agrees _ _ _ _ hreach hj ((effect?_eq_of_relabel hk hinsn' hsame).trans he)

/-! ### The analysis of bodies that are alike -/

variable {summary summary' : DepthSummary} {known known' : List (Option UInt16)}

/-- An instruction is reached if its counterpart is. -/
theorem Alike.reaches_of_ordinal (h : b.Alike b') (hlevels : b.Levels pool depth)
    (hi : b.insns[i]? = some insn) (hx : insn.isLabel = false)
    (hordinal : ordinal b.insns i = ordinal b'.insns j) (hr : b'.Reaches j) : b.Reaches i := by
  obtain ⟨i', hi', hordinal'⟩ := h.reaches hlevels hr
  obtain ⟨k, x, hk, hlabel, hordinal'', hreach, -⟩ := hlevels.settles hi'
  obtain rfl : k = i := by
    rw [← spot_ordinal hk hlabel, ← spot_ordinal hi hx, hordinal'', hordinal', hordinal]
  exact hreach

theorem Alike.exists_depths (h : b.Alike b') (hb : b.depths pool = .ok (summary, known)) :
    ∃ out, b'.depths pool = .ok out := by
  obtain ⟨⟨x, hx, hlabel⟩, -, depth, hlevels⟩ := (depths_exact b pool).1.1 ⟨_, hb⟩
  obtain ⟨i, hi⟩ := List.mem_iff_getElem?.1 hx
  obtain ⟨j, x', hj, hlabel', -⟩ := h.symm.exists_insn hi hlabel
  refine (depths_exact b' pool).1.2 ⟨⟨x', List.mem_of_getElem? hj, hlabel'⟩, fun g hg => ?_,
    _, h.levels hlevels⟩
  exact h.bound' _ (List.mem_append_right _ (List.mem_map_of_mem hg))

/-- The largest depth of a body is reached in every body like it. -/
theorem Alike.maxDepth_le (h : b.Alike b') (hb : b.depths pool = .ok (summary, known))
    (hb' : b'.depths pool = .ok (summary', known')) : summary.maxDepth ≤ summary'.maxDepth := by
  obtain ⟨depth, hlevels, hs⟩ := exists_levels hb
  have hlevels' := h.levels hlevels
  have hs' := hlevels'.summarizes hb'
  obtain ⟨i, e, hr, he, hmax⟩ := hs.attained
  obtain ⟨insn, hi⟩ : ∃ insn, b.insns[i]? = some insn :=
    ⟨_, List.getElem?_eq_getElem (hlevels.inside i hr)⟩
  obtain ⟨i', hi', hordinal⟩ := h.symm.reaches hlevels' hr
  cases hx : insn.isLabel with
  | true =>
    -- in front of a label the depth is the one behind it
    obtain ⟨l, rfl⟩ := Insn.exists_of_isLabel hx
    cases (effect?_of_label hi).symm.trans he
    obtain ⟨e', he', -⟩ := hlevels'.enough i' hi'
    rw [hmax, after_zero, Depth.max_le, ← hlevels.depthLike_eq hr hordinal.symm]
    exact ⟨(hs'.bounds i' e' hi' he').1, (hs'.bounds i' e' hi' he').1⟩
  | false =>
    obtain ⟨k, x, hk, -, hreach, hordinal', hsame⟩ :=
      h.symm.settles hlevels' hi' hordinal hi hx
    rw [hmax, Depth.max_le, ← hlevels.depthLike_eq hr hordinal'.symm]
    exact hs'.bounds k e hreach ((effect?_eq_of_relabel hk hi hsame).trans he)

theorem Alike.depthsOf_eq (h : b.Alike b') (hb : b.depths pool = .ok (summary, known))
    (hb' : b'.depths pool = .ok (summary', known')) :
    depthsOf b.insns known = depthsOf b'.insns known' := by
  obtain ⟨depth, hlevels, hs⟩ := exists_levels hb
  have hlevels' := h.levels hlevels
  have hs' := hlevels'.summarizes hb'
  have hlength := congrArg List.length h.insns
  rw [List.length_map, List.length_map] at hlength
  refine List.ext_getElem? fun k => ?_
  rw [getElem?_depthsOf hs.length, getElem?_depthsOf hs'.length]
  by_cases hk : k < (unlabeled b.insns).length
  · obtain ⟨hi, hx, hordinal⟩ := getElem?_spot (List.getElem?_eq_getElem hk)
    obtain ⟨hj, hx', hordinal'⟩ := getElem?_spot (List.getElem?_eq_getElem (hlength ▸ hk))
    have hsame := hordinal.trans hordinal'.symm
    obtain ⟨o, ho⟩ : ∃ o, known[spot b.insns k]? = some o :=
      ⟨_, List.getElem?_eq_getElem (hs.length ▸ (List.getElem?_eq_some_iff.1 hi).1)⟩
    obtain ⟨o', ho'⟩ : ∃ o, known'[spot b'.insns k]? = some o :=
      ⟨_, List.getElem?_eq_getElem (hs'.length ▸ (List.getElem?_eq_some_iff.1 hj).1)⟩
    rw [ho, ho']
    congr 1
    -- both depths are known, or both instructions are not reached
    refine Option.ext fun d => ?_
    have hiff := hs.known_iff (spot b.insns k) d
    have hiff' := hs'.known_iff (spot b'.insns k) d
    rw [ho, Option.some.injEq] at hiff
    rw [ho', Option.some.injEq] at hiff'
    rw [hiff, hiff']
    constructor
    · rintro ⟨hr, rfl⟩
      exact ⟨h.symm.reaches_of_ordinal hlevels' hj hx' hsame.symm hr,
        hlevels.depthLike_eq hr hsame⟩
    · rintro ⟨hr, rfl⟩
      have hr' := h.reaches_of_ordinal hlevels hi hx hsame hr
      exact ⟨hr', (hlevels.depthLike_eq hr' hsame).symm⟩
  · rw [spot_of_le (Nat.le_of_not_lt hk), spot_of_le (hlength ▸ Nat.le_of_not_lt hk), ← hs.length,
      ← hs'.length, List.getElem?_eq_none (Nat.le_refl _), List.getElem?_eq_none (Nat.le_refl _)]

/-- The analysis finds the same depths in bodies that are alike, if it finds any. -/
theorem Alike.depths (h : b.Alike b') (pool : Pool) :
    ((∃ out, b.depths pool = .ok out) ↔ ∃ out, b'.depths pool = .ok out) ∧
      ∀ summary known summary' known', b.depths pool = .ok (summary, known) →
        b'.depths pool = .ok (summary', known') →
        summary.maxDepth = summary'.maxDepth ∧
          depthsOf b.insns known = depthsOf b'.insns known' := by
  refine ⟨⟨fun ⟨_, hb⟩ => h.exists_depths hb, fun ⟨_, hb'⟩ => h.symm.exists_depths hb'⟩,
    fun summary known summary' known' hb hb' => ⟨?_, h.depthsOf_eq hb hb'⟩⟩
  exact UInt16.le_antisymm (h.maxDepth_le hb hb') (h.symm.maxDepth_le hb' hb)

end Body

end ClassTemplates
