import Mathlib.Order.Monotone.Defs
import Mathlib.Data.Set.Defs
import ClassTemplates.Proofs.Body.Tables

/-!
# Relocation

A body made from code, with some of its loads expanded and possibly instructions in front, is laid
out such that one increasing map takes every old offset to its new one: in branches, in the tables
beside the code and for the instructions themselves.

## Main definitions

- `Body.EditOf` — a body made from code, with loads expanded and instructions in front
- `Splice.Relocates` — how such a body is laid out

## Main results

- `Splice.knows_of_isPlace` — the layout knows where each offset went
- `Splice.reads_relocated` — what the new bytes read as
- `Body.EditOf.relocates` — the layout of such a body
- `Expander.toCode_moves` — relocation as a whole
-/

namespace ClassTemplates

namespace Splice

variable {used : Nat → Bool} {start stop o : Nat} {zs : List (Nat × Splice)} {φ : Nat → Nat}
  {c : Code} {decoded : List (Nat × Insn)} {pre : List Insn}

theorem located_mark {f : Label → Label} :
    Layout.located start ((mark used o).map (Insn.relabel f)) = [] := by
  unfold mark
  split <;> rfl

/-- Labels take no part in what is read. -/
theorem located_marked {f : Label → Label} :
    Layout.located start ((marked used stop zs).map (Insn.relabel f)) =
      Layout.located start ((afterAll zs).map (Insn.relabel f)) := by
  induction zs generalizing start with
  | nil => exact located_mark
  | cons z zs ih =>
    rw [marked, afterAll_cons, List.map_append, List.map_append, List.map_append,
      Layout.located_append, Layout.located_append, Layout.located_append, located_mark,
      List.nil_append, Layout.stop_relabel, Layout.stop_relabel, Layout.stop_relabel, stop_mark, ih]

/-- What stands in the place of an instruction is read at its position. -/
theorem located_infix (h : Fresh stop zs) {f : Label → Label} {z : Nat × Splice} (hz : z ∈ zs) :
    Layout.located (position start zs z.1) (z.2.result.map (Insn.relabel f)) <:+:
      Layout.located start ((afterAll zs).map (Insn.relabel f)) := by
  induction zs generalizing start with
  | nil => cases hz
  | cons y zs ih =>
    rw [afterAll_cons, List.map_append, Layout.located_append, Layout.stop_relabel, position]
    rcases List.mem_cons.1 hz with rfl | hz
    · rw [if_pos rfl]
      exact List.infix_append' [] _ _
    · have hlt := h.head_lt (.inl (List.mem_map_of_mem hz))
      rw [if_neg (Nat.ne_of_gt hlt)]
      exact (ih h.tail hz).trans (List.suffix_append _ _).isInfix

/-- The first offset goes to where everything starts. -/
theorem position_zero (hd : Insn.Reads (.start c.bytes) decoded)
    (hzs : zs.map (fun z => (z.1, z.2.insn)) = decoded) : position start zs 0 = start := by
  cases zs with
  | nil => rfl
  | cons z zs =>
    rw [← hzs] at hd
    have hz : z.1 = 0 := hd.fst_head
    rw [position, if_pos hz.symm]

theorem mem_marked {i : Insn} (h : i ∈ marked used stop zs) :
    i.isLabel = true ∨ ∃ z ∈ zs, i ∈ z.2.result := by
  have hlabel {o : Nat} (h : i ∈ mark used o) : i.isLabel = true := by
    rw [(mem_mark.1 h).2]
    rfl
  induction zs with
  | nil => exact .inl (hlabel h)
  | cons z zs ih =>
    rcases List.mem_append.1 h with h | h
    · exact .inl (hlabel h)
    · rcases List.mem_append.1 h with h | h
      · exact .inr ⟨z, List.mem_cons_self, h⟩
      · obtain hl | ⟨y, hy, hi⟩ := ih h
        · exact .inl hl
        · exact .inr ⟨y, List.mem_cons_of_mem _ hy, hi⟩

/-- What stands in the place of an instruction of code is that instruction, or takes no branch. -/
theorem mem_result (hd : Insn.Reads (.start c.bytes) decoded)
    (hzs : zs.map (fun z => (z.1, z.2.insn)) = decoded) (hload : OfLoads (zs.map (·.2)))
    {z : Nat × Splice} (hz : z ∈ zs) {i : Insn} (hi : i ∈ z.2.result) :
    i.WellShaped ∧ ∀ l ∈ i.targets, l.id ∈ c.references decoded := by
  refine ⟨wellShaped_of_mem_result hd hzs hload hz hi, fun l hl => ?_⟩
  cases hc : z.2.code with
  | none =>
    rw [result_of_none hc, List.mem_singleton] at hi
    rw [hi] at hl
    have hin : (z.1, z.2.insn) ∈ decoded := hzs ▸ List.mem_map_of_mem hz
    have htarget : l.id ∈ decoded.flatMap fun x => x.2.targets.map (·.id) :=
      List.mem_flatMap.2 ⟨_, hin, List.mem_map_of_mem hl⟩
    exact List.mem_append_left _ (List.mem_append_left _ htarget)
  | some code =>
    rw [result_of_some hc] at hi
    have hemit := (hload z.2 (List.mem_map_of_mem hz) code hc).2.2 i hi
    rw [(Insn.wellShaped_of_emitted hemit).2] at hl
    cases hl

/-- The instructions of a spliced body are labels or well-shaped, and branch to offsets that the
code mentions. -/
theorem wellShaped_of_mem_marked (hd : Insn.Reads (.start c.bytes) decoded)
    (hzs : zs.map (fun z => (z.1, z.2.insn)) = decoded) (hload : OfLoads (zs.map (·.2)))
    {i : Insn} (hi : i ∈ marked used stop zs) :
    (i.isLabel = true ∨ i.WellShaped) ∧ ∀ l ∈ i.targets, l.id ∈ c.references decoded := by
  obtain hlabel | ⟨z, hz, hi⟩ := mem_marked hi
  · refine ⟨.inl hlabel, fun l hl => ?_⟩
    obtain ⟨l', rfl⟩ := Insn.exists_of_isLabel hlabel
    cases hl
  · obtain ⟨hw, htargets⟩ := mem_result hd hzs hload hz hi
    exact ⟨.inr hw, htargets⟩

/-- The layout finds the label of an offset where that went to, behind instructions in front of the
code. -/
theorem labelOffset?_behind (h : Fresh stop zs) (hu : used o = true)
    (ho : o ∈ zs.map (·.1) ∨ o = stop) :
    Layout.labelOffset? 0 (pre ++ marked used stop zs) ⟨o⟩ =
      some (position (Layout.stop 0 pre) zs o) := by
  rw [Layout.labelOffset?_append, labelOffset?_marked h hu ho]
  rfl

/-- The layout knows where the offset of a label went. -/
theorem knows_of_isPlace (h : Fresh stop zs) (hu : used o = true)
    (ho : o ∈ zs.map (·.1) ∨ o = stop)
    (hlen : Layout.stop 0 (pre ++ marked used stop zs) ≤ 65535) :
    Layout.Knows (Layout.placeIn (pre ++ marked used stop zs))
      (position (Layout.stop 0 pre) zs) o := by
  refine ⟨Layout.placeIn_of_labelOffset? (labelOffset?_behind h hu ho), ?_⟩
  rw [Layout.stop_append, stop_marked] at hlen
  exact Nat.le_trans position_le hlen

/-- The bytes behind the instructions in front read as what stands in the place of each instruction,
with the labels of moved offsets. -/
theorem reads_relocated (hd : Insn.Reads (.start c.bytes) decoded)
    (hzs : zs.map (fun z => (z.1, z.2.insn)) = decoded) (hload : OfLoads (zs.map (·.2)))
    {place : Label → Except LayoutError Nat} {bytes : Bytes}
    (hplace : ∀ o ∈ c.references decoded, Layout.Knows place φ o)
    (hlen : Layout.stop start (marked used stop zs) ≤ 65535)
    (hb : Layout.Encodes place start (marked used stop zs) bytes) :
    Insn.Reads ⟨bytes, start⟩
      (Layout.located start ((afterAll zs).map (Insn.relabel (Label.moved φ)))) := by
  rw [← located_marked]
  refine hb.reads (fun i hi => ?_) (fun i hi l hl => ?_) hlen
  · exact (wellShaped_of_mem_marked hd hzs hload hi).1
  · exact hplace _ ((wellShaped_of_mem_marked hd hzs hload hi).2 l hl)

/-! ### Edits -/

/-- The code `c'` has the old instructions where they went, behind instructions in front, and tables
that moved along. -/
structure Relocates (c c' : Code) (decoded : List (Nat × Insn)) (pre : List Insn)
    (zs : List (Nat × Splice)) : Prop where
  reads : Insn.Reads (.start c.bytes) decoded
  places : ∀ o ∈ c.references decoded, c.IsPlace decoded o
  spliced : zs.map (fun z => (z.1, z.2.insn)) = decoded
  loads : OfLoads (zs.map (·.2))
  bytes : ∃ place, (∀ o ∈ c.references decoded,
      Layout.Knows place (position (Layout.stop 0 pre) zs) o) ∧
    Layout.Encodes place 0 (pre ++ marked (c.references decoded).contains c.bytes.length zs)
      c'.bytes
  length : c'.bytes.length = Layout.stop (Layout.stop 0 pre) (afterAll zs)
  length_le : c'.bytes.length ≤ 65535
  moved : Code.Moved (position (Layout.stop 0 pre) zs) c c'

theorem Relocates.fresh {c' : Code} (h : Relocates c c' decoded pre zs) :
    Fresh c.bytes.length zs :=
  fresh_of_reads h.reads h.spliced h.loads

theorem isPlace_iff (hzs : zs.map (fun z => (z.1, z.2.insn)) = decoded) :
    c.IsPlace decoded o ↔ o ∈ zs.map (·.1) ∨ o = c.bytes.length := by
  have hfst : zs.map (·.1) = decoded.map (·.1) := by
    rw [← hzs, List.map_map]
    rfl
  rw [hfst]
  rfl

theorem strictMonoOn_position (h : Fresh stop zs) :
    StrictMonoOn (position start zs) {o | o ∈ zs.map (·.1) ∨ o = stop} := by
  rintro o (ho | rfl) o' ho' hlt
  · exact position_lt_position h ho ho' hlt
  · exfalso
    rcases ho' with ho' | rfl
    · obtain ⟨z, hz, rfl⟩ := List.mem_map.1 ho'
      exact Nat.lt_asymm hlt (h.bounded z hz)
    · exact Nat.lt_irrefl _ hlt

end Splice

namespace Body

/-- The body is made from code, with some of its loads expanded and instructions in front. -/
structure EditOf (c : Code) (decoded : List (Nat × Insn)) (pre : List Insn) (xs : List Splice)
    (b : Body) : Prop where
  reads : Insn.Reads (.start c.bytes) decoded
  places : ∀ o ∈ c.references decoded, c.IsPlace decoded o
  before : Splice.before xs = (decodedAs c decoded).insns
  loads : Splice.OfLoads xs
  insns : b.insns = pre ++ Splice.after xs
  handlers : b.handlers = c.handlers.map handlerOfCode
  attributes : b.attributes = c.attributes.map attributeOfCode
  maxLocals : b.maxLocals = c.maxLocals
  maxStack : b.maxStack = c.maxStack

/-- A body that code is taken apart into is an edit in which nothing is replaced. -/
theorem exists_editOf_of_ofCode {c : Code} {b : Body} (h : ofCode c = .ok b) :
    ∃ decoded xs, b.EditOf c decoded [] xs := by
  obtain ⟨decoded, hd, href, rfl⟩ := ofCode_eq_ok.1 h
  refine ⟨decoded, (decodedAs c decoded).insns.map fun i => ⟨i, none⟩, ?_⟩
  exact {
    reads := hd
    places := href
    before := by
      rw [Splice.before, List.map_map]
      exact List.map_id' _
    loads := by
      intro x hx code hcode
      obtain ⟨i, -, rfl⟩ := List.mem_map.1 hx
      cases hcode
    insns := by simp [Splice.after, List.flatMap_map, Splice.result]
    handlers := rfl
    attributes := rfl
    maxLocals := rfl
    maxStack := rfl }

/-- The splices of an edit are splices in the instructions of its code. -/
theorem EditOf.exists_marked {c : Code} {decoded : List (Nat × Insn)} {pre : List Insn}
    {xs : List Splice} {b : Body} (h : b.EditOf c decoded pre xs) :
    ∃ zs : List (Nat × Splice), zs.map (fun z => (z.1, z.2.insn)) = decoded ∧
      Splice.OfLoads (zs.map (·.2)) ∧ Splice.Fresh c.bytes.length zs ∧
      Splice.after xs = Splice.marked (c.references decoded).contains c.bytes.length zs ∧
      (∀ o ∈ c.references decoded, o ∈ zs.map (·.1) ∨ o = c.bytes.length) ∧
      Splice.replaced (zs.map (·.2)) = Splice.replaced xs := by
  obtain ⟨zs, hzs, hload, hafter, hreplaced⟩ := Splice.exists_marked h.before h.loads
  refine ⟨zs, hzs, hload, Splice.fresh_of_reads h.reads hzs hload, hafter, fun o ho => ?_,
    hreplaced⟩
  exact (Splice.isPlace_iff hzs).1 (h.places o ho)

/-- An edit that can be laid out is relocated. -/
theorem EditOf.relocates {c c' : Code} {decoded : List (Nat × Insn)} {pre : List Insn}
    {xs : List Splice} {b : Body} {maxStack : UInt16} (h : b.EditOf c decoded pre xs)
    (hc : b.toCode maxStack = .ok c') :
    c'.maxStack = maxStack ∧ ∃ zs,
      Splice.replaced (zs.map (·.2)) = Splice.replaced xs ∧
      Splice.Relocates c c' decoded pre zs := by
  obtain ⟨zs, hzs, hload, hfresh, hafter, hplace, hreplaced⟩ := h.exists_marked
  rw [Layout.toCode_eq_ok, h.insns, hafter, h.handlers, h.attributes, h.maxLocals] at hc
  obtain ⟨hlen, hbytes, hhandlers, hattributes, hstack, hlocals⟩ := hc
  have hknows : ∀ o ∈ c.references decoded, Layout.Knows _ _ o := fun o ho =>
    Splice.knows_of_isPlace hfresh (List.contains_iff_mem.2 ho) (hplace o ho) hlen
  have hbytes := Layout.bytes_eq_ok.1 hbytes
  have hend : c'.bytes.length = Layout.stop (Layout.stop 0 pre) (Splice.afterAll zs) := by
    rw [hbytes.length_eq_stop, Layout.stop_append, Splice.stop_marked]
  rw [Layout.stop_append, Splice.stop_marked, ← hend] at hlen
  refine ⟨hstack, zs, hreplaced, h.reads, h.places, hzs, hload, ?_, hend, hlen, hlocals, ?_, ?_⟩
  · exact ⟨_, hknows, hbytes⟩
  · rw [List.mapM_map] at hhandlers
    refine forall₂_of_mapM_eq_ok hhandlers fun h hh h' => Layout.moved_of_handler fun o ho => ?_
    exact hknows o
      (List.mem_append_left _ (List.mem_append_right _ (List.mem_flatMap.2 ⟨h, hh, ho⟩)))
  · rw [List.mapM_map] at hattributes
    refine forall₂_of_mapM_eq_ok hattributes fun a ha a' => ?_
    have hin : ∀ o ∈ Code.attributeReferences a, o ∈ c.references decoded := fun o ho =>
      List.mem_append_right _ (List.mem_flatMap.2 ⟨a, ha, ho⟩)
    refine Layout.moved_of_bodyAttribute (fun o ho => hknows o (hin o ho)) ?_
    intro o ho o' ho' hle
    exact (Splice.strictMonoOn_position hfresh).monotoneOn (hplace o (hin o ho))
      (hplace o' (hin o' ho')) hle

/-- What a body with expanded loads is an edit of. -/
theorem editOf_expandBody {catalog : Catalog} {lookup : LookupMethod} {e e' : Expander} {c : Code}
    {b b₁ : Body} {n : Nat} (hb : ofCode c = .ok b)
    (hx : (Expander.expandBody catalog lookup b).run e = (.ok (n, b₁), e')) (pre : List Insn) :
    ∃ decoded xs, (b₁.prepend pre).EditOf c decoded pre xs ∧
      Expander.Expands catalog lookup e xs e' ∧ n = xs.countP (·.code.isSome) := by
  obtain ⟨decoded, hd, href, rfl⟩ := ofCode_eq_ok.1 hb
  obtain ⟨xs, hbefore, hexp, rfl, hn⟩ := Expander.expandBody_eq_ok hx
  exact ⟨decoded, xs, ⟨hd, href, hbefore, hexp.ofLoads, rfl, rfl, rfl, rfl, rfl⟩, hexp, hn⟩

end Body

namespace Expander

variable {catalog : Catalog} {lookup : LookupMethod} {e e' : Expander} {c c' : Code} {b b₁ : Body}
  {n : Nat} {pre : List Insn} {maxStack : UInt16}

/-- The code of an expanded body, possibly with instructions in front, has everything of the old
code at the place where an increasing map takes its old one, in the tables as in the branches. -/
theorem toCode_moves (hb : Body.ofCode c = .ok b)
    (hx : (expandBody catalog lookup b).run e = (.ok (n, b₁), e'))
    (hc : (b₁.prepend pre).toCode maxStack = .ok c') :
    ∃ (zs : List (Nat × Splice)) (φ : Nat → Nat),
      Insn.decode c.bytes = .ok (zs.map fun z => (z.1, z.2.insn)) ∧
      Splice.OfLoads (zs.map (·.2)) ∧
      StrictMonoOn φ {o | o ∈ zs.map (·.1) ∨ o = c.bytes.length} ∧
      φ 0 = Layout.stop 0 pre ∧ φ c.bytes.length = c'.bytes.length ∧ c'.bytes.length ≤ 65535 ∧
      Insn.decodeOnto #[] ⟨c'.bytes.drop (φ 0), φ 0⟩ = .ok (Layout.located (φ 0)
        ((Splice.afterAll zs).map (Insn.relabel (Label.moved φ)))).toArray ∧
      (∀ z ∈ zs, Layout.located (φ z.1) (z.2.result.map (Insn.relabel (Label.moved φ))) <:+:
        Layout.located (φ 0) ((Splice.afterAll zs).map (Insn.relabel (Label.moved φ)))) ∧
      Code.Moved φ c c' ∧ c'.maxStack = maxStack := by
  obtain ⟨decoded, xs, hedit, -, -⟩ := Body.editOf_expandBody hb hx pre
  obtain ⟨hstack, zs, -, hrel⟩ := hedit.relocates hc
  have hfresh := hrel.fresh
  have hzero : Splice.position (Layout.stop 0 pre) zs 0 = Layout.stop 0 pre :=
    Splice.position_zero hrel.reads hrel.spliced
  refine ⟨zs, Splice.position (Layout.stop 0 pre) zs, ?_, hrel.loads,
    Splice.strictMonoOn_position hfresh, hzero, ?_, hrel.length_le, ?_, ?_, hrel.moved, hstack⟩
  · rw [hrel.spliced]
    exact Insn.decode_eq_ok.2 hrel.reads
  · rw [Splice.position_of_notMem hfresh.stop_notMem, hrel.length]
  · obtain ⟨place, hknows, hencodes⟩ := hrel.bytes
    obtain ⟨front, back, hbytes, hfront, hback⟩ := hencodes.split
    have hstart : front.length = Layout.stop 0 pre := by
      rw [← hfront.length, Nat.zero_add]
    have hlen : Layout.stop (Layout.stop 0 pre)
        (Splice.marked (c.references decoded).contains c.bytes.length zs) ≤ 65535 := by
      rw [Splice.stop_marked, ← hrel.length]
      exact hrel.length_le
    rw [hzero, hbytes, List.drop_left' hstart]
    exact Insn.decodeOnto_eq_ok.2
      ⟨_, Splice.reads_relocated hrel.reads hrel.spliced hrel.loads hknows hlen hback, rfl⟩
  · rw [hzero]
    exact fun z hz => Splice.located_infix hfresh hz

theorem toCode_moves_line :
    ∃ (c' : Code) (φ : Nat → Nat), φ 0 = 1 ∧ φ 3 = c'.bytes.length ∧
      Code.Moved φ ⟨1, 0, [0x12, 2, 0xb0], [], [⟨3, .lineNumbers [⟨0, 7⟩, ⟨2, 8⟩]⟩]⟩ c' := by
  let c : Code := ⟨1, 0, [0x12, 2, 0xb0], [], [⟨3, .lineNumbers [⟨0, 7⟩, ⟨2, 8⟩]⟩]⟩
  have hd : Insn.decode c.bytes = .ok [(0, .ldc 2), (2, .op 0xb0)] := by decide +kernel
  have href : ∀ o ∈ c.references [(0, .ldc 2), (2, .op 0xb0)],
      c.IsPlace [(0, .ldc 2), (2, .op 0xb0)] o := by
    simp [c, Code.references, Code.attributeReferences, Code.IsPlace, Insn.targets]
  have hb := Body.ofCode_eq_ok.2 ⟨_, Insn.decode_eq_ok.1 hd, href, rfl⟩
  have hok : ((expandBody ⟨#[⟨"app", "key", "\x60BuildConfig#m#v\x60"⟩]⟩ ⟨"Config", "get"⟩
      (Body.decodedAs c [(0, .ldc 2), (2, .op 0xb0)])).run
      (ofPool ⟨#[.utf8 "\x60BuildConfig#m#v\x60", .string 1]⟩)).1.map (·.2.insns) =
        .ok [.label ⟨0⟩, .type 187 4, .op 89, .invoke 183 8, .ldc 24, .ldc 26, .ldc 2,
          .invoke 184 22, .invoke 182 12, .invoke 182 16, .label ⟨2⟩, .op 0xb0] := by
    decide +kernel
  obtain ⟨⟨n, b₁⟩, e', hx, hins⟩ := exists_of_map_eq_ok hok
  obtain ⟨xs, -, -, hb₁, -⟩ := expandBody_eq_ok hx
  have hlayout : ((b₁.prepend [.op 0]).toCode 5).isOk = true := by
    rw [hb₁] at hins ⊢
    simp only at hins
    rw [hins, Layout.toCode_eq]
    decide +kernel
  obtain ⟨c', hc⟩ := exists_of_isOk hlayout
  obtain ⟨zs, φ, -, -, -, hzero, hend, -, -, -, hmoved, -⟩ := toCode_moves hb hx hc
  exact ⟨c', φ, hzero, hend, hmoved⟩

end Expander

end ClassTemplates
