import ClassTemplates.Proofs.Format.Rereading
import ClassTemplates.Verify.Class

/-!
# Checking what is read back

A frame that comes back in another form has the same offset and mentions the same types. So code
that is read back mentions the same offsets and is taken apart into the same instructions and
handlers, and every check of a class finds the same.

## Main results

- `Code.references_reread`, `Body.ofCode_reread` — code that is read back, taken apart
- `ClassFile.checkMethod_reread`, `ClassFile.verifyOutline_reread` — the checks find the same
- `ClassFile.verifyMethods_reread` — a class that is read back is as well formed as it was
-/

namespace ClassTemplates

/-! ### Code -/

namespace Code

theorem frameReferences_reread (frames : List Frame) :
    frameReferences (frames.map Frame.reread) = frameReferences frames := by
  rw [frameReferences, Frame.offsets_reread, List.zip_map_left, List.flatMap_map]
  simp only [Prod.map, id, Frame.types_reread]
  rfl

theorem attributeReferences_reread (a : Attribute) :
    attributeReferences a.reread = attributeReferences a := by
  obtain ⟨name, content⟩ := a
  cases content with
  | code c =>
    rw [Attribute.reread_code]
    rfl
  | stackMap frames =>
    rw [Attribute.reread_stackMap]
    exact frameReferences_reread frames
  | _ => rw [Attribute.reread]

/-- Code that is read back mentions the same offsets. -/
theorem references_reread (c : Code) (decoded : List (Nat × Insn)) :
    c.reread.references decoded = c.references decoded := by
  simp only [references, reread, List.flatMap_map, attributeReferences_reread]

end Code

/-- Code that is read back is taken apart into the same body, but for the forms of its frames. -/
theorem Body.ofCode_reread (c : Code) : ofCode c.reread =
    (ofCode c).map fun b => { b with attributes := c.reread.attributes.map attributeOfCode } := by
  have hbytes : c.reread.bytes = c.bytes := rfl
  unfold ofCode
  simp only [Code.references_reread, hbytes]
  cases Insn.decode c.bytes with
  | error e => rfl
  | ok decoded =>
    simp only [bind, Except.bind]
    split <;> rfl

/-! ### Methods -/

namespace ClassFile

variable (cls : ClassFile)

theorem checkCode_reread (descriptor : String) (c : Code) :
    cls.reread.checkCode descriptor c.reread = cls.checkCode descriptor c := by
  rw [checkCode, Body.ofCode_reread, checkCode]
  cases Body.ofCode c with
  | error e => rfl
  | ok b => rfl

theorem filterMap_code?_reread (attributes : List Attribute) :
    (attributes.map Attribute.reread).filterMap Attribute.code? =
      (attributes.filterMap Attribute.code?).map Code.reread := by
  simp only [List.filterMap_map, List.map_filterMap, Function.comp_def, Attribute.code?_reread]

/-- A method that is read back is as well formed as it was. -/
theorem checkMethod_reread (m : Member) : cls.reread.checkMethod m.reread = cls.checkMethod m := by
  have hcodes : m.reread.attributes.filterMap Attribute.code? =
      (m.attributes.filterMap Attribute.code?).map Code.reread := filterMap_code?_reread _
  have haccess : m.reread.access = m.access := rfl
  unfold checkMethod
  rw [hcodes, haccess]
  rcases m.attributes.filterMap Attribute.code? with _ | ⟨c, _ | ⟨c', codes⟩⟩
  case cons.nil =>
    simp only [List.map_cons, List.map_nil]
    cases Access.has m.access Access.isAbstract || Access.has m.access Access.isNative with
    | false =>
      simp only [checkCode_reread]
      rfl
    | true => rfl
  all_goals rfl

/-! ### Classes -/

theorem bootstrapPayload?_reread (p : Pool) (a : Attribute) :
    bootstrapPayload? p a.reread = bootstrapPayload? p a := by
  obtain ⟨name, content⟩ := a
  cases content with
  | code c => rw [Attribute.reread_code]; rfl
  | stackMap frames => rw [Attribute.reread_stackMap]; rfl
  | _ => rw [Attribute.reread]

theorem poolFault?_reread : cls.reread.poolFault? = cls.poolFault? := by
  have hbootstrap : cls.reread.hasBootstrapMethods = cls.hasBootstrapMethods := by
    rw [hasBootstrapMethods, reread, List.any_map]
    simp only [Function.comp_def, bootstrapPayload?_reread]
    rfl
  have hfault : cls.reread.constantFault? = cls.constantFault? := by
    funext owner c
    rw [constantFault?, hbootstrap]
    rfl
  rw [poolFault?, hfault]
  rfl

/-- The checks that do not look into methods find the same. -/
theorem verifyOutline_reread : cls.reread.verifyOutline = cls.verifyOutline := by
  have hcount : cls.reread.initializerCount = cls.initializerCount := by
    rw [initializerCount, reread, List.countP_map]
    rfl
  rw [verifyOutline, poolFault?_reread, hcount]
  rfl

/-- A class that is read back is as well formed as it was. -/
theorem verifyMethods_reread (positions : List Nat) :
    cls.reread.verifyMethods positions = cls.verifyMethods positions := by
  have hmethods : (positions.filterMap fun i => cls.reread.methods[i]?) =
      (positions.filterMap fun i => cls.methods[i]?).map Member.reread := by
    simp only [reread, List.getElem?_map, List.map_filterMap]
  have hforM (ms : List Member) :
      (ms.map Member.reread).forM cls.reread.verifyMethod = ms.forM cls.verifyMethod := by
    induction ms with
    | nil => rfl
    | cons m ms ih =>
      have hone : cls.reread.verifyMethod m.reread = cls.verifyMethod m := by
        rw [verifyMethod, checkMethod_reread]
        rfl
      rw [List.map_cons, List.forM, List.forM, hone, ih]
  rw [verifyMethods, verifyOutline_reread, hmethods, hforM, verifyMethods]

end ClassFile

end ClassTemplates
