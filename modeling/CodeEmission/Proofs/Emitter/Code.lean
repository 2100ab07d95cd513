import CodeEmission.Proofs.Emitter.Transparency

/-! # The code of a committed function

What is committed for a function is exactly its code: the encodings of its instructions, one after
another and nothing else, with every block and label where it stands among them.
-/

namespace CodeEmission

open X86.Instruction

namespace FunctionRecord

/-- A record whose bytes and locations are those of a function. -/
structure Holds (r : FunctionRecord) (f : MachineFunction) : Prop where
  code : r.code.toList = f.encode
  size : r.size = f.encode.length
  block_offset : ∀ before b after, f.blocks = before ++ b :: after →
    r.blockOffset b.number = .ok (r.codeOffset + (encodeAll (before.flatMap (·.insts))).length)
  label_offset : ∀ before l after, f.instructions = before ++ .label l :: after →
    r.labelOffset l = .ok (r.codeOffset + (encodeAll before).length)
  block_found : ∀ b, (∃ offset, r.blockOffset b = .ok offset) ↔ b ∈ f.blocks.map (·.number)
  label_found : ∀ l, (∃ offset, r.labelOffset l = .ok offset) ↔
    X86.Instruction.label l ∈ f.instructions

theorem blockOffset_eq_ok {r : FunctionRecord} {b : BlockId} {offset : Nat} :
    r.blockOffset b = .ok offset ↔ r.locations.block? b = some offset := by
  unfold blockOffset
  split <;> simp_all

theorem labelOffset_eq_ok {r : FunctionRecord} {l : LabelId} {offset : Nat} :
    r.labelOffset l = .ok offset ↔ r.locations.label? l = some offset := by
  unfold labelOffset
  split <;> simp_all

end FunctionRecord

namespace X86

theorem Instruction.label?_eq_some {i : Instruction} {l : LabelId} :
    i.label? = some l ↔ i = .label l := by
  cases i <;> simp [label?]

theorem length_memoryOperand_le (reg : UInt8) (base : Register) (disp : Int32) :
    ((memoryOperand reg base disp).flatMap Field.bytes).length ≤ 6 := by
  unfold memoryOperand
  dsimp only
  split <;> split <;> (try split) <;> simp [Field.bytes, halfOf, byteOf]

/-- No machine operation has more bytes than a move of a 64-bit immediate. -/
theorem Operation.length_bytes_le (op : Operation) : op.bytes.length ≤ 10 := by
  cases op with
  | load dst base disp =>
    have h := length_memoryOperand_le dst.code base disp
    simp only [bytes, fields, rexW, Field.bytes, List.flatMap_cons, List.length_append,
      List.length_singleton]
    omega
  | store base disp src =>
    have h := length_memoryOperand_le src.code base disp
    simp only [bytes, fields, rexW, Field.bytes, List.flatMap_cons, List.length_append,
      List.length_singleton]
    omega
  | _ =>
    simp only [bytes, fields, registerForm, immediateForm, relativeForm, rexIfExtended]
    (try split) <;> simp [rexW, byteOf, halfOf, Field.bytes]

theorem Instruction.length_encode_le (i : Instruction) : i.encode.length ≤ 20 := by
  have hops : i.operations.length ≤ 2 := by
    cases i <;> simp [operations]
  have hsum (ops : List Operation) : (ops.flatMap Operation.bytes).length ≤ 10 * ops.length := by
    induction ops with
    | nil => simp
    | cons op ops ih =>
      have hop := op.length_bytes_le
      simp only [List.flatMap_cons, List.length_append, List.length_cons]
      omega
  have hall := hsum i.operations
  rw [encode]
  omega

end X86

namespace Draft

variable {c d : Draft} {t : Target} {f : MachineFunction} {b : CodeBuffer}

theorem commit_holds (hc : c.Bare t f b)
    (h : c.Extends f.instructions (MachineBlock.startsFrom c.offset f.blocks) d) (id : FuncId) :
    (d.commit id).Holds f := by
  have hstart : d.codeOffset = c.offset := h.codeOffset.trans hc.codeOffset
  have hsize : (d.commit id).size = f.encode.length := by
    change d.offset - d.codeOffset = _
    rw [h.offset, hstart, Nat.add_sub_cancel_left]
    rfl
  have hblock (n : BlockId) (o : Nat) : (d.commit id).blockOffset n = .ok o ↔
      (n, o) ∈ MachineBlock.startsFrom c.offset f.blocks := by
    rw [FunctionRecord.blockOffset_eq_ok]
    refine (h.block? n o).trans (or_iff_right ?_)
    rw [hc.locations]
    intro hn
    cases hn
  have hlabel (l : LabelId) (o : Nat) : (d.commit id).labelOffset l = .ok o ↔
      (l, o) ∈ labelsFrom c.offset f.instructions := by
    rw [FunctionRecord.labelOffset_eq_ok]
    refine (h.label? l o).trans (or_iff_right ?_)
    rw [hc.locations]
    intro hn
    cases hn
  refine ⟨?_, hsize, ?_, ?_, ?_, ?_⟩
  · have hcontents : d.buffer.block.contents = c.buffer.code ++ f.encode.toArray := h.code
    have hcode : (d.commit id).code = Bytes.padTo f.encode.length
        ((c.buffer.code ++ f.encode.toArray).extract c.offset (c.offset + f.encode.length)) := by
      rw [← hcontents, ← hstart, ← hsize]
      rfl
    have hlen : c.offset = c.buffer.code.size := rfl
    rw [hcode, hlen, Bytes.padTo]
    simp
  · intro before b after hsplit
    rw [hblock, hsplit, MachineBlock.startsFrom_append]
    refine List.mem_append_right _ ?_
    change (b.number, d.codeOffset + _) ∈ _
    rw [hstart]
    exact List.mem_cons_self
  · intro before l after hsplit
    rw [hlabel, hsplit]
    change (l, d.codeOffset + _) ∈ _
    rw [hstart]
    exact mem_labelsFrom c.offset before after l
  · intro n
    rw [← MachineBlock.map_fst_startsFrom c.offset f.blocks, List.mem_map]
    constructor
    · rintro ⟨o, ho⟩
      exact ⟨(n, o), (hblock n o).1 ho, rfl⟩
    · rintro ⟨⟨_, o⟩, ho, rfl⟩
      exact ⟨o, (hblock _ o).2 ho⟩
  · intro l
    have hmem : X86.Instruction.label l ∈ f.instructions ↔
        l ∈ (labelsFrom c.offset f.instructions).map (·.1) := by
      rw [map_fst_labelsFrom, List.mem_filterMap]
      constructor
      · intro hl
        exact ⟨_, hl, rfl⟩
      · rintro ⟨i, hi, hil⟩
        rwa [label?_eq_some.1 hil] at hi
    rw [hmem, List.mem_map]
    constructor
    · rintro ⟨o, ho⟩
      exact ⟨(l, o), (hlabel l o).1 ho, rfl⟩
    · rintro ⟨⟨_, o⟩, ho, rfl⟩
      exact ⟨o, (hlabel _ o).2 ho⟩

theorem emit_into_empty (name : String) (i : X86.Instruction) {capacity : Nat}
    (h : i.encode.length ≤ capacity) :
    ∃ d, Draft.emit { function := name, buffer := .ofCapacity capacity } i = .ok d ∧
      d.buffer.overflow = none ∧ d.buffer.code.toList = i.encode := by
  have hi : CodeBuffer.Intact (.ofCapacity capacity) := CodeBuffer.ofCapacity_intact capacity
  have hemit : ∃ d, Draft.emit { function := name, buffer := .ofCapacity capacity } i = .ok d ∧
      d.buffer.overflow = none := by
    rcases emit_cases i with ⟨l, rfl⟩ | ⟨line, col, rfl⟩ | ⟨_, hw⟩
    · exact ⟨_, (emit_label _ l).trans (startLabel_eq_ok.2 ⟨rfl, rfl⟩), rfl⟩
    · exact ⟨_, rfl, rfl⟩
    · refine ⟨_, hw _, CodeBuffer.writeAll_of_le hi ?_⟩
      rw [← encode_eq_flatten]
      have hword : i.encode.length ≤ Word.largest := i.length_encode_le.trans (by decide)
      change 0 + _ ≤ min capacity Word.largest
      rw [Nat.zero_add]
      exact Nat.le_min.2 ⟨h, hword⟩
  obtain ⟨d, hd, ho⟩ := hemit
  refine ⟨d, hd, ho, ?_⟩
  rw [(emit_extends hi hd ho).code]
  simp [CodeBuffer.ofCapacity, CodeBuffer.code]

end Draft

namespace Emitter

/-- A committed function is exactly its code, and a function in which a block or a label occurs
twice is never committed. -/
theorem emitFunction_code (em : Emitter) (f : MachineFunction) :
    (∀ name (i : X86.Instruction) capacity, i.encode.length ≤ capacity →
        ∃ d, Draft.emit { function := name, buffer := .ofCapacity capacity } i = .ok d ∧
          d.buffer.overflow = none ∧ d.buffer.code.toList = i.encode) ∧
      (∀ address, (em.emitFunction f).2 = .ok address →
        ∃ r, (em.emitFunction f).1.function? f.id = some r ∧ r.Holds f) ∧
      (¬(f.blocks.map (·.number)).Nodup ∨ ¬(f.instructions.filterMap label?).Nodup →
        (∀ address, (em.emitFunction f).2 ≠ .ok address) ∧
          ((em.emitFunction f).1.function? f.id = none ∨
            (em.emitFunction f).1.function? f.id = em.function? f.id)) := by
  refine ⟨fun name i capacity h => Draft.emit_into_empty name i h, ?_, ?_⟩
  · intro address hok
    obtain ⟨block, d, hfresh, hlay, hfits, hfound, _⟩ := committed_of_emitFunction hok
    obtain ⟨c, hc, he⟩ :=
      Draft.layOut_extends hfresh.intact hlay (CodeBuffer.overflow_of_exhausted hfits)
    exact ⟨d.commit f.id, hfound, Draft.commit_holds hc he f.id⟩
  · intro htwice
    have hnot (address : UInt64) : (em.emitFunction f).2 ≠ .ok address := by
      intro hok
      obtain ⟨block, d, hfresh, hlay, hfits, _, _⟩ := committed_of_emitFunction hok
      obtain ⟨c, _, he⟩ :=
        Draft.layOut_extends hfresh.intact hlay (CodeBuffer.overflow_of_exhausted hfits)
      rcases htwice with hblocks | hlabels
      · have hn := he.blocks_nodup
        rw [MachineBlock.map_fst_startsFrom] at hn
        exact hblocks hn
      · have hn := he.labels_nodup
        rw [map_fst_labelsFrom] at hn
        exact hlabels hn
    refine ⟨hnot, ?_⟩
    cases hd : em.patchedDependents f.id with
    | error e =>
      rw [emitFunction_of_error hd]
      exact .inr rfl
    | ok ids =>
      obtain ⟨result, he, hresult⟩ := emitFunction_emission hd
      have ho := he.outcome
      cases ho with
      | committed => exact absurd (hresult.trans (check_eq_ok.2 rfl)) (hnot _)
      | refused dropped => exact dropped
      | failed _ _ _ dropped => exact dropped
      | cutOff _ _ functions => exact .inr (congrArg (·.get? f.id) functions)

theorem emitFunction_code_nopRet :
    ∃ r, ((new .x86_64 {} {} {}).emitFunction .nopRet).1.function? ⟨0⟩ = some r ∧
      r.Holds .nopRet := by
  have hok : ((new .x86_64 {} {} {}).emitFunction .nopRet).2 = .ok 0x1000000000 := by decide +kernel
  exact (emitFunction_code (new .x86_64 {} {} {}) .nopRet).2.1 0x1000000000 hok

end Emitter

end CodeEmission
