import CodeEmission.Draft
import CodeEmission.Proofs.Buffer.Growth

/-! # The steps of a layout

What each step of laying out a function does to a draft when it succeeds. Later proofs about layouts
cite these statements and do not open the steps again.
-/

namespace CodeEmission

namespace X86.Instruction

def label? : Instruction → Option LabelId
  | .label l => some l
  | _ => none

theorem encode_eq_flatten (i : Instruction) : i.encode = (i.fields.map Field.bytes).flatten := by
  rw [encode_eq_fields, List.flatMap_def]

end X86.Instruction

namespace Draft

theorem bind_eq_ok {ε α β : Type} {x : Except ε α} {g : α → Except ε β} {b : β} :
    (x >>= g) = .ok b ↔ ∃ a, x = .ok a ∧ g a = .ok b := by
  cases x <;> simp [bind, Except.bind]

variable {d e : Draft}

theorem startBlock_eq_ok {block : BlockId} :
    d.startBlock block = .ok e ↔
      d.locations.blocks.contains block = false ∧
        e = { d with
          log := d.log.push (.blockStarted d.function block d.offset)
          locations := { d.locations with blocks := d.locations.blocks.insert block d.offset } } := by
  unfold startBlock Locations.recordBlock
  by_cases hc : d.locations.blocks.contains block = true
  · simp [hc]
  · simp only [hc, Bool.false_eq_true, ↓reduceIte, Except.ok.injEq, true_and]
    exact eq_comm

theorem startLabel_eq_ok {label : LabelId} :
    d.startLabel label = .ok e ↔
      d.locations.labels.contains label = false ∧
        e = { d with
          locations := { d.locations with labels := d.locations.labels.insert label d.offset } } := by
  unfold startLabel Locations.recordLabel
  by_cases hc : d.locations.labels.contains label = true
  · simp [hc]
  · simp only [hc, Bool.false_eq_true, ↓reduceIte, Except.ok.injEq, true_and]
    exact eq_comm

/-- Labels and source positions are noted, all other instructions are written. -/
theorem emit_cases (i : X86.Instruction) :
    (∃ l, i = .label l) ∨ (∃ line col, i = .debugLoc line col) ∨
      (i.label? = none ∧ ∀ d : Draft, d.emit i = .ok (d.writeCode i)) := by
  cases i with
  | label l => exact .inl ⟨l, rfl⟩
  | debugLoc line col => exact .inr (.inl ⟨line, col, rfl⟩)
  | _ => exact .inr (.inr ⟨rfl, fun _ => rfl⟩)

theorem emit_label (d : Draft) (l : LabelId) : d.emit (.label l) = d.startLabel l := rfl

theorem emit_debugLoc (d : Draft) (line col : UInt32) :
    d.emit (.debugLoc line col) = .ok (d.startLoc { line, col }) := rfl

theorem startLoc_eq (d : Draft) (loc : SourceLoc) :
    ∃ debugLocs, d.startLoc loc = { d with debugLocs } := by
  unfold startLoc
  split
  · exact ⟨d.debugLocs, rfl⟩
  · exact ⟨_, rfl⟩

theorem emit_grows {i : X86.Instruction} (h : d.emit i = .ok e) : d.buffer.Grows e.buffer := by
  rcases emit_cases i with ⟨l, rfl⟩ | ⟨line, col, rfl⟩ | ⟨_, hi⟩
  · rw [emit_label, startLabel_eq_ok] at h
    rw [h.2]
    exact .refl _
  · obtain ⟨debugLocs, hl⟩ := startLoc_eq d { line, col }
    rw [emit_debugLoc, hl] at h
    cases h
    exact .refl _
  · rw [hi] at h
    cases h
    exact CodeBuffer.writeAll_grows _ _

theorem foldlM_emit_cons {i : X86.Instruction} {is : List X86.Instruction} :
    (i :: is).foldlM emit d = .ok e ↔ ∃ c, d.emit i = .ok c ∧ is.foldlM emit c = .ok e := by
  rw [List.foldlM_cons, bind_eq_ok]

theorem foldlM_emit_grows {is : List X86.Instruction} (h : is.foldlM emit d = .ok e) :
    d.buffer.Grows e.buffer := by
  induction is generalizing d with
  | nil =>
    cases h
    exact .refl _
  | cons i is ih =>
    obtain ⟨c, hc, he⟩ := foldlM_emit_cons.1 h
    exact (emit_grows hc).trans (ih he)

theorem emitBlock_eq_ok {b : MachineBlock} :
    d.emitBlock b = .ok e ↔ ∃ c, d.startBlock b.number = .ok c ∧ b.insts.foldlM emit c = .ok e := by
  unfold emitBlock
  exact bind_eq_ok

theorem emitBlock_grows {b : MachineBlock} (h : d.emitBlock b = .ok e) :
    d.buffer.Grows e.buffer := by
  obtain ⟨c, hc, he⟩ := emitBlock_eq_ok.1 h
  rw [startBlock_eq_ok] at hc
  have hg := foldlM_emit_grows he
  rwa [hc.2] at hg

theorem emitBlocks_of_overflowed (h : d.buffer.overflow ≠ none) (bs : List MachineBlock) :
    d.emitBlocks bs = .ok d := by
  cases bs with
  | nil => rfl
  | cons b bs => simp [emitBlocks, CodeBuffer.overflowed, Option.isSome_iff_ne_none.2 h]

theorem emitBlocks_cons (h : d.buffer.overflow = none) {b : MachineBlock} {bs : List MachineBlock} :
    d.emitBlocks (b :: bs) = .ok e ↔ ∃ c, d.emitBlock b = .ok c ∧ c.emitBlocks bs = .ok e := by
  have hfits : d.buffer.overflowed = false := by simp [CodeBuffer.overflowed, h]
  simp only [emitBlocks, hfits, Bool.false_eq_true, ↓reduceIte]
  exact bind_eq_ok

theorem emitBlocks_grows {bs : List MachineBlock} (h : d.emitBlocks bs = .ok e) :
    d.buffer.Grows e.buffer := by
  induction bs generalizing d with
  | nil =>
    cases h
    exact .refl _
  | cons b bs ih =>
    by_cases ho : d.buffer.overflow = none
    · obtain ⟨c, hc, he⟩ := (emitBlocks_cons ho).1 h
      exact (emitBlock_grows hc).trans (ih he)
    · rw [emitBlocks_of_overflowed ho] at h
      cases h
      exact .refl _

theorem placePool_eq_ok {t : Target} {pool : List PoolEntry} (h : d.placePool t pool = .ok e) :
    (ConstantPool.place t pool d.buffer).fault = none ∧
      ∃ log, e = { d with
        buffer := (ConstantPool.place t pool d.buffer).buffer
        layout := { d.layout with constants := (ConstantPool.place t pool d.buffer).offsets }
        log } := by
  unfold placePool at h
  dsimp only at h
  split at h
  · cases h
  · rename_i hf
    cases h
    exact ⟨hf, _, rfl⟩

theorem placePool_of_fault_eq_none {t : Target} {pool : List PoolEntry}
    (h : (ConstantPool.place t pool d.buffer).fault = none) :
    ∃ log, d.placePool t pool = .ok { d with
        buffer := (ConstantPool.place t pool d.buffer).buffer
        layout := { d.layout with constants := (ConstantPool.place t pool d.buffer).offsets }
        log } := by
  unfold placePool
  simp only [h]
  exact ⟨_, rfl⟩

theorem placeTables_eq_ok {t : Target} {info : Option JumpTableInfo}
    (h : d.placeTables t info = .ok e) :
    ∃ buffer jumpTables log, JumpTableLayout.reserve t info d.buffer = .ok (buffer, jumpTables) ∧
      e = { d with buffer, log, layout := { d.layout with jumpTables } } := by
  unfold placeTables at h
  split at h
  · cases h
  · rename_i buffer jumpTables hr
    cases h
    exact ⟨buffer, jumpTables, _, hr, rfl⟩

theorem placeTables_of_reserve {t : Target} {info : Option JumpTableInfo} {buffer : CodeBuffer}
    {jumpTables : Option JumpTableLayout}
    (h : JumpTableLayout.reserve t info d.buffer = .ok (buffer, jumpTables)) :
    ∃ log, d.placeTables t info =
      .ok { d with buffer, log, layout := { d.layout with jumpTables } } := by
  unfold placeTables
  simp only [h]
  exact ⟨_, rfl⟩

end Draft

end CodeEmission
