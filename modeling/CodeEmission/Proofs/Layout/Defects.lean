import CodeEmission.Proofs.Layout.Errors
import CodeEmission.Proofs.Layout.Places

/-! # Which defect is found

Laying out a function stops at the first defect: in the pool, in the jump tables, or in a block or
label that comes twice. The size of the buffer decides only how far a layout gets. But constants are
looked at only if there is room for the pool, while tables that cannot be had are refused in any
case, and so a function with both defects is refused for one or the other.
-/

namespace CodeEmission

namespace MachineFunction

variable {f : MachineFunction} {e tables : EmitError} {capacity : Nat}

/-- The defect of the pool that is found in an empty buffer. Constants are looked at only if there
is room for all of them. -/
def poolDefect? (f : MachineFunction) (capacity : Nat) : Option EmitError :=
  match f.constantPool.findIdx? (·.isMachine) with
  | some index => some (.machineConstantPoolEntry index)
  | none =>
    if !ConstantPool.hasSize .x86_64 f.constantPool then some (.crash .sum)
    else if f.poolSize < capacity then f.poolPlan.fault
    else none

def tablesDefect? (f : MachineFunction) : Option EmitError :=
  match f.jumpTables with
  | none => none
  | some info =>
    if info.tables = [] ∨ info.kind = .inline then none
    else if info.kind = .gpRel64BlockAddress then some (.unsupportedJumpTable .gpRel64BlockAddress)
    else if Word.largest < info.numEntries * Target.x86_64.jumpTableEntrySize info.kind then
      some (.crash .product)
    else none

/-- A constant is malformed, with the first error, and the jump tables are refused too, with the
second one. -/
structure TwiceDefective (f : MachineFunction) (e tables : EmitError) : Prop where
  constants : f.constantPool.findIdx? (·.isMachine) = none
  sized : ConstantPool.hasSize .x86_64 f.constantPool = true
  malformed : f.poolPlan.fault = some e
  tables : f.tablesDefect? = some tables

def reported (f : MachineFunction) (e tables : EmitError) (capacity : Nat) : EmitError :=
  if f.poolSize < capacity then e else tables

/-- Tables are refused for their defect and never for the buffer. -/
theorem tablesDefect?_eq_some_iff (b : CodeBuffer) :
    f.tablesDefect? = some e ↔ JumpTableLayout.reserve .x86_64 f.jumpTables b = .error e := by
  have hcustom : Target.x86_64.customJumpTables = false := rfl
  unfold tablesDefect? JumpTableLayout.reserve
  cases f.jumpTables with
  | none => simp
  | some info =>
    dsimp only
    by_cases hnone : info.tables = [] ∨ info.kind = .inline
    · have hskip : (info.tables.isEmpty || info.kind == .inline ||
          Target.x86_64.customJumpTables) = true := by simpa [hcustom] using hnone
      rw [if_pos hnone, if_pos hskip]
      simp
    · have hskip : ¬(info.tables.isEmpty || info.kind == .inline ||
          Target.x86_64.customJumpTables) = true := by simpa [hcustom] using hnone
      rw [if_neg hnone, if_neg hskip]
      by_cases hkind : info.kind = .gpRel64BlockAddress
      · simp [hkind]
      · rw [if_neg hkind, if_neg hkind, Word.product?]
        by_cases hsize : info.numEntries * Target.x86_64.jumpTableEntrySize info.kind ≤ Word.largest
        · rw [if_neg (Nat.not_lt.2 hsize), if_pos hsize]
          dsimp only
          split <;> simp
        · rw [if_pos (Nat.lt_of_not_le hsize), if_neg hsize]
          simp

theorem tablesDefect?_cases (h : f.tablesDefect? = some e) :
    e = .unsupportedJumpTable .gpRel64BlockAddress ∨ e = .crash .product := by
  unfold tablesDefect? at h
  split at h
  · cases h
  split at h
  · cases h
  split at h
  · cases h
    exact .inl rfl
  split at h
  · cases h
    exact .inr rfl
  · cases h

namespace TwiceDefective

theorem unique {e' tables' : EmitError} (h : f.TwiceDefective e tables)
    (h' : f.TwiceDefective e' tables') : e = e' ∧ tables = tables' :=
  ⟨Option.some.inj (h.malformed.symm.trans h'.malformed),
    Option.some.inj (h.tables.symm.trans h'.tables)⟩

theorem ne (h : f.TwiceDefective e tables) : e ≠ tables := by
  obtain ⟨reason, rfl⟩ := ConstantPool.malformed_of_planFrom h.malformed
  rcases tablesDefect?_cases h.tables with rfl | rfl <;> nofun

/-- Two buffers report the same defect exactly if both have room for the pool or neither has. -/
theorem reported_eq_iff (h : f.TwiceDefective e tables) {capacity' : Nat} :
    f.reported e tables capacity' = f.reported e tables capacity ↔
      (f.poolSize < capacity ↔ f.poolSize < capacity') := by
  have hne := h.ne
  unfold reported
  by_cases h₁ : f.poolSize < capacity <;> by_cases h₂ : f.poolSize < capacity' <;>
    simp [h₁, h₂, hne, hne.symm]

end TwiceDefective

end MachineFunction

namespace ConstantPool

theorem place_fault_in_empty {f : MachineFunction} {b : CodeBuffer} (hi : b.Intact)
    (hb : b.offset = 0) :
    (place .x86_64 f.constantPool b).fault = f.poolDefect? b.capacity := by
  unfold MachineFunction.poolDefect?
  cases hm : f.constantPool.findIdx? (·.isMachine) with
  | some index => simp [place, reserve, hm]
  | none =>
    dsimp only
    cases hp : f.constantPool.isEmpty with
    | true =>
      rw [place_of_isEmpty hm hp]
      simp [MachineFunction.poolPlan, List.isEmpty_iff.1 hp, planFrom, Plan.done, hasSize]
    | false =>
      cases hs : hasSize .x86_64 f.constantPool with
      | false => simp [place, reserve, hm, hp, hs]
      | true =>
      simp only [Bool.not_true, Bool.false_eq_true, ↓reduceIte]
      have hzero : Word.alignTo 0 (size .x86_64 f.constantPool).2 = 0 :=
        Word.alignTo_of_zero (sizeFrom_align_lt (by decide)).le
      have hstart : Word.alignTo b.offset (size .x86_64 f.constantPool).2 = 0 := by rw [hb, hzero]
      by_cases hlt : f.poolSize < b.capacity
      · have hroom : Word.alignTo b.offset (size .x86_64 f.constantPool).2 +
            (size .x86_64 f.constantPool).1 < b.capacity := by
          rwa [hstart, Nat.zero_add]
        rw [place_of_reserve_some hm hp hs (CodeBuffer.reserve_of_lt hi hroom), if_pos hlt]
        simp only [hb, hzero, CodeBuffer.offset_extendTo, Nat.zero_add, Nat.zero_max]
        rfl
      · have hfull : b.capacity ≤ Word.alignTo b.offset (size .x86_64 f.constantPool).2 +
            (size .x86_64 f.constantPool).1 := by
          rw [hstart, Nat.zero_add]
          exact Nat.le_of_not_lt hlt
        rw [place_of_reserve_none hm hp hs (CodeBuffer.reserve_of_le hi hfull), if_neg hlt]

end ConstantPool

namespace Draft

variable {config : Config} {f : MachineFunction} {b : CodeBuffer} {c d : Draft} {e e' : EmitError}

theorem intact_align_of_le (hi : b.Intact) {alignment : Nat}
    (h : Word.alignTo b.offset alignment ≤ b.capacity) : (b.align alignment).Intact := by
  rw [CodeBuffer.align_of_le hi h]
  exact ⟨hi.overflow, hi.writable⟩

theorem intact_align_of_empty (hi : b.Intact) (hb : b.offset = 0) {alignment : Nat}
    (ha : alignment ≤ Word.modulus) : (b.align alignment).Intact := by
  have hle : Word.alignTo b.offset alignment ≤ b.capacity := by
    rw [hb, Word.alignTo_of_zero ha]
    exact Nat.zero_le _
  exact intact_align_of_le hi hle

/-- What stops a layout before the code: the pool, or else the tables. -/
theorem front_raises_iff (hi : b.Intact) (hb : b.offset = 0) :
    Raises (front .x86_64 config f b) e ↔ f.poolDefect? b.capacity = some e ∨
      f.poolDefect? b.capacity = none ∧ f.tablesDefect? = some e := by
  have halign : max config.poolAlignment.toNat 16 ≤ Word.modulus :=
    max_le (UInt64.toNat_lt _).le (by decide)
  have hpool := ConstantPool.place_fault_in_empty (f := f) (intact_align_of_empty hi hb halign)
    (offset_align_of_empty hi hb halign)
  rw [(CodeBuffer.align_grows b _).capacity] at hpool
  unfold front
  dsimp only
  rw [raises_bind_iff, placePool_raises_iff, ← hpool]
  refine or_congr_right ⟨?_, ?_⟩
  · rintro ⟨p, hp, hraises⟩
    rcases raises_bind_iff.1 hraises with htables | ⟨_, _, hok⟩
    · exact ⟨(placePool_eq_ok hp).1,
        (MachineFunction.tablesDefect?_eq_some_iff _).2 (placeTables_raises_iff.1 htables)⟩
    · exact absurd hok (not_raises_ok _ _)
  · rintro ⟨hnone, htables⟩
    obtain ⟨log, hp⟩ := placePool_of_fault_eq_none
      (d := Draft.align { function := f.name, buffer := b } (max config.poolAlignment.toNat 16)) hnone
    rw [MachineFunction.tablesDefect?_eq_some_iff, ← placeTables_raises_iff] at htables
    exact ⟨_, hp, raises_bind_iff.2 (.inl htables)⟩

structure SameMarks (c d : Draft) : Prop where
  blocks : ∀ b, c.locations.blocks.contains b = d.locations.blocks.contains b
  labels : ∀ l, c.locations.labels.contains l = d.locations.labels.contains l

/-- Two steps both go well and leave the same marks, or both stop with the same error. -/
inductive SameCourse : Except DraftFailure Draft → Except DraftFailure Draft → Prop
  | ok {c d : Draft} (marks : c.SameMarks d) : SameCourse (.ok c) (.ok d)
  | error {failure failure' : DraftFailure} (same : failure.error = failure'.error) :
      SameCourse (.error failure) (.error failure')

theorem SameCourse.bind {x y : Except DraftFailure Draft}
    {next next' : Draft → Except DraftFailure Draft} (h : SameCourse x y)
    (hnext : ∀ c d, c.SameMarks d → SameCourse (next c) (next' d)) :
    SameCourse (x >>= next) (y >>= next') := by
  cases h with
  | ok marks => exact hnext _ _ marks
  | error same => exact .error same

namespace SameMarks

theorem startBlock (h : c.SameMarks d) (block : BlockId) :
    SameCourse (c.startBlock block) (d.startBlock block) := by
  cases hd : d.locations.blocks.contains block with
  | true =>
    have hc := (h.blocks block).trans hd
    simp only [Draft.startBlock, Locations.recordBlock, hc, hd, ↓reduceIte]
    exact .error rfl
  | false =>
    have hc := (h.blocks block).trans hd
    rw [startBlock_eq_ok.2 ⟨hc, rfl⟩, startBlock_eq_ok.2 ⟨hd, rfl⟩]
    refine .ok ⟨?_, h.labels⟩
    intro b
    simp only [IdMap.contains_insert, h.blocks b]

theorem startLabel (h : c.SameMarks d) (label : LabelId) :
    SameCourse (c.startLabel label) (d.startLabel label) := by
  cases hd : d.locations.labels.contains label with
  | true =>
    have hc := (h.labels label).trans hd
    simp only [Draft.startLabel, Locations.recordLabel, hc, hd, ↓reduceIte]
    exact .error rfl
  | false =>
    have hc := (h.labels label).trans hd
    rw [startLabel_eq_ok.2 ⟨hc, rfl⟩, startLabel_eq_ok.2 ⟨hd, rfl⟩]
    refine .ok ⟨h.blocks, ?_⟩
    intro l
    simp only [IdMap.contains_insert, h.labels l]

theorem emit (h : c.SameMarks d) (i : X86.Instruction) : SameCourse (c.emit i) (d.emit i) := by
  rcases emit_cases i with ⟨l, rfl⟩ | ⟨line, col, rfl⟩ | ⟨_, hi⟩
  · exact h.startLabel l
  · obtain ⟨_, hc⟩ := startLoc_eq c { line, col }
    obtain ⟨_, hd⟩ := startLoc_eq d { line, col }
    rw [emit_debugLoc, emit_debugLoc, hc, hd]
    exact .ok ⟨h.blocks, h.labels⟩
  · rw [hi, hi]
    exact .ok ⟨h.blocks, h.labels⟩

theorem foldlM_emit (h : c.SameMarks d) (is : List X86.Instruction) :
    SameCourse (is.foldlM Draft.emit c) (is.foldlM Draft.emit d) := by
  induction is generalizing c d with
  | nil => exact .ok h
  | cons i is ih =>
    rw [List.foldlM_cons, List.foldlM_cons]
    exact (h.emit i).bind fun _ _ marks => ih marks

theorem emitBlock (h : c.SameMarks d) (b : MachineBlock) :
    SameCourse (c.emitBlock b) (d.emitBlock b) :=
  (h.startBlock b.number).bind fun _ _ marks => marks.foldlM_emit b.insts

end SameMarks

theorem SameCourse.raised_eq {x y : Except DraftFailure Draft}
    {next next' : Draft → Except DraftFailure Draft} (h : SameCourse x y)
    (hx : Raises (x >>= next) e) (hy : Raises (y >>= next') e')
    (hnext : ∀ c d, c.SameMarks d → Raises (next c) e → Raises (next' d) e' → e = e') : e = e' := by
  cases h with
  | ok marks => exact hnext _ _ marks hx hy
  | error same => exact (raises_error_iff.1 hx).symm.trans (same.trans (raises_error_iff.1 hy))

theorem raises_of_emitBlocks_cons {b : MachineBlock} {bs : List MachineBlock}
    (h : Raises (d.emitBlocks (b :: bs)) e) :
    Raises (d.emitBlock b >>= fun c => c.emitBlocks bs) e := by
  rw [emitBlocks] at h
  split at h
  · exact absurd h (not_raises_ok _ _)
  · exact h

theorem SameMarks.raised_eq (h : c.SameMarks d) {bs : List MachineBlock}
    (hc : Raises (c.emitBlocks bs) e) (hd : Raises (d.emitBlocks bs) e') : e = e' := by
  induction bs generalizing c d with
  | nil => exact absurd hc (not_raises_ok _ _)
  | cons b bs ih =>
    exact (h.emitBlock b).raised_eq (raises_of_emitBlocks_cons hc) (raises_of_emitBlocks_cons hd)
      fun _ _ marks hc hd => ih marks hc hd

/-- Blocks are looked at only where the pool has been written without a fault. -/
theorem poolPlan_of_blocks_raise (hi : b.Intact) (hb : b.offset = 0)
    (hcap : b.capacity ≤ Host.maxBlockSize) (hc : front .x86_64 config f b = .ok c)
    (h : Raises (c.emitBlocks f.blocks) e) :
    f.constantPool.findIdx? (·.isMachine) = none ∧ f.poolPlan.fault = none := by
  have ho : c.buffer.overflow = none := by
    by_contra hne
    rw [emitBlocks_of_overflowed hne] at h
    exact absurd h (not_raises_ok _ _)
  have hplaces := front_places hi hb hcap hc ho
  exact ⟨List.findIdx?_eq_none_iff.2 hplaces.constants, hplaces.planned⟩

/-- What is laid out up to its code has no defect that a buffer of another size finds before the
constants. -/
theorem defects_of_front (hi : b.Intact) (hb : b.offset = 0)
    (hc : front .x86_64 config f b = .ok c) :
    f.poolDefect? b.capacity = none ∧ f.tablesDefect? = none := by
  have hnot (e : EmitError) : ¬Raises (front .x86_64 config f b) e := by
    rw [hc]
    exact not_raises_ok c e
  simp only [front_raises_iff hi hb, not_or, not_and] at hnot
  have hpool : f.poolDefect? b.capacity = none :=
    Option.eq_none_iff_forall_ne_some.2 fun e he => (hnot e).1 he
  exact ⟨hpool, Option.eq_none_iff_forall_ne_some.2 fun e he => (hnot e).2 hpool he⟩

theorem not_front_raises_of_blocks_raise {config' : Config} {b' : CodeBuffer} (hi : b.Intact)
    (hb : b.offset = 0) (hcap : b.capacity ≤ Host.maxBlockSize)
    (hc : front .x86_64 config f b = .ok c) (h : Raises (c.emitBlocks f.blocks) e)
    (hi' : b'.Intact) (hb' : b'.offset = 0) : ¬Raises (front .x86_64 config' f b') e' := by
  obtain ⟨hm, hplanned⟩ := poolPlan_of_blocks_raise hi hb hcap hc h
  obtain ⟨hnone, htables⟩ := defects_of_front hi hb hc
  have hpool : f.poolDefect? b'.capacity = none := by
    simp only [MachineFunction.poolDefect?, hm, hplanned] at hnone ⊢
    split at hnone
    · cases hnone
    · rename_i hs
      simp [hs]
  rw [front_raises_iff hi' hb', hpool, htables]
  rintro (hnone | ⟨_, hnone⟩) <;> cases hnone

end Draft

namespace MachineFunction

variable {f : MachineFunction} {e e' tables : EmitError} {capacity capacity' : Nat}

theorem poolDefect?_eq_some (h : f.poolDefect? capacity = some e) :
    (∀ capacity', f.poolDefect? capacity' = some e) ∨
      f.constantPool.findIdx? (·.isMachine) = none ∧
        ConstantPool.hasSize .x86_64 f.constantPool = true ∧ f.poolPlan.fault = some e := by
  unfold poolDefect? at h ⊢
  split at h
  · exact .inl fun _ => h
  · rename_i hm
    split at h
    · rename_i hs
      exact .inl fun _ => (if_pos hs).trans h
    · rename_i hs
      split at h
      · exact .inr ⟨hm, by simpa using hs, h⟩
      · cases h

theorem poolDefect?_unique (h : f.poolDefect? capacity = some e)
    (h' : f.poolDefect? capacity' = some e') : e = e' := by
  rcases poolDefect?_eq_some h with hall | ⟨-, -, hfault⟩
  · exact Option.some.inj ((hall capacity').symm.trans h')
  rcases poolDefect?_eq_some h' with hall | ⟨-, -, hfault'⟩
  · exact Option.some.inj (h.symm.trans (hall capacity))
  · exact Option.some.inj (hfault.symm.trans hfault')

theorem twiceDefective_of_poolDefect? (h : f.poolDefect? capacity = some e)
    (h' : f.poolDefect? capacity' = none) (htables : f.tablesDefect? = some tables) :
    f.TwiceDefective e tables := by
  rcases poolDefect?_eq_some h with hall | ⟨hm, hs, hfault⟩
  · rw [hall capacity'] at h'
    cases h'
  · exact ⟨hm, hs, hfault, htables⟩

end MachineFunction

namespace Draft

variable {config config' : Config} {f : MachineFunction} {b b' : CodeBuffer}
  {e e' tables : EmitError}

/-- Without two defects between which the buffer decides, all buffers that stop a layout stop it with
the same error. -/
theorem layOut_raised_eq (hf : ∀ e tables, ¬f.TwiceDefective e tables) (hi : b.Intact) (hb : b.offset = 0)
    (hcap : b.capacity ≤ Host.maxBlockSize) (hi' : b'.Intact) (hb' : b'.offset = 0)
    (hcap' : b'.capacity ≤ Host.maxBlockSize) (h : Raises (layOut .x86_64 config f b) e)
    (h' : Raises (layOut .x86_64 config' f b') e') : e = e' := by
  rcases layOut_raises_iff.1 h with hfront | ⟨c, hc, hblocks⟩ <;>
    rcases layOut_raises_iff.1 h' with hfront' | ⟨c', hc', hblocks'⟩
  · rcases (front_raises_iff hi hb).1 hfront with hpool | ⟨hnone, htables⟩ <;>
      rcases (front_raises_iff hi' hb').1 hfront' with hpool' | ⟨hnone', htables'⟩
    · exact MachineFunction.poolDefect?_unique hpool hpool'
    · exact absurd (MachineFunction.twiceDefective_of_poolDefect? hpool hnone' htables') (hf e e')
    · exact absurd (MachineFunction.twiceDefective_of_poolDefect? hpool' hnone htables) (hf e' e)
    · exact Option.some.inj (htables.symm.trans htables')
  · exact absurd hfront (not_front_raises_of_blocks_raise hi' hb' hcap' hc' hblocks' hi hb)
  · exact absurd hfront' (not_front_raises_of_blocks_raise hi hb hcap hc hblocks hi' hb')
  · have hmarks : c.SameMarks c' := by
      have hnone := (front_bare hc).locations
      have hnone' := (front_bare hc').locations
      exact ⟨fun _ => by rw [hnone, hnone'], fun _ => by rw [hnone, hnone']⟩
    exact hmarks.raised_eq hblocks hblocks'

/-- Of two defects the one is reported if there is room for the pool, and otherwise the other. -/
theorem layOut_raises_of_twiceDefective (hf : f.TwiceDefective e tables) (hi : b.Intact)
    (hb : b.offset = 0) : Raises (layOut .x86_64 config f b) (f.reported e tables b.capacity) := by
  refine layOut_raises_iff.2 (.inl ((front_raises_iff hi hb).2 ?_))
  simp only [MachineFunction.poolDefect?, MachineFunction.reported, hf.constants, hf.sized,
    hf.malformed]
  by_cases hlt : f.poolSize < b.capacity
  · simp [hlt]
  · simp [hlt, hf.tables]

end Draft

end CodeEmission
