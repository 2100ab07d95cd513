import CodeEmission.Proofs.Layout.References
import CodeEmission.Proofs.Rounding

/-! # The regions of a layout

The pool, the jump tables and the code stand one after another in the buffer. What stands before the
code knows no reference and no location yet, and the reserved slots end before the code starts.
-/

namespace CodeEmission

namespace JumpTableLayout

/-- The slots of the tables were reserved before `limit`. Slots that take no room are not. -/
structure Reserved (l : JumpTableLayout) (t : Target) (limit : Nat) : Prop where
  entrySize : l.entrySize = t.jumpTableEntrySize l.kind
  not_inline : l.kind ≠ .inline
  not_gpRel64 : l.kind ≠ .gpRel64BlockAddress
  size_le : l.numEntries * l.entrySize ≤ Word.largest
  base_le : l.base ≤ Word.largest
  slots_le : l.numEntries * l.entrySize = 0 ∨ l.base + l.numEntries * l.entrySize ≤ limit

theorem Reserved.mono {l : JumpTableLayout} {t : Target} {m n : Nat} (h : l.Reserved t m)
    (hmn : m ≤ n) : l.Reserved t n :=
  { h with slots_le := h.slots_le.imp_right fun hle => hle.trans hmn }

theorem reserve_grows {t : Target} {info : Option JumpTableInfo} {b c : CodeBuffer}
    {l : Option JumpTableLayout} (h : reserve t info b = .ok (c, l)) : b.Grows c := by
  unfold reserve at h
  split at h
  · cases h
    exact .refl _
  split at h
  · cases h
    exact .refl _
  split at h
  · cases h
  dsimp only at h
  split at h
  · cases h
  split at h
  · cases h
    exact .refl _
  · cases h
    exact CodeBuffer.reserve_grows _ _ _

theorem reserve_reserved {t : Target} {info : Option JumpTableInfo} {b c : CodeBuffer}
    {l : JumpTableLayout} (h : reserve t info b = .ok (c, some l)) : l.Reserved t c.offset := by
  unfold reserve at h
  split at h
  · cases h
  rename_i info
  split at h
  · cases h
  rename_i hinfo
  have hinline : info.kind ≠ .inline := by
    intro hk
    simp [hk] at hinfo
  split at h
  · cases h
  rename_i hrel
  dsimp only at h
  split at h
  · cases h
  rename_i size hproduct
  obtain ⟨hle, rfl⟩ := Word.product?_eq_some_iff.1 hproduct
  have hnum : (info.tables.map (·.targets)).flatten.length = info.numEntries := by
    rw [JumpTableInfo.numEntries, List.flatMap_def]
  have hbase := Nat.le_of_lt_succ (Word.alignTo_lt (t.jumpTableEntryAlign info.kind)
    (Nat.lt_succ_of_le b.offset_le_largest))
  rw [← hnum] at hle
  split at h
  · rename_i hsize
    rw [← hnum] at hsize
    cases h
    exact ⟨rfl, hinline, hrel, hle, hbase, .inl hsize⟩
  · simp only [Except.ok.injEq, Prod.mk.injEq, Option.map_eq_some_iff] at h
    obtain ⟨rfl, start, hs, rfl⟩ := h
    obtain ⟨rfl, hend⟩ := CodeBuffer.reserve_eq_some hs
    rw [← hnum] at hend ⊢
    exact ⟨rfl, hinline, hrel, hle, hbase, .inr hend⟩

theorem reserve_base {t : Target} {info : Option JumpTableInfo} {b c : CodeBuffer}
    {l : JumpTableLayout} (h : reserve t info b = .ok (c, some l)) :
    l.base = Word.alignTo b.offset (t.jumpTableEntryAlign l.kind) ∧
      (l.numEntries * l.entrySize = 0 → c = b) := by
  unfold reserve at h
  split at h
  · cases h
  rename_i info
  split at h
  · cases h
  split at h
  · cases h
  dsimp only at h
  split at h
  · cases h
  rename_i size hproduct
  obtain ⟨-, rfl⟩ := Word.product?_eq_some_iff.1 hproduct
  split at h
  · cases h
    exact ⟨rfl, fun _ => rfl⟩
  · rename_i hsize
    simp only [Except.ok.injEq, Prod.mk.injEq, Option.map_eq_some_iff] at h
    obtain ⟨rfl, start, hs, rfl⟩ := h
    refine ⟨(CodeBuffer.reserve_eq_some hs).1, ?_⟩
    intro hzero
    refine absurd ?_ hsize
    rwa [numEntries, ← List.flatMap_def] at hzero

theorem entryAlign_eq_pow {l : JumpTableLayout} (hinline : l.kind ≠ .inline) :
    ∃ j ≤ 3, Target.x86_64.jumpTableEntryAlign l.kind = 2 ^ j := by
  cases hk : l.kind with
  | inline => exact absurd hk hinline
  | blockAddress => exact ⟨3, le_refl _, rfl⟩
  | gpRel64BlockAddress => exact ⟨3, le_refl _, rfl⟩
  | gpRel32BlockAddress => exact ⟨2, by decide, rfl⟩
  | labelDifference32 => exact ⟨2, by decide, rfl⟩
  | custom32 => exact ⟨2, by decide, rfl⟩

end JumpTableLayout

theorem ConstantPool.reserve_grows {t : Target} {pool : List PoolEntry} {b c : CodeBuffer}
    {start : Option Nat} (h : ConstantPool.reserve t pool b = .ok (c, start)) : b.Grows c := by
  unfold ConstantPool.reserve at h
  split at h
  · cases h
  · split at h
    · cases h
      exact .refl _
    split at h
    · cases h
    · have hr : b.reserve (size t pool).1 (size t pool).2 = (c, start) := Except.ok.inj h
      have hg := CodeBuffer.reserve_grows b (size t pool).1 (size t pool).2
      rwa [hr] at hg

theorem ConstantPool.place_grows (t : Target) (pool : List PoolEntry) (b : CodeBuffer) :
    b.Grows (ConstantPool.place t pool b).buffer := by
  unfold ConstantPool.place
  split
  · exact .refl _
  · rename_i hr
    exact ConstantPool.reserve_grows hr
  · rename_i hr
    exact (ConstantPool.reserve_grows hr).trans (CodeBuffer.fill_grows _ _ _)

namespace Draft

open X86.Instruction

variable {t : Target} {config : Config} {f : MachineFunction} {b : CodeBuffer} {d : Draft}

def front (t : Target) (config : Config) (f : MachineFunction) (buffer : CodeBuffer) :
    Except DraftFailure Draft := do
  let d : Draft := { function := f.name, buffer }
  let d := d.align (max config.poolAlignment.toNat 16)
  let d ← d.placePool t f.constantPool
  let d ← d.placeTables t f.jumpTables
  let d := d.align (max (max f.alignment.toNat config.minFunctionAlignment.toNat) 8)
  return { d with codeOffset := d.offset }

theorem layOut_eq_ok :
    layOut t config f b = .ok d ↔
      ∃ c, front t config f b = .ok c ∧ c.emitBlocks f.blocks = .ok d := by
  have heq : layOut t config f b = front t config f b >>= fun c => c.emitBlocks f.blocks := by
    simp [layOut, front]
  rw [heq, bind_eq_ok]

theorem front_eq_ok :
    front t config f b = .ok d ↔ ∃ p q, (Draft.align { function := f.name, buffer := b }
          (max config.poolAlignment.toNat 16)).placePool t f.constantPool = .ok p ∧
        p.placeTables t f.jumpTables = .ok q ∧
        d = { q.align (max (max f.alignment.toNat config.minFunctionAlignment.toNat) 8) with
          codeOffset :=
            (q.align (max (max f.alignment.toNat config.minFunctionAlignment.toNat) 8)).offset } := by
  unfold front
  simp only [bind_eq_ok, pure, Except.pure, Except.ok.injEq, exists_and_left]
  exact exists_congr fun p => and_congr_right fun _ => exists_congr fun q =>
    and_congr_right fun _ => eq_comm

structure Bare (d : Draft) (t : Target) (f : MachineFunction) (b : CodeBuffer) : Prop where
  grows : b.Grows d.buffer
  function : d.function = f.name
  relocations : d.relocations = #[]
  locations : d.locations = {}
  debugLocs : d.debugLocs = #[]
  codeOffset : d.codeOffset = d.offset
  tables : ∀ l, d.layout.jumpTables = some l → l.Reserved t d.codeOffset
  /-- Also slots that take no room have a place, which is rounded up from one in the buffer. -/
  base : ∀ l, d.layout.jumpTables = some l →
    ∃ offset ≤ b.capacity, l.base = Word.alignTo offset (t.jumpTableEntryAlign l.kind)

theorem front_bare (h : front t config f b = .ok d) : d.Bare t f b := by
  obtain ⟨p, q, hp, hq, rfl⟩ := front_eq_ok.1 h
  obtain ⟨_, log, rfl⟩ := placePool_eq_ok hp
  obtain ⟨buffer, jumpTables, log', hr, rfl⟩ := placeTables_eq_ok hq
  have hg : b.Grows (ConstantPool.place t f.constantPool
      (b.align (max config.poolAlignment.toNat 16))).buffer :=
    (CodeBuffer.align_grows b _).trans (ConstantPool.place_grows _ _ _)
  have ha := CodeBuffer.align_grows buffer
    (max (max f.alignment.toNat config.minFunctionAlignment.toNat) 8)
  refine ⟨(hg.trans (JumpTableLayout.reserve_grows hr)).trans ha, rfl, rfl, rfl, rfl, rfl, ?_, ?_⟩
  · intro l hl
    cases hl
    exact (JumpTableLayout.reserve_reserved hr).mono ha.offset_le
  · intro l hl
    cases hl
    exact ⟨_, hg.capacity ▸ CodeBuffer.offset_le_capacity _, (JumpTableLayout.reserve_base hr).1⟩

theorem layOut_grows (h : layOut t config f b = .ok d) : b.Grows d.buffer := by
  obtain ⟨c, hc, he⟩ := layOut_eq_ok.1 h
  exact (front_bare hc).grows.trans (emitBlocks_grows he)

/-- A layout that fits as a whole is what stands before the code, followed by the stream of the
function's instructions. -/
theorem layOut_front (hb : b.Intact) (h : layOut t config f b = .ok d)
    (hd : d.buffer.overflow = none) :
    ∃ c : Draft, front t config f b = .ok c ∧
      c.Extends f.instructions (MachineBlock.startsFrom c.offset f.blocks) d := by
  obtain ⟨c, hc, he⟩ := layOut_eq_ok.1 h
  have hi : c.buffer.Intact :=
    (front_bare hc).grows.intact_right hb.writable ((emitBlocks_grows he).overflow hd)
  exact ⟨c, hc, emitBlocks_extends hi he hd⟩

theorem layOut_extends (hb : b.Intact) (h : layOut t config f b = .ok d)
    (hd : d.buffer.overflow = none) :
    ∃ c : Draft, c.Bare t f b ∧
      c.Extends f.instructions (MachineBlock.startsFrom c.offset f.blocks) d := by
  obtain ⟨c, hc, he⟩ := layOut_front hb h hd
  exact ⟨c, front_bare hc, he⟩

end Draft

end CodeEmission
