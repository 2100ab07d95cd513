import CodeEmission.Proofs.Layout.Defects

/-! # Where a layout ends

A function without defects is laid out by every buffer that has room for it. Its pool stands at the
start of the buffer, and its instructions behind the padding after the pool.
-/

namespace CodeEmission

namespace MachineFunction

/-- A function without tables that no buffer refuses: its constants are all right, and its blocks and
labels have numbers of their own. -/
structure Faultless (f : MachineFunction) : Prop where
  constants : f.constantPool.findIdx? (·.isMachine) = none
  sized : ConstantPool.hasSize .x86_64 f.constantPool = true
  planned : f.poolPlan.fault = none
  tables : f.jumpTables = none
  blocks : (f.blocks.map (·.number)).Nodup
  labels : (f.instructions.filterMap X86.Instruction.label?).Nodup

def codeStart (f : MachineFunction) (config : Config) : Nat :=
  Word.alignTo f.poolSize (max (max f.alignment.toNat config.minFunctionAlignment.toNat) 8)

end MachineFunction

theorem ConstantPool.sizeFrom_le {t : Target} {n align : Nat} {pool : List PoolEntry}
    (h : n ≤ Word.largest) : (sizeFrom t n align pool).1 ≤ Word.largest := by
  induction pool generalizing n align with
  | nil => exact h
  | cons e es ih => exact ih (Word.addSat_le _ _)

theorem ConstantPool.place_of_room {f : MachineFunction} {b : CodeBuffer} (hf : f.Faultless)
    (hi : b.Intact) (hb : b.offset = 0) (hroom : f.poolSize < b.capacity) :
    (place .x86_64 f.constantPool b).fault = none ∧
      (place .x86_64 f.constantPool b).buffer.Intact ∧
      (place .x86_64 f.constantPool b).buffer.offset = f.poolSize := by
  cases hp : f.constantPool.isEmpty with
  | true =>
    rw [place_of_isEmpty hf.constants hp]
    have hnil := List.isEmpty_iff.1 hp
    refine ⟨rfl, hi, ?_⟩
    rw [hb, MachineFunction.poolSize, hnil]
    rfl
  | false =>
    have hzero : Word.alignTo 0 (size .x86_64 f.constantPool).2 = 0 :=
      Word.alignTo_of_zero (sizeFrom_align_lt (by decide)).le
    have hstart : Word.alignTo b.offset (size .x86_64 f.constantPool).2 = 0 := by rw [hb, hzero]
    have hlt : Word.alignTo b.offset (size .x86_64 f.constantPool).2 +
        (size .x86_64 f.constantPool).1 < b.capacity := by rwa [hstart, Nat.zero_add]
    rw [place_of_reserve_some hf.constants hp hf.sized (CodeBuffer.reserve_of_lt hi hlt)]
    simp only [hb, hzero, CodeBuffer.offset_extendTo, CodeBuffer.offset_fill, Nat.zero_add,
      Nat.zero_max]
    exact ⟨hf.planned, ⟨hi.overflow, hi.writable⟩, rfl⟩

theorem MachineFunction.poolSize_le_codeStart (f : MachineFunction) (config : Config) :
    f.poolSize ≤ f.codeStart config := by
  have hsize : f.poolSize ≤ Word.largest := ConstantPool.sizeFrom_le (Nat.zero_le _)
  exact Word.le_alignTo _ (Nat.lt_succ_of_le hsize)

namespace Draft

open X86.Instruction

variable {config : Config} {f : MachineFunction} {b : CodeBuffer}

theorem exists_front (hf : f.Faultless) (hi : b.Intact) (hb : b.offset = 0)
    (hroom : f.codeStart config < b.capacity) :
    ∃ c, front .x86_64 config f b = .ok c ∧ c.buffer.Intact ∧ c.offset = f.codeStart config := by
  have hpoolAlign : max config.poolAlignment.toNat 16 ≤ Word.modulus :=
    max_le (UInt64.toNat_lt _).le (by decide)
  have hi₁ := intact_align_of_empty hi hb hpoolAlign
  have ho₁ := offset_align_of_empty hi hb hpoolAlign
  have hcap₁ := (CodeBuffer.align_grows b (max config.poolAlignment.toNat 16)).capacity
  have hcap₂ := (ConstantPool.place_grows .x86_64 f.constantPool
    (b.align (max config.poolAlignment.toNat 16))).capacity
  have hle := f.poolSize_le_codeStart config
  obtain ⟨hfault, hi₂, ho₂⟩ := ConstantPool.place_of_room hf hi₁ ho₁ (by omega)
  obtain ⟨log, hp⟩ := placePool_of_fault_eq_none
    (d := Draft.align { function := f.name, buffer := b } (max config.poolAlignment.toNat 16)) hfault
  have hreserve (c : CodeBuffer) :
      JumpTableLayout.reserve .x86_64 f.jumpTables c = .ok (c, none) := by
    rw [hf.tables]
    rfl
  obtain ⟨log', hq⟩ := placeTables_of_reserve (hreserve _)
  have hfits : Word.alignTo (ConstantPool.place .x86_64 f.constantPool
      (b.align (max config.poolAlignment.toNat 16))).buffer.offset
      (max (max f.alignment.toNat config.minFunctionAlignment.toNat) 8) ≤
        (ConstantPool.place .x86_64 f.constantPool
          (b.align (max config.poolAlignment.toNat 16))).buffer.capacity := by
    rw [ho₂, hcap₂, hcap₁]
    exact hroom.le
  have hi₃ := intact_align_of_le hi₂ hfits
  refine ⟨_, front_eq_ok.2 ⟨_, _, hp, hq, rfl⟩, hi₃, ?_⟩
  exact (offset_align hi₂ hi₃.overflow).trans (by rw [ho₂]; rfl)

/-- A buffer with more room than a faultless function takes lays it out. -/
theorem exists_layOut (hf : f.Faultless) (hi : b.Intact) (hb : b.offset = 0)
    (hroom : f.codeStart config + f.encode.length < b.capacity) :
    ∃ d, layOut .x86_64 config f b = .ok d ∧ d.buffer.overflow = none ∧
      d.offset = f.codeStart config + f.encode.length := by
  obtain ⟨c, hc, hci, hco⟩ := exists_front hf hi hb (Nat.lt_of_le_of_lt (Nat.le_add_right _ _) hroom)
  have hbare := front_bare hc
  have hroom' : c.offset + (encodeAll f.instructions).length ≤ c.buffer.capacity := by
    rw [hco, hbare.grows.capacity]
    exact hroom.le
  obtain ⟨d, hd, ho⟩ := exists_emitBlocks hci hroom' hf.blocks
    (fun _ _ => by rw [hbare.locations]; rfl) hf.labels (fun _ _ => by rw [hbare.locations]; rfl)
  refine ⟨d, layOut_eq_ok.2 ⟨c, hc, hd⟩, ho, ?_⟩
  rw [(emitBlocks_extends hci hd ho).offset, hco]
  rfl

end Draft

end CodeEmission
