import CodeEmission.Proofs.Layout.Pools

/-! # Where things are in a buffer

The pool stands at the start of the buffer, the jump tables after it and the code after both. What
is written later does not change the bytes of the pool.
-/

namespace CodeEmission

namespace JumpTableLayout

variable {t : Target} {b c : CodeBuffer} {k : Option JumpTableLayout}

theorem reserve_described {info : JumpTableInfo} (ht : t.customJumpTables = false)
    (h : reserve t (some info) b = .ok (c, k)) (hc : c.overflow = none) (htables : info.tables ≠ [])
    (hkind : info.kind ≠ .inline) :
    ∃ l, k = some l ∧ l.kind = info.kind ∧ l.tables = info.tables.map (·.targets) := by
  have hsome : ¬(info.tables.isEmpty || info.kind == .inline || t.customJumpTables) = true := by
    simp [ht, htables, hkind]
  unfold reserve at h
  dsimp only at h
  rw [if_neg hsome] at h
  split at h
  · cases h
  split at h
  · cases h
  split at h
  · cases h
    exact ⟨_, rfl, rfl, rfl⟩
  · cases h
    obtain ⟨start, hstart⟩ := CodeBuffer.exists_of_reserve hc
    rw [hstart]
    exact ⟨_, rfl, rfl, rfl⟩

theorem getElem?_reserve {info : Option JumpTableInfo} (h : reserve t info b = .ok (c, k)) {i : Nat}
    (hi : i < b.offset) : c.code[i]? = b.code[i]? := by
  unfold reserve at h
  split at h
  · cases h
    rfl
  split at h
  · cases h
    rfl
  split at h
  · cases h
  dsimp only at h
  split at h
  · cases h
  split at h
  · cases h
    rfl
  · cases h
    exact CodeBuffer.getElem?_reserve _ _ hi

end JumpTableLayout

namespace MachineFunction

def poolSize (f : MachineFunction) : Nat := (ConstantPool.size .x86_64 f.constantPool).1

def poolPlan (f : MachineFunction) : Plan EmitError :=
  ConstantPool.planFrom .x86_64 f.poolSize 0 0 f.constantPool

def poolBytes (f : MachineFunction) : Bytes := f.poolPlan.apply (Array.replicate f.poolSize 0)

end MachineFunction

namespace Draft

variable {config : Config} {f : MachineFunction} {b : CodeBuffer} {c d : Draft}

/-- Where the parts of a function are in its buffer, and what the pool holds. -/
structure Places (d : Draft) (config : Config) (f : MachineFunction) : Prop where
  constants : ∀ e ∈ f.constantPool, e.isMachine = false
  slots : ConstantPool.Slots .x86_64 0 f.constantPool d.layout.constants f.poolSize
  planned : f.poolPlan.fault = none
  written : ∀ k < f.poolSize, d.buffer.code[k]? = f.poolBytes[k]?
  pool_le : f.poolSize ≤ d.codeOffset
  tables : ∀ l, d.layout.jumpTables = some l → f.poolSize ≤ l.base ∧ l.base ≤ d.codeOffset + 7
  tables_le : Word.IsAlignment f.alignment.toNat → Word.IsAlignment config.minFunctionAlignment.toNat →
    ∀ l, d.layout.jumpTables = some l →
      l.base + l.numEntries * l.entrySize ≤ d.codeOffset
  described : ∀ info, f.jumpTables = some info → info.tables ≠ [] → info.kind ≠ .inline →
    ∃ l, d.layout.jumpTables = some l ∧ l.kind = info.kind ∧ l.tables = info.tables.map (·.targets)

/-- The cursor of an empty buffer stays at the start, whatever the alignment. -/
theorem offset_align_of_empty (hi : b.Intact) (hb : b.offset = 0) {alignment : Nat}
    (ha : alignment ≤ Word.modulus) : (b.align alignment).offset = 0 := by
  have hzero : Word.alignTo b.offset alignment = 0 := by
    rw [hb]
    exact Word.alignTo_of_zero ha
  have hle : Word.alignTo b.offset alignment ≤ b.capacity := by omega
  rw [CodeBuffer.align_of_le hi hle, CodeBuffer.offset_extendTo, hzero, hb]
  rfl

theorem offset_align (hi : b.Intact) {alignment : Nat}
    (h : (b.align alignment).overflow = none) :
    (b.align alignment).offset = Word.alignTo b.offset alignment := by
  by_cases hle : Word.alignTo b.offset alignment ≤ b.capacity
  · rw [CodeBuffer.align_of_le hi hle, CodeBuffer.offset_extendTo]
    exact max_eq_right (Word.le_alignTo alignment (Nat.lt_succ_of_le b.offset_le_largest))
  · rw [CodeBuffer.align_of_lt hi (Nat.lt_of_not_le hle)] at h
    cases h

theorem codeAlignment_eq_pow (hf : Word.IsAlignment f.alignment.toNat)
    (hc : Word.IsAlignment config.minFunctionAlignment.toNat) :
    ∃ k, 3 ≤ k ∧ k < 64 ∧
      max (max f.alignment.toNat config.minFunctionAlignment.toNat) 8 = 2 ^ k := by
  have hlt₁ := f.alignment.toNat_lt
  have hlt₂ := config.minFunctionAlignment.toNat_lt
  obtain ⟨k, hk⟩ := ((hf.max hc).max (b := 8) (.inr ⟨3, rfl⟩)).exists_pow (by omega)
  refine ⟨k, ?_, ?_, hk⟩
  · refine (Nat.pow_le_pow_iff_right (by decide : 1 < 2)).1 ?_
    omega
  · refine (Nat.pow_lt_pow_iff_right (by decide : 1 < 2)).1 ?_
    omega

/-- Aligned code starts after the tables, also if these take no room. -/
theorem tables_end_le {info : Option JumpTableInfo} {b c : CodeBuffer} {l : JumpTableLayout}
    (hi : c.Intact) (hcap : c.offset ≤ Host.maxBlockSize)
    (hr : JumpTableLayout.reserve .x86_64 info b = .ok (c, some l))
    (ho : (c.align (max (max f.alignment.toNat config.minFunctionAlignment.toNat) 8)).overflow = none)
    (hf : Word.IsAlignment f.alignment.toNat)
    (hc : Word.IsAlignment config.minFunctionAlignment.toNat) :
    l.base + l.numEntries * l.entrySize ≤
      (c.align (max (max f.alignment.toNat config.minFunctionAlignment.toNat) 8)).offset := by
  have hreserved := JumpTableLayout.reserve_reserved hr
  obtain ⟨hbase, hempty⟩ := JumpTableLayout.reserve_base hr
  have hle := (CodeBuffer.align_grows c
    (max (max f.alignment.toNat config.minFunctionAlignment.toNat) 8)).offset_le
  rcases hreserved.slots_le with hzero | hend
  · -- no slot takes any room, so the code is aligned from the same place as the tables
    obtain rfl := hempty hzero
    obtain ⟨j, hj, hpow⟩ := JumpTableLayout.entryAlign_eq_pow hreserved.not_inline
    obtain ⟨k, hk, hk', hpow'⟩ := codeAlignment_eq_pow hf hc
    have hlargest : 2 ^ k ≤ 2 ^ 63 := Nat.pow_le_pow_right (by decide) (by omega)
    simp only [Host.maxBlockSize] at hcap
    have hround : c.offset + (2 ^ k - 1) < Word.modulus := by
      simp only [Word.modulus]
      omega
    have hmono := Word.alignTo_le_alignTo (hj.trans hk) hround
    have hcursor := offset_align hi ho
    rw [hpow] at hbase
    rw [hpow'] at hcursor
    rw [hzero, hbase, Nat.add_zero, hpow', hcursor]
    exact hmono
  · exact hend.trans hle

theorem front_places (hi : b.Intact) (hb : b.offset = 0) (hcap : b.capacity ≤ Host.maxBlockSize)
    (h : front .x86_64 config f b = .ok d) (hd : d.buffer.overflow = none) : d.Places config f := by
  obtain ⟨p, q, hp, hq, rfl⟩ := front_eq_ok.1 h
  obtain ⟨hf, log, rfl⟩ := placePool_eq_ok hp
  obtain ⟨c, jumpTables, log', hr, rfl⟩ := placeTables_eq_ok hq
  -- the buffer before the pool, after it, after the tables and where the code starts
  have hg₁ := CodeBuffer.align_grows b (max config.poolAlignment.toNat 16)
  have hpool : max config.poolAlignment.toNat 16 ≤ Word.modulus :=
    max_le (UInt64.toNat_lt _).le (by decide)
  have ho₁ := offset_align_of_empty hi hb hpool
  simp only [align] at hf hr hd ⊢
  generalize b.align (max config.poolAlignment.toNat 16) = b₁ at *
  have hg₂ := ConstantPool.place_grows .x86_64 f.constantPool b₁
  have hg₃ := JumpTableLayout.reserve_grows hr
  have hg₄ := CodeBuffer.align_grows c
    (max (max f.alignment.toNat config.minFunctionAlignment.toNat) 8)
  have hi₁ : b₁.Intact := hg₁.intact_right hi.writable
    (hg₂.overflow (hg₃.overflow (hg₄.overflow hd)))
  have hi₃ : c.Intact := ((hg₁.trans hg₂).trans hg₃).intact_right hi.writable (hg₄.overflow hd)
  obtain ⟨hconstants, hslots, hplanned, hcode⟩ := ConstantPool.place_in_empty hi₁ ho₁ hf
    (hg₃.overflow (hg₄.overflow hd))
  have hsize : (ConstantPool.place .x86_64 f.constantPool b₁).buffer.offset = f.poolSize := by
    have hlen := congrArg Array.size hcode
    rwa [Plan.size_apply, Array.size_replicate] at hlen
  generalize (ConstantPool.place .x86_64 f.constantPool b₁) = placed at *
  have hle := hg₃.offset_le
  have hle' := hg₄.offset_le
  have hcap₃ : c.offset ≤ Host.maxBlockSize := by
    have hlast := c.offset_le_capacity
    rw [((hg₁.trans hg₂).trans hg₃).capacity] at hlast
    omega
  simp only [Host.maxBlockSize] at hcap₃
  have hmod : f.poolSize < Word.modulus := by
    simp only [Word.modulus]
    omega
  refine ⟨hconstants, hslots, hplanned, ?_, ?_, ?_, ?_, ?_⟩
  · intro k hk
    dsimp only
    rw [CodeBuffer.getElem?_align _ (by omega), JumpTableLayout.getElem?_reserve hr (by omega),
      hcode]
    rfl
  · dsimp only [offset]
    omega
  · intro l hl
    cases hl
    have hbase := (JumpTableLayout.reserve_base hr).1
    have hreserved := JumpTableLayout.reserve_reserved hr
    obtain ⟨j, hj, hpow⟩ := JumpTableLayout.entryAlign_eq_pow hreserved.not_inline
    have hlow := Word.le_alignTo (2 ^ j) hmod
    have hhigh := Word.alignTo_le f.poolSize (2 ^ j)
    have height : 2 ^ j ≤ 8 := Nat.pow_le_pow_right (by decide) hj
    rw [hsize, hpow] at hbase
    dsimp only [offset]
    omega
  · intro hfa hca l hl
    cases hl
    exact tables_end_le hi₃ hcap₃ hr hd hfa hca
  · intro info hinfo htables hkind
    rw [hinfo] at hr
    exact JumpTableLayout.reserve_described rfl hr (hg₄.overflow hd) htables hkind

theorem layOut_places (hi : b.Intact) (hb : b.offset = 0) (hcap : b.capacity ≤ Host.maxBlockSize)
    (h : layOut .x86_64 config f b = .ok d) (hd : d.buffer.overflow = none) : d.Places config f := by
  obtain ⟨c, hc, he⟩ := layOut_front hi h hd
  have hp := front_places hi hb hcap hc (he.grows.overflow hd)
  have hstart := (front_bare hc).codeOffset
  have hle := hp.pool_le
  refine ⟨hp.constants, ?_, hp.planned, ?_, ?_, ?_, ?_, ?_⟩
  · rw [he.layout]
    exact hp.slots
  · intro k hk
    have hlt : k < c.buffer.code.size := by
      change k < c.offset
      omega
    rw [he.code, Array.getElem?_append_left hlt]
    exact hp.written k hk
  · rw [he.codeOffset]
    exact hle
  · rw [he.layout, he.codeOffset]
    exact hp.tables
  · rw [he.layout, he.codeOffset]
    exact hp.tables_le
  · rw [he.layout]
    exact hp.described

end Draft

end CodeEmission
