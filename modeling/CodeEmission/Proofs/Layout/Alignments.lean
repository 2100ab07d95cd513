import CodeEmission.Proofs.Layout.Places

/-! # Alignments in a buffer

The code of a function and its jump tables start at multiples of their alignments, counted from the
start of the buffer. Whether their addresses are multiples too is up to the block of the buffer.
-/

namespace CodeEmission

namespace Word

variable {a b : Nat}

theorem isAlignment_max_one (h : IsAlignment a) : IsAlignment (max a 1) := h.max (.inr ⟨0, rfl⟩)

/-- Of two alignments the larger one is a multiple of the other. -/
theorem IsAlignment.dvd_of_le (ha : IsAlignment a) (hb : IsAlignment b) (hpos : 0 < a) (hle : a ≤ b) :
    a ∣ b := by
  obtain ⟨j, rfl⟩ := ha.exists_pow hpos
  obtain ⟨k, rfl⟩ := hb.exists_pow (hpos.trans_le hle)
  exact Nat.pow_dvd_pow 2 ((Nat.pow_le_pow_iff_right (by decide)).1 hle)

theorem IsAlignment.dvd_modulus (ha : IsAlignment a) (hpos : 0 < a) (hlt : a < modulus) :
    a ∣ modulus :=
  ha.dvd_of_le (.inr ⟨64, rfl⟩) hpos hlt.le

end Word

theorem Block.dvd_addressAt (b : Block) {n offset : Nat} (hn : n ∣ Word.modulus) (ho : n ∣ offset) :
    n ∣ (b.addressAt offset).toNat ↔ n ∣ b.address.toNat := by
  have hn : n ∣ 2 ^ 64 := hn
  have hoffset : n ∣ (UInt64.ofNat offset).toNat := by
    rw [UInt64.toNat_ofNat']
    exact (Nat.dvd_mod_iff hn).2 ho
  rw [addressAt, UInt64.toNat_add, Nat.dvd_mod_iff hn]
  exact (Nat.dvd_add_iff_left hoffset).symm

theorem JumpTableLayout.reserve_aligned {info : Option JumpTableInfo} {b c : CodeBuffer}
    {l : JumpTableLayout} (hb : b.offset ≤ Host.maxBlockSize)
    (h : reserve .x86_64 info b = .ok (c, some l)) {slots offset : Nat}
    (ho : l.slotOffset slots = .ok offset) :
    Target.x86_64.jumpTableEntryAlign l.kind ∣ offset := by
  have hreserved := reserve_reserved h
  obtain ⟨j, hj, hpow⟩ := entryAlign_eq_pow hreserved.not_inline
  have hsize : Target.x86_64.jumpTableEntryAlign l.kind ∣ l.entrySize := by
    rw [hreserved.entrySize]
    cases l.kind <;> decide
  have hbase := (reserve_base h).1
  have hsmall : 2 ^ j ≤ 8 := Nat.pow_le_pow_right (by decide) hj
  obtain ⟨-, -, rfl⟩ := slotOffset_eq_ok.1 ho
  rw [hpow] at hsize hbase ⊢
  refine Nat.dvd_add ?_ (Nat.dvd_mul_left_of_dvd hsize slots)
  rw [hbase]
  refine Word.dvd_alignTo ?_
  simp only [Host.maxBlockSize] at hb
  simp only [Word.modulus]
  omega

namespace Draft

variable {config : Config} {f : MachineFunction} {b : CodeBuffer} {d : Draft}

/-- The parts of a function whose places are chosen by their alignments, the pool apart. -/
structure Aligned (d : Draft) (config : Config) (f : MachineFunction) : Prop where
  code : Word.IsAlignment f.alignment.toNat → Word.IsAlignment config.minFunctionAlignment.toNat →
    max (max f.alignment.toNat config.minFunctionAlignment.toNat) 8 ∣ d.codeOffset
  tables : ∀ l, d.layout.jumpTables = some l → ∀ slots offset, l.slotOffset slots = .ok offset →
    Target.x86_64.jumpTableEntryAlign l.kind ∣ offset

theorem front_aligned (hi : b.Intact) (hcap : b.capacity ≤ Host.maxBlockSize)
    (h : front .x86_64 config f b = .ok d) (hd : d.buffer.overflow = none) : d.Aligned config f := by
  obtain ⟨p, q, hp, hq, rfl⟩ := front_eq_ok.1 h
  obtain ⟨_, log, rfl⟩ := placePool_eq_ok hp
  obtain ⟨c, jumpTables, log', hr, rfl⟩ := placeTables_eq_ok hq
  have hpool : b.Grows (ConstantPool.place .x86_64 f.constantPool
      (b.align (max config.poolAlignment.toNat 16))).buffer :=
    (CodeBuffer.align_grows b _).trans (ConstantPool.place_grows _ _ _)
  have htables := hpool.trans (JumpTableLayout.reserve_grows hr)
  have hgrows := CodeBuffer.align_grows c
    (max (max f.alignment.toNat config.minFunctionAlignment.toNat) 8)
  have hcode : c.Intact := htables.intact_right hi.writable (hgrows.overflow hd)
  constructor
  · intro hf hc
    obtain ⟨k, _, _, hk⟩ := codeAlignment_eq_pow hf hc
    have hfits : c.capacity ≤ Host.maxBlockSize := htables.capacity ▸ hcap
    have hcursor : c.offset < Word.modulus := Nat.lt_succ_of_le c.offset_le_largest
    have hoffset := offset_align hcode hd
    have hlast := (c.align (max (max f.alignment.toNat config.minFunctionAlignment.toNat)
      8)).offset_le_capacity
    rw [hgrows.capacity] at hlast
    have hlt := (hlast.trans hfits).trans_lt (by decide : Host.maxBlockSize < Word.largest)
    simp only [align, offset]
    rw [hoffset, hk] at hlt ⊢
    exact Word.dvd_alignTo_of_lt hcursor hlt
  · intro l hl slots o ho
    cases hl
    refine JumpTableLayout.reserve_aligned ?_ hr ho
    have hlast := (ConstantPool.place .x86_64 f.constantPool
      (b.align (max config.poolAlignment.toNat 16))).buffer.offset_le_capacity
    rw [hpool.capacity] at hlast
    exact hlast.trans hcap

theorem layOut_aligned (hi : b.Intact) (hcap : b.capacity ≤ Host.maxBlockSize)
    (h : layOut .x86_64 config f b = .ok d) (hd : d.buffer.overflow = none) : d.Aligned config f := by
  obtain ⟨c, hc, he⟩ := layOut_front hi h hd
  have hfront := front_aligned hi hcap hc (he.grows.overflow hd)
  constructor
  · rw [he.codeOffset]
    exact hfront.code
  · rw [he.layout]
    exact hfront.tables

end Draft

end CodeEmission
