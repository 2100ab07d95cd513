import CodeEmission.Proofs.Layout.Stream

/-! # The log of references

The field that a reference is patched into lies within the bytes of its instruction, so the fields
of a stream follow one another without overlap. No entry has an addend or is left to the target.
-/

namespace CodeEmission

/-- What code can refer to by distance: the function that it calls, and parts of its own function. -/
inductive RelocTarget.Near : RelocTarget → Prop
  | call (id : FuncId) : Near (.globalValue (.function id))
  | block (b : BlockId) : Near (.basicBlock b)
  | constant (index : Nat) : Near (.constantPool index)
  | table (index : Nat) : Near (.jumpTable index)

/-- What code can refer to by its address: symbols, globals, and blocks of its own function. -/
inductive RelocTarget.Addressable : RelocTarget → Prop
  | symbol (name : String) : Addressable (.externalSymbol name)
  | global (g : GlobalRef) : Addressable (.globalValue g)
  | indirect (g : GlobalRef) : Addressable (.indirectSymbol g)
  | block (b : BlockId) : Addressable (.basicBlock b)

theorem RelocKind.width_pos (k : RelocKind) : 0 < k.width := by
  cases k <;> decide

namespace Relocation

structure Plain (r : Relocation) : Prop where
  addend : r.addend = 0
  leftToTarget : r.leftToTarget = false

end Relocation

namespace X86.Instruction

theorem length_half (v : UInt32) : (Field.half v).bytes.length = 4 := Bytes.length_littleEndian _ _

theorem length_full (v : UInt64) : (Field.full v).bytes.length = 8 := Bytes.length_littleEndian _ _

theorem length_byte (v : UInt8) : (Field.byte v).bytes.length = 1 := rfl

theorem fixup_le_length {i : Instruction} {f : Fixup} (h : i.fixup? = some f) :
    f.offset + f.kind.width ≤ i.encode.length := by
  cases i <;> cases h <;>
    simp [encode, operations, Operation.bytes, Operation.fields, relativeForm, rexW, halfOf,
      RelocKind.width, length_half, length_full, length_byte]
  omega

theorem exists_fixup_of_mem_relocationsFrom {start : Nat} {is : List Instruction} {r : Relocation}
    (h : r ∈ relocationsFrom start is) :
    ∃ i ∈ is, ∃ f place, i.fixup? = some f ∧ r = f.relocationAt place := by
  induction is generalizing start with
  | nil => simp [relocationsFrom] at h
  | cons i is ih =>
    rcases List.mem_append.1 h with h | h
    · obtain ⟨f, hf, rfl⟩ := by simpa using h
      exact ⟨i, List.mem_cons_self, f, start, hf, rfl⟩
    · obtain ⟨j, hj, hrest⟩ := ih h
      exact ⟨j, List.mem_cons_of_mem _ hj, hrest⟩

theorem plain_of_mem_relocationsFrom {start : Nat} {is : List Instruction} {r : Relocation}
    (h : r ∈ relocationsFrom start is) : r.Plain := by
  obtain ⟨_, _, _, _, _, rfl⟩ := exists_fixup_of_mem_relocationsFrom h
  exact ⟨rfl, rfl⟩

theorem field_of_mem_relocationsFrom {start : Nat} {is : List Instruction} {r : Relocation}
    (h : r ∈ relocationsFrom start is) :
    start ≤ r.offset ∧ r.fieldEnd ≤ start + (encodeAll is).length := by
  induction is generalizing start with
  | nil => simp [relocationsFrom] at h
  | cons i is ih =>
    rw [encodeAll_cons, List.length_append]
    rcases List.mem_append.1 h with h | h
    · obtain ⟨f, hf, rfl⟩ := by simpa using h
      have hle := fixup_le_length hf
      simp only [Relocation.fieldEnd, Fixup.relocationAt]
      omega
    · have hi := ih h
      omega

/-- Only calls and references to parts of the same function are relative to the code. -/
theorem near_of_pcRel32 {start : Nat} {is : List Instruction} {r : Relocation}
    (h : r ∈ relocationsFrom start is) (hk : r.kind = .pcRel32) : r.target.Near := by
  obtain ⟨i, _, f, _, hf, rfl⟩ := exists_fixup_of_mem_relocationsFrom h
  cases i <;> cases hf <;> first | constructor | cases hk

theorem addressable_of_abs64 {start : Nat} {is : List Instruction} {r : Relocation}
    (h : r ∈ relocationsFrom start is) (hk : r.kind = .abs64) : r.target.Addressable := by
  obtain ⟨i, _, f, _, hf, rfl⟩ := exists_fixup_of_mem_relocationsFrom h
  cases i <;> cases hf <;> first | constructor | cases hk

/-- The fields of a stream follow one another. -/
theorem pairwise_relocationsFrom (start : Nat) (is : List Instruction) :
    (relocationsFrom start is).Pairwise fun r s => r.fieldEnd ≤ s.offset := by
  induction is generalizing start with
  | nil => exact .nil
  | cons i is ih =>
    refine List.pairwise_append.2 ⟨?_, ih _, ?_⟩
    · cases i.fixup? <;> simp
    · intro r hr s hs
      obtain ⟨f, hf, rfl⟩ := by simpa using hr
      have hle := fixup_le_length hf
      have hge := (field_of_mem_relocationsFrom hs).1
      simp only [Relocation.fieldEnd, Fixup.relocationAt]
      omega

end X86.Instruction

end CodeEmission
