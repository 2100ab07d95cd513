import CodeEmission.Proofs.Decoding.Stream

/-! # Fields of references

An instruction that refers to something has one field for it, a displacement of 32 bits or an immediate
of 64. Whatever number is put into this field, the instruction is read back with that number in it. A
displacement comes last, so that it is measured from the next instruction.
-/

namespace CodeEmission.X86.Instruction

def reference? : Instruction → Option RelocTarget
  | .jmp block | .jcc _ block | .loadBlockAddress _ block => some (.basicBlock block)
  | .call func => some (.globalValue (.function func))
  | .callSymbol name => some (.externalSymbol name)
  | .loadGlobal _ global => some (.globalValue global)
  | .loadIndirect _ global => some (.indirectSymbol global)
  | .loadConst _ index => some (.constantPool index.toNat)
  | .leaJumpTable _ index => some (.jumpTable index.toNat)
  | _ => none

/-- What the processor is to make of an instruction once there is a number for its reference. -/
def meaningWith (n : Int) : Instruction → List MachineInstruction
  | .jmp _ => [.jmp n]
  | .jcc cond _ => [.jcc cond n]
  | .call _ => [.call n]
  | .callSymbol _ => [.mov (.register .r11) (.immediate n), .callTo (.register .r11)]
  | .loadGlobal dst _ | .loadIndirect dst _ | .loadBlockAddress dst _ =>
    [.mov (.register dst) (.immediate n)]
  | .loadConst dst _ => [.mov (.register dst) (.memory (.relative n))]
  | .leaJumpTable dst _ => [.lea dst (.relative n)]
  | i => i.meaning

theorem reference?_eq_fixup? (i : Instruction) : i.reference? = i.fixup?.map (·.target) := by
  cases i <;> rfl

/-- The bytes of an instruction as they are around a field of some width: the field holds zero, and any
other number that it could hold is what the instruction is read with. -/
structure FieldBetween (i : Instruction) (width : Nat) (front back : List UInt8) : Prop where
  zero : i.encode = front ++ List.replicate width 0 ++ back
  read : ∀ n : Nat, decodeAll (front ++ Bytes.littleEndian width n ++ back) =
    some (i.meaningWith (Int.bmod n (256 ^ width)))

theorem littleEndian_zero (width : Nat) : Bytes.littleEndian width 0 = List.replicate width 0 := by
  induction width with
  | zero => rfl
  | succ width ih =>
    rw [Bytes.littleEndian, Nat.zero_mod, Nat.zero_div, ih, List.replicate_succ]
    rfl

theorem decodeAll_operations (ops : List Operation) :
    decodeAll (ops.flatMap Operation.bytes) = some (ops.map Operation.meaning) := by
  induction ops with
  | nil => exact decodeAll_nil
  | cons op ops ih =>
    rw [List.flatMap_cons, decodeAll_append op.reads_bytes, ih, Option.map_some, List.map_cons]

theorem bytes_halfOf_ofNat (n : Nat) :
    (halfOf (Int32.ofNat n)).bytes = Bytes.littleEndian 4 n ∧
      (Int32.ofNat n).toInt = Int.bmod n (256 ^ 4) := by
  have hvalue : (Int32.ofNat n).toUInt32.toNat = n % 256 ^ 4 := UInt32.toNat_ofNat'
  refine ⟨?_, Int32.toInt_ofNat'⟩
  rw [halfOf, Field.bytes, hvalue, Bytes.littleEndian_mod]

theorem bytes_full_ofNat (n : Nat) :
    (Field.full (Int64.ofNat n).toUInt64).bytes = Bytes.littleEndian 8 n ∧
      (Int64.ofNat n).toInt = Int.bmod n (256 ^ 8) := by
  have hvalue : (Int64.ofNat n).toUInt64.toNat = n % 256 ^ 8 := UInt64.toNat_ofNat'
  refine ⟨?_, Int64.toInt_ofNat'⟩
  rw [Field.bytes, hvalue, Bytes.littleEndian_mod]

/-- A displacement at the end of the only operation. -/
theorem fieldBetween_half {i : Instruction} (head : List Field) (op : Int32 → Operation)
    (hops : i.operations = [op 0]) (hfields : ∀ d, (op d).fields = head ++ [halfOf d])
    (hmeaning : ∀ d : Int32, i.meaningWith d.toInt = [(op d).meaning]) :
    i.FieldBetween 4 (head.flatMap Field.bytes) [] := by
  have hbytes (n : Nat) : [op (Int32.ofNat n)].flatMap Operation.bytes =
      head.flatMap Field.bytes ++ Bytes.littleEndian 4 n := by
    rw [List.flatMap_singleton, Operation.bytes, hfields, List.flatMap_append, List.flatMap_singleton,
      (bytes_halfOf_ofNat n).1]
  refine ⟨?_, ?_⟩
  · rw [encode, hops, ← littleEndian_zero, List.append_nil]
    exact hbytes 0
  · intro n
    rw [List.append_nil, ← hbytes, decodeAll_operations, ← (bytes_halfOf_ofNat n).2, hmeaning]
    rfl

theorem fieldBetween_full {i : Instruction} {dst : Register} {ops : List Operation}
    (hops : i.operations = .movImm64 dst 0 :: ops)
    (hmeaning : ∀ v : Int64, i.meaningWith v.toInt =
      .mov (.register dst) (.immediate v.toInt) :: ops.map Operation.meaning) :
    i.FieldBetween 8 ((rexW dst.rexB).bytes ++ [0xB8 + dst.code])
      (ops.flatMap Operation.bytes) := by
  have hbytes (n : Nat) : (Operation.movImm64 dst (Int64.ofNat n) :: ops).flatMap Operation.bytes =
      (rexW dst.rexB).bytes ++ [0xB8 + dst.code] ++ Bytes.littleEndian 8 n ++
        ops.flatMap Operation.bytes := by
    rw [List.flatMap_cons, ← (bytes_full_ofNat n).1]
    simp [Operation.bytes, Operation.fields, Field.bytes]
  refine ⟨?_, ?_⟩
  · rw [encode, hops, ← littleEndian_zero]
    exact hbytes 0
  · intro n
    rw [← hbytes, decodeAll_operations, ← (bytes_full_ofNat n).2, hmeaning]
    rfl

/-- The field of a fixup is the displacement or the immediate of its instruction, and a displacement
ends with the instruction. -/
theorem exists_fieldBetween {i : Instruction} {f : Fixup} (h : i.fixup? = some f) :
    ∃ front back, f.offset = front.length ∧ (f.kind = .pcRel32 → back = []) ∧
      i.FieldBetween f.kind.width front back := by
  have hrelative {dst : Register} {opcode : UInt8} :
      ([rexW dst.rexR, .byte opcode, .byte (modRM 0 dst.code 5)].flatMap Field.bytes).length = 3 := rfl
  cases i with
  | jmp block =>
    cases h
    exact ⟨[0xE9], [], rfl, fun _ => rfl,
      fieldBetween_half [.byte 0xE9] .jmp rfl (fun _ => rfl) fun _ => rfl⟩
  | jcc cond block =>
    cases h
    exact ⟨[0x0F, 0x80 + cond.number], [], rfl, fun _ => rfl,
      fieldBetween_half [.byte 0x0F, .byte (0x80 + cond.number)] (.jcc cond) rfl (fun _ => rfl)
        fun _ => rfl⟩
  | call func =>
    cases h
    exact ⟨[0xE8], [], rfl, fun _ => rfl,
      fieldBetween_half [.byte 0xE8] .call rfl (fun _ => rfl) fun _ => rfl⟩
  | callSymbol name =>
    cases h
    exact ⟨_, _, rfl, nofun, fieldBetween_full rfl fun _ => rfl⟩
  | loadGlobal dst global =>
    cases h
    exact ⟨_, _, rfl, nofun, fieldBetween_full rfl fun _ => rfl⟩
  | loadIndirect dst global =>
    cases h
    exact ⟨_, _, rfl, nofun, fieldBetween_full rfl fun _ => rfl⟩
  | loadBlockAddress dst block =>
    cases h
    exact ⟨_, _, rfl, nofun, fieldBetween_full rfl fun _ => rfl⟩
  | loadConst dst index =>
    cases h
    exact ⟨_, [], hrelative.symm, fun _ => rfl,
      fieldBetween_half _ (.loadRelative dst) rfl (fun _ => rfl) fun _ => rfl⟩
  | leaJumpTable dst index =>
    cases h
    exact ⟨_, [], hrelative.symm, fun _ => rfl,
      fieldBetween_half _ (.leaRelative dst) rfl (fun _ => rfl) fun _ => rfl⟩
  | _ => cases h

def placesFrom (start : Nat) : List Instruction → List (Nat × Instruction)
  | [] => []
  | i :: is => (start, i) :: placesFrom (start + i.encode.length) is

def referencesFrom (start : Nat) (is : List Instruction) : List (Nat × Instruction) :=
  (placesFrom start is).filter fun p => p.2.reference?.isSome

/-- An entry of the log of a stream from `start` on that was made for the instruction at a place. -/
def LoggedAt (start : Nat) (is : List Instruction) (p : Nat × Instruction) (e : Relocation) : Prop :=
  ∃ before after f, is = before ++ p.2 :: after ∧ p.1 = start + (encodeAll before).length ∧
    p.2.fixup? = some f ∧ e = f.relocationAt p.1

/-- The log of a stream has one entry for each instruction that refers to something, in order. -/
theorem relocationsFrom_loggedAt (start : Nat) (is : List Instruction) :
    List.Forall₂ (LoggedAt start is) (referencesFrom start is) (relocationsFrom start is) := by
  suffices hrest : ∀ before after, is = before ++ after →
      List.Forall₂ (LoggedAt start is) (referencesFrom (start + (encodeAll before).length) after)
        (relocationsFrom (start + (encodeAll before).length) after) from hrest [] is rfl
  intro before after his
  induction after generalizing before with
  | nil => exact .nil
  | cons i after ih =>
    have hnext := ih (before ++ [i]) (by simpa using his)
    rw [encodeAll_append, encodeAll_cons, encodeAll_nil, List.append_nil, List.length_append,
      ← Nat.add_assoc] at hnext
    unfold referencesFrom placesFrom relocationsFrom
    rw [List.filter_cons, reference?_eq_fixup?]
    cases hf : i.fixup? with
    | none => exact hnext
    | some f => exact .cons ⟨before, after, f, his, rfl, hf, rfl⟩ hnext

end CodeEmission.X86.Instruction
