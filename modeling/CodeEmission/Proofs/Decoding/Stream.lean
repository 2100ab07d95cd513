import CodeEmission.Proofs.Decoding.Operations
import CodeEmission.Proofs.Layout.Stream

/-! # Streams read back

Machine code is read one instruction after another until nothing is left. The bytes of a stream of
instructions are read as what its instructions stand for, in order.
-/

namespace CodeEmission.X86

namespace Reader

variable {α β : Type} {p q : Reader α} {k : α → Reader β}

def Consumes (p : Reader α) : Prop := ∀ ⦃bs a rest⦄, p bs = some (a, rest) → rest.length ≤ bs.length

theorem consumes_pure (a : α) : Consumes (pure a : Reader α) := by
  intro bs b rest h
  cases h
  exact le_refl _

theorem consumes_failure : Consumes (failure : Reader α) := by
  intro bs a rest h
  cases h

theorem Consumes.bind (hp : Consumes p) (hk : ∀ a, Consumes (k a)) : Consumes (p >>= k) := by
  intro bs b rest h
  obtain ⟨⟨a, mid⟩, ha, hb⟩ := Option.bind_eq_some_iff.1 h
  exact (hk a hb).trans (hp ha)

theorem Consumes.ite {c : Prop} [Decidable c] (hp : Consumes p) (hq : Consumes q) :
    Consumes (if c then p else q) := by
  split
  · exact hp
  · exact hq

theorem length_byte {bs rest : List UInt8} {b : UInt8} (h : byte bs = some (b, rest)) :
    rest.length < bs.length := by
  cases bs with
  | nil => cases h
  | cons b bs =>
    cases h
    exact Nat.lt_succ_self _

theorem consumes_byte : Consumes byte := fun _ _ _ h => (length_byte h).le

theorem consumes_rex : Consumes rex := by
  intro bs r rest h
  unfold rex at h
  split at h
  · cases h
    exact le_refl _
  · split at h
    · cases h
      exact Nat.le_succ _
    · cases h
      exact le_refl _

theorem consumes_signed (width : Nat) : Consumes (signed width) := by
  intro bs n rest h
  unfold signed at h
  split at h
  · cases h
    rw [List.length_drop]
    exact Nat.sub_le _ _
  · cases h

theorem consumes_displacement (mode : UInt8) : Consumes (displacement mode) :=
  .ite (consumes_signed 1) (.ite (consumes_signed 4) (consumes_pure 0))

theorem consumes_indexed (rex : Rex) (mode : UInt8) : Consumes (indexed rex mode) :=
  consumes_byte.bind fun _ =>
    .ite ((consumes_signed 4).bind fun _ => consumes_pure _)
      ((consumes_displacement mode).bind fun _ => consumes_pure _)

theorem consumes_operands (rex : Rex) : Consumes (operands rex) :=
  consumes_byte.bind fun _ => .bind
    (.ite (consumes_pure _) <|
      .ite ((consumes_indexed rex _).bind fun _ => consumes_pure _) <|
      .ite ((consumes_signed 4).bind fun _ => consumes_pure _) <|
      (consumes_displacement _).bind fun _ => consumes_pure _)
    fun _ => consumes_pure _

theorem consumes_arithmetic (extension : UInt8) (dst : Operand) (imm : Int) :
    Consumes (arithmetic extension dst imm) :=
  .ite (consumes_pure _) (.ite (consumes_pure _) (.ite (consumes_pure _) consumes_failure))

theorem consumes_operation (opcode extension : UInt8) (reg : Register) (rm : Operand) :
    Consumes (operation opcode extension reg rm) := by
  refine
    .ite (consumes_pure _) <| .ite (consumes_pure _) <| .ite (consumes_pure _) <|
    .ite (consumes_pure _) <|
    .ite ((consumes_signed 4).bind fun _ => consumes_arithmetic _ _ _) <|
    .ite ((consumes_signed 1).bind fun _ => consumes_arithmetic _ _ _) <|
    .ite (consumes_pure _) <| .ite (consumes_pure _) <| .ite ?lea <|
    .ite ((consumes_signed 4).bind fun _ => consumes_pure _) consumes_failure
  cases rm with
  | memory address => exact consumes_pure _
  | _ => exact consumes_failure

theorem consumes_afterOpcode (rex : Rex) (opcode : UInt8) : Consumes (afterOpcode rex opcode) := by
  have htwo (second : UInt8) : Consumes (twoByte rex second) :=
    .ite ((consumes_signed 4).bind fun _ => consumes_pure _) <|
    .ite ((consumes_operands rex).bind fun _ => consumes_pure _) consumes_failure
  have hwide : Consumes (wide rex opcode) :=
    .ite ((consumes_signed 8).bind fun _ => consumes_pure _) <|
    (consumes_operands rex).bind fun _ => consumes_operation _ _ _ _
  exact
    .ite (consumes_byte.bind htwo) <| .ite (consumes_pure _) <| .ite (consumes_pure _) <|
    .ite (consumes_pure _) <| .ite (consumes_pure _) <|
    .ite ((consumes_signed 4).bind fun _ => consumes_pure _) <|
    .ite ((consumes_signed 4).bind fun _ => consumes_pure _) <|
    .ite ((consumes_operands rex).bind fun _ =>
      .ite (consumes_pure _) (.ite (consumes_pure _) consumes_failure)) <|
    .ite hwide consumes_failure

end Reader

open Reader

theorem length_decode {bs rest : List UInt8} {i : MachineInstruction}
    (h : decode bs = some (i, rest)) : rest.length < bs.length := by
  obtain ⟨⟨rex, afterRex⟩, hrex, h⟩ := Option.bind_eq_some_iff.1 h
  obtain ⟨⟨opcode, mid⟩, hopcode, h⟩ := Option.bind_eq_some_iff.1 h
  have hle := consumes_rex hrex
  have hlt := length_byte hopcode
  have hrest := consumes_afterOpcode rex opcode h
  omega

def decodeAll (bs : List UInt8) : Option (List MachineInstruction) :=
  if bs = [] then some []
  else
    match _h : decode bs with
    | none => none
    | some (i, rest) => (decodeAll rest).map (i :: ·)
termination_by bs.length
decreasing_by exact length_decode _h

@[simp] theorem decodeAll_nil : decodeAll [] = some [] := by
  rw [decodeAll, if_pos rfl]

theorem decodeAll_append {bs : List UInt8} {i : MachineInstruction} (h : Reads decode bs i)
    (rest : List UInt8) : decodeAll (bs ++ rest) = (decodeAll rest).map (i :: ·) := by
  have hlen := length_decode (h rest)
  have hne : bs ++ rest ≠ [] := by
    intro hnil
    rw [hnil] at hlen
    exact Nat.not_lt_zero _ hlen
  rw [decodeAll, if_neg hne]
  split
  · rename_i hnone
    rw [h rest] at hnone
    cases hnone
  · rename_i hsome
    rw [h rest] at hsome
    cases hsome
    rfl

namespace Instruction

/-- What the processor is to make of an instruction. Addresses that are not known yet are zero, and
labels and source positions are nothing to it. -/
def meaning : Instruction → List MachineInstruction
  | .movRR dst src => [.mov (.register dst) (.register src)]
  | .movRI dst imm => [.mov (.register dst) (.immediate imm.toInt)]
  | .load dst base disp => [.mov (.register dst) (.memory (.sum (some base) none disp.toInt))]
  | .store base disp src => [.mov (.memory (.sum (some base) none disp.toInt)) (.register src)]
  | .addRR dst src => [.add (.register dst) (.register src)]
  | .addRI dst imm => [.add (.register dst) (.immediate imm.toInt)]
  | .subRR dst src => [.sub (.register dst) (.register src)]
  | .subRI dst imm => [.sub (.register dst) (.immediate imm.toInt)]
  | .imulRR dst src => [.imul dst (.register src)]
  | .cmpRR dst src => [.cmp (.register dst) (.register src)]
  | .cmpRI dst imm => [.cmp (.register dst) (.immediate imm.toInt)]
  | .push reg => [.push reg]
  | .pop reg => [.pop reg]
  | .nop => [.nop]
  | .ret => [.ret]
  | .jmp _ => [.jmp 0]
  | .jcc cond _ => [.jcc cond 0]
  | .call _ => [.call 0]
  | .callSymbol _ => [.mov (.register .r11) (.immediate 0), .callTo (.register .r11)]
  | .loadGlobal dst _ | .loadIndirect dst _ | .loadBlockAddress dst _ =>
    [.mov (.register dst) (.immediate 0)]
  | .loadConst dst _ => [.mov (.register dst) (.memory (.relative 0))]
  | .leaJumpTable dst _ => [.lea dst (.relative 0)]
  -- The stack pointer cannot be an index.
  | .loadTableEntry dst table index =>
    [.movsxd dst (.memory (.sum (some table) (if index = .rsp then none else some (index, 2)) 0)),
      .add (.register dst) (.register table)]
  | .jmpReg reg => [.jmpTo (.register reg)]
  | .label _ | .debugLoc .. => []

theorem meaning_moveImmediate (dst : Register) (imm : Int64) :
    (moveImmediate dst imm).meaning = .mov (.register dst) (.immediate imm.toInt) := by
  unfold moveImmediate
  split
  · rename_i hfits
    have hmin : -2147483648 ≤ imm.toInt := Int64.le_iff_toInt_le.1 hfits.1
    have hmax : imm.toInt ≤ 2147483647 := Int64.le_iff_toInt_le.1 hfits.2
    rw [Operation.meaning, Int64.toInt_toInt32, Int.bmod_eq_of_le (by omega) (by omega)]
  · rfl

theorem meaning_eq (i : Instruction) : i.meaning = i.operations.map Operation.meaning := by
  cases i with
  | movRI dst imm => rw [operations, List.map_singleton, meaning_moveImmediate, meaning]
  | _ => rfl

/-- The bytes of an instruction are read as what it stands for, whatever comes after them. -/
theorem decodeAll_encode_append (i : Instruction) (rest : List UInt8) :
    decodeAll (i.encode ++ rest) = (decodeAll rest).map (i.meaning ++ ·) := by
  rw [encode, meaning_eq]
  induction i.operations with
  | nil => simp
  | cons op ops ih =>
    rw [List.flatMap_cons, List.append_assoc, decodeAll_append op.reads_bytes, ih, Option.map_map]
    rfl

theorem decodeAll_encodeAll (is : List Instruction) :
    decodeAll (encodeAll is) = some (is.flatMap meaning) := by
  induction is with
  | nil => exact decodeAll_nil
  | cons i is ih => rw [encodeAll_cons, decodeAll_encode_append, ih, List.flatMap_cons, Option.map_some]

end Instruction

end CodeEmission.X86

namespace CodeEmission.Draft

open X86.Instruction

variable {d e : Draft} {is : List X86.Instruction}

/-- Instructions with room for them in a buffer are emitted unless a label of theirs is taken, and the
bytes they leave are read, to the last one, as what they stand for. -/
theorem emitted_bytes_decode (is : List X86.Instruction) (d : Draft) (hd : d.buffer.Intact)
    (hroom : d.offset + (encodeAll is).length ≤ d.buffer.capacity) :
    ((∃ e, is.foldlM emit d = .ok e) ↔
        (is.filterMap label?).Nodup ∧
          ∀ l ∈ is.filterMap label?, d.locations.label? l = none) ∧
      ∀ e, is.foldlM emit d = .ok e →
        e.buffer.overflow = none ∧
          ∃ bytes : List UInt8, e.buffer.code = d.buffer.code ++ bytes.toArray ∧
            X86.decodeAll bytes = some (is.flatMap meaning) := by
  refine ⟨⟨?_, fun h => exists_foldlM_emit hd hroom h.1 h.2⟩, ?_⟩
  · rintro ⟨e, he⟩
    obtain ⟨_, hx⟩ := extends_of_room hd hroom he
    rw [← map_fst_labelsFrom d.offset]
    refine ⟨hx.labels_nodup, ?_⟩
    intro l hl
    obtain ⟨s, hs, rfl⟩ := List.mem_map.1 hl
    exact hx.labels_new s hs
  · intro e he
    obtain ⟨ho, hx⟩ := extends_of_room hd hroom he
    exact ⟨ho, encodeAll is, hx.code, decodeAll_encodeAll is⟩

/-- Bases that need an index byte or a displacement, immediates of both lengths, and a call of two
machine instructions. -/
theorem emitted_bytes_decode_sample :
    ∃ e, [.label ⟨0⟩, .load .rax .rsp 0, .store .r13 0 .r12, .movRI .r8 (-1), .debugLoc 1 2,
          .addRI .rbx 128, .callSymbol "f", .jcc .e ⟨7⟩].foldlM emit
        { function := "f", buffer := .ofCapacity 64 } = .ok e ∧
      ∃ bytes : List UInt8, e.buffer.code = bytes.toArray ∧
        X86.decodeAll bytes = some
          [.mov (.register .rax) (.memory (.sum (some .rsp) none 0)),
            .mov (.memory (.sum (some .r13) none 0)) (.register .r12),
            .mov (.register .r8) (.immediate (-1)),
            .add (.register .rbx) (.immediate 128),
            .mov (.register .r11) (.immediate 0), .callTo (.register .r11), .jcc .e 0] := by
  obtain ⟨hok, hall⟩ := emitted_bytes_decode
    [.label ⟨0⟩, .load .rax .rsp 0, .store .r13 0 .r12, .movRI .r8 (-1), .debugLoc 1 2,
      .addRI .rbx 128, .callSymbol "f", .jcc .e ⟨7⟩]
    { function := "f", buffer := .ofCapacity 64 } (CodeBuffer.ofCapacity_intact 64) (by decide)
  obtain ⟨e, he⟩ := hok.2 ⟨by decide, by decide⟩
  obtain ⟨-, bytes, hcode, hdecode⟩ := hall e he
  exact ⟨e, he, bytes, hcode.trans Array.empty_append, hdecode⟩

end CodeEmission.Draft
