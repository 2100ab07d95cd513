import CodeEmission.Proofs.Decoding.Reader
import CodeEmission.Proofs.Resolution.Fields
import CodeEmission.X86.Operation

/-! # Operations read back

The bytes of an operation are read back as that operation with its operands, whatever bytes come after
them. Each field is read back on its own; an operand in memory is one operand however it is encoded.
-/

namespace CodeEmission.X86

namespace Reader

variable {α β : Type} {p : Reader α} {k : α → Reader β} {a : α} {b : β} {bs cs : List UInt8}

/-- Some bytes are read as `a`, and what comes after them is left. -/
def Reads (p : Reader α) (bs : List UInt8) (a : α) : Prop := ∀ rest, p (bs ++ rest) = some (a, rest)

theorem reads_pure (a : α) : Reads (pure a) [] a := fun _ => rfl

theorem Reads.bind (hp : Reads p bs a) (hk : Reads (k a) cs b) : Reads (p >>= k) (bs ++ cs) b := by
  intro rest
  have hrun : (p >>= k) (bs ++ cs ++ rest) = (p (bs ++ cs ++ rest)).bind fun x => k x.1 x.2 := rfl
  rw [hrun, List.append_assoc, hp, Option.bind_some, hk]

theorem Reads.map (hp : Reads p bs a) (hk : k a = pure b) : Reads (p >>= k) bs b := by
  have h := hp.bind (k := k) (hk ▸ reads_pure b)
  rwa [List.append_nil] at h

theorem reads_byte (x : UInt8) : Reads byte [x] x := fun _ => rfl

theorem reads_signed (width n : Nat) :
    Reads (signed width) (Bytes.littleEndian width n) (Int.bmod n (256 ^ width)) := by
  intro rest
  have hlen := Bytes.length_littleEndian width n
  unfold signed
  rw [if_pos (by rw [List.length_append]; omega), List.take_left' hlen, List.drop_left' hlen,
    Bytes.ofLittleEndian_littleEndian, Int.natCast_emod, Int.emod_bmod]

end Reader

open Reader

variable {dst src base index : Register} {cond : Condition} {disp imm n : Int32}

theorem Register.ofCode_code (r : Register) : Register.ofCode r.isExtended r.code = r := by
  cases r <;> rfl

theorem Register.code_lt (r : Register) : r.code < 8 := by cases r <;> decide

/-- The only register that cannot be an index. -/
theorem Register.code_eq_four (r : Register) : r.code = 4 ∧ r.isExtended = false ↔ r = .rsp := by
  cases r <;> decide

section Fields

theorem Rex.ofByte?_rexW (r x b : Register) :
    Rex.ofByte? (0x48 ||| (r.rexR ||| x.rexX ||| b.rexB)) =
      some { w := true, r := r.isExtended, x := x.isExtended, b := b.isExtended } := by
  unfold Register.rexR Register.rexX Register.rexB
  cases r.isExtended <;> cases x.isExtended <;> cases b.isExtended <;> rfl

theorem Rex.ofByte?_rexR_rexB (r b : Register) :
    Rex.ofByte? (0x48 ||| (r.rexR ||| b.rexB)) =
      some { w := true, r := r.isExtended, b := b.isExtended } := by
  have h := Rex.ofByte?_rexW r .rax b
  rwa [show Register.rexX .rax = 0 from rfl, UInt8.or_zero] at h

theorem Rex.ofByte?_rexR (r : Register) :
    Rex.ofByte? (0x48 ||| r.rexR) = some { w := true, r := r.isExtended } := by
  have h := Rex.ofByte?_rexR_rexB r .rax
  rwa [show Register.rexB .rax = 0 from rfl, UInt8.or_zero] at h

theorem Rex.ofByte?_rexB (b : Register) :
    Rex.ofByte? (0x48 ||| b.rexB) = some { w := true, b := b.isExtended } := by
  have h := Rex.ofByte?_rexR_rexB .rax b
  rwa [show Register.rexR .rax = 0 from rfl, UInt8.zero_or] at h

theorem parts_modRM {mode reg rm : UInt8} (hmode : mode < 4) (hreg : reg < 8) (hrm : rm < 8) :
    Parts.ofByte (modRM mode reg rm) = ⟨mode, reg, rm⟩ := by
  have hall : ∀ (m : Fin 4) (r b : Fin 8),
      Parts.ofByte (modRM (UInt8.ofNat m) (UInt8.ofNat r) (UInt8.ofNat b)) =
        ⟨UInt8.ofNat m, UInt8.ofNat r, UInt8.ofNat b⟩ := by decide +kernel
  simpa using hall ⟨mode.toNat, hmode⟩ ⟨reg.toNat, hreg⟩ ⟨rm.toNat, hrm⟩

theorem sib_eq_modRM {scale index base : UInt8} (hscale : scale < 4) (hindex : index < 8)
    (hbase : base < 8) : sib scale index base = modRM scale index base := by
  have hall : ∀ (s : Fin 4) (i b : Fin 8),
      sib (UInt8.ofNat s) (UInt8.ofNat i) (UInt8.ofNat b) =
        modRM (UInt8.ofNat s) (UInt8.ofNat i) (UInt8.ofNat b) := by decide +kernel
  simpa using hall ⟨scale.toNat, hscale⟩ ⟨index.toNat, hindex⟩ ⟨base.toNat, hbase⟩

theorem reads_full (imm : Int64) : Reads (signed 8) (Field.full imm.toUInt64).bytes imm.toInt := by
  have hvalue : imm.toInt = Int.bmod imm.toUInt64.toNat (256 ^ 8) :=
    BitVec.toInt_eq_toNat_bmod imm.toBitVec
  rw [hvalue]
  exact reads_signed 8 _

theorem reads_halfOf (n : Int32) : Reads (signed 4) (halfOf n).bytes n.toInt := by
  have hvalue : n.toInt = Int.bmod n.toUInt32.toNat (256 ^ 4) :=
    BitVec.toInt_eq_toNat_bmod n.toBitVec
  rw [hvalue]
  exact reads_signed 4 _

theorem reads_byteOf (h : fitsByte n = true) : Reads (signed 1) (byteOf n).bytes n.toInt := by
  unfold fitsByte at h
  simp only [Bool.and_eq_true, decide_eq_true_eq] at h
  have hmin : -128 ≤ n.toInt := Int32.le_iff_toInt_le.1 h.1
  have hmax : n.toInt ≤ 127 := Int32.le_iff_toInt_le.1 h.2
  have hvalue : n.toInt = Int.bmod n.toUInt32.toNat (2 ^ 32) :=
    BitVec.toInt_eq_toNat_bmod n.toBitVec
  have hlow : n.toInt = Int.bmod n.toUInt32.toNat (256 ^ 1) := by
    rw [← Int.bmod_bmod_of_dvd (m := 2 ^ 32) (by decide), ← hvalue]
    exact (Int.bmod_eq_of_le (by omega) (by omega)).symm
  have hbyte : n.toUInt32.toUInt8 = UInt8.ofNat (n.toUInt32.toNat % 256) := by
    refine UInt8.toNat_inj.1 ?_
    rw [UInt32.toNat_toUInt8, UInt8.toNat_ofNat', Nat.mod_mod]
  have hread := reads_signed 1 n.toUInt32.toNat
  rw [← hlow] at hread
  rw [byteOf, hbyte]
  exact hread

end Fields

section Operands

variable {rex : Rex} {mode reg rm : UInt8} {o : Operand} {bs : List UInt8}

theorem reads_operands (rex : Rex) (mode reg : UInt8) (hmode : mode < 4) (hreg : reg < 8)
    (hrm : rm < 8) (h : Reads (operand rex mode rm) bs o) :
    Reads (operands rex) (modRM mode reg rm :: bs) (reg, o) := by
  have hparts := parts_modRM hmode hreg hrm
  refine (reads_byte (modRM mode reg rm)).bind ?_
  simp only [hparts]
  exact h.map rfl

theorem reads_register (dst : Register) (hb : rex.b = dst.isExtended) :
    Reads (operand rex 3 dst.code) [] (.register dst) := by
  rw [operand, if_pos rfl, hb, Register.ofCode_code]
  exact reads_pure _

theorem reads_relative (disp : Int32) :
    Reads (operand rex 0 5) (halfOf disp).bytes (.memory (.relative disp.toInt)) :=
  (reads_halfOf disp).map rfl

theorem reads_indexed (scale code : UInt8) {d : Int} (hb : rex.b = base.isExtended)
    (hscale : scale < 4) (hcode : code < 8) (hfive : mode = 0 → base.code ≠ 5)
    (h : Reads (displacement mode) bs d) :
    Reads (indexed rex mode) (sib scale code base.code :: bs)
      (.sum (some base)
        (if code = 4 ∧ rex.x = false then none else some (.ofCode rex.x code, scale.toNat)) d) := by
  have hparts : Parts.ofByte (sib scale code base.code) = ⟨scale, code, base.code⟩ := by
    rw [sib_eq_modRM hscale hcode base.code_lt, parts_modRM hscale hcode base.code_lt]
  have hplain : ¬(mode = 0 ∧ base.code = 5) := fun hm => hfive hm.1 hm.2
  refine (reads_byte (sib scale code base.code)).bind ?_
  simp only [hparts, if_neg hplain, hb, Register.ofCode_code]
  exact h.map rfl

/-- A base is named by the operand byte or, if its code is taken there, by an index byte that names
no index. -/
theorem reads_based (mode : UInt8) {d : Int} (hb : rex.b = base.isExtended) (hx : rex.x = false)
    (hmode : mode < 3) (hfive : mode = 0 → base.code ≠ 5) (h : Reads (displacement mode) bs d) :
    Reads (operand rex mode base.code) ((if base.code = 4 then [0x24] else []) ++ bs)
      (.memory (.sum (some base) none d)) := by
  have hthree : mode ≠ 3 := by
    rintro rfl
    exact absurd hmode (by decide)
  rw [operand, if_neg hthree]
  split
  · rename_i hfour
    have hindex := reads_indexed 0 4 hb (by decide) (by decide) hfive h
    rw [hfour, hx, if_pos ⟨rfl, rfl⟩] at hindex
    exact hindex.map rfl
  · have hplain : ¬(mode = 0 ∧ base.code = 5) := fun hm => hfive hm.1 hm.2
    rw [if_neg hplain, hb, Register.ofCode_code]
    exact h.map rfl

/-- A memory operand is the sum of its base and its displacement in each of its encodings. -/
theorem reads_memoryOperand (disp : Int32) (hb : rex.b = base.isExtended) (hx : rex.x = false) (hreg : reg < 8) :
    Reads (operands rex) ((memoryOperand reg base disp).flatMap Field.bytes)
      (reg, .memory (.sum (some base) none disp.toInt)) := by
  have hindex : (if base.code = 4 then [Field.byte 0x24] else []).flatMap Field.bytes =
      if base.code = 4 then [0x24] else [] := by split <;> rfl
  unfold memoryOperand
  dsimp only
  split
  · rename_i hnone
    obtain ⟨rfl, hfive⟩ := hnone
    have h := reads_based 0 hb hx (by decide) (fun _ => hfive) (reads_pure 0)
    rw [List.append_nil] at h
    rw [List.flatMap_cons, hindex]
    exact reads_operands rex 0 reg (by decide) hreg base.code_lt h
  · split
    · rename_i hfits
      have h := reads_based 1 hb hx (by decide) (fun h => absurd h (by decide))
        (reads_byteOf hfits)
      rw [List.flatMap_cons, List.flatMap_append, hindex, List.flatMap_singleton]
      exact reads_operands rex 1 reg (by decide) hreg base.code_lt h
    · have h := reads_based 2 hb hx (by decide) (fun h => absurd h (by decide))
        (reads_halfOf disp)
      rw [List.flatMap_cons, List.flatMap_append, hindex, List.flatMap_singleton]
      exact reads_operands rex 2 reg (by decide) hreg base.code_lt h

end Operands

section Forms

variable {rex : Rex} {x opcode reg : UInt8} {i : MachineInstruction} {o : Operand} {bs cs : List UInt8}

theorem reads_decode (hx : Rex.ofByte? x = some rex) (h : Reads (afterOpcode rex opcode) bs i) :
    Reads decode (x :: opcode :: bs) i := by
  have hrex : Reads Reader.rex [x] rex := by
    intro rest
    simp only [List.singleton_append, Reader.rex, hx]
  exact hrex.bind ((reads_byte opcode).bind h)

theorem reads_decode_plain (hx : Rex.ofByte? opcode = none) (h : Reads (afterOpcode {} opcode) bs i) :
    Reads decode (opcode :: bs) i := by
  intro rest
  have hrex : Reader.rex (opcode :: (bs ++ rest)) = some ({}, opcode :: (bs ++ rest)) := by
    simp only [Reader.rex, hx]
  have hrun : decode (opcode :: (bs ++ rest)) =
      (Reader.rex (opcode :: (bs ++ rest))).bind fun r =>
        (byte r.2).bind fun b => afterOpcode r.1 b.1 b.2 := rfl
  rw [List.cons_append, hrun, hrex]
  exact h rest

def IsWide (opcode : UInt8) : Prop :=
  ∀ rex : Rex, rex.w = true → afterOpcode rex opcode = do
    let (extension, rm) ← operands rex
    operation opcode extension (.ofCode rex.r extension) rm

theorem isWide (opcode : UInt8)
    (h : opcode ∈ [0x01, 0x29, 0x39, 0x63, 0x81, 0x83, 0x89, 0x8B, 0x8D, 0xC7]) :
    IsWide opcode := by
  rintro ⟨w, r, x, b⟩ (rfl : w = true)
  simp only [List.mem_cons, List.not_mem_nil, or_false] at h
  rcases h with rfl | rfl | rfl | rfl | rfl | rfl | rfl | rfl | rfl | rfl <;> rfl

theorem reads_wide (hx : Rex.ofByte? x = some rex) (hw : rex.w = true) (hwide : IsWide opcode)
    (ho : Reads (operands rex) bs (reg, o))
    (hi : Reads (operation opcode reg (.ofCode rex.r reg) o) cs i) :
    Reads decode (x :: opcode :: (bs ++ cs)) i := by
  refine reads_decode hx ?_
  rw [hwide rex hw]
  exact ho.bind hi

theorem reads_wide_pure (hx : Rex.ofByte? x = some rex) (hw : rex.w = true) (hwide : IsWide opcode)
    (ho : Reads (operands rex) bs (reg, o))
    (hi : operation opcode reg (.ofCode rex.r reg) o = pure i) :
    Reads decode (x :: opcode :: bs) i := by
  have h := reads_wide hx hw hwide ho (hi ▸ reads_pure i)
  rwa [List.append_nil] at h

theorem reads_registerForm (hwide : IsWide opcode)
    (hi : operation opcode src.code src (.register dst) = pure i) :
    Reads decode ((registerForm opcode dst src).flatMap Field.bytes) i := by
  have ho := reads_operands { w := true, r := src.isExtended, b := dst.isExtended } 3 src.code
    (by decide) src.code_lt dst.code_lt (reads_register dst rfl)
  refine reads_wide_pure (Rex.ofByte?_rexR_rexB src dst) rfl hwide ho ?_
  rw [Register.ofCode_code, hi]

theorem reads_memoryForm (hwide : IsWide opcode)
    (hi : operation opcode dst.code dst (.memory (.sum (some base) none disp.toInt)) = pure i) :
    Reads decode
      ((rexW (dst.rexR ||| base.rexB) :: .byte opcode :: memoryOperand dst.code base disp).flatMap
        Field.bytes) i := by
  let rex : Rex := { w := true, r := dst.isExtended, b := base.isExtended }
  have ho : Reads (operands rex) _ _ := reads_memoryOperand disp rfl rfl dst.code_lt
  refine reads_wide_pure (Rex.ofByte?_rexR_rexB dst base) rfl hwide ho ?_
  rw [Register.ofCode_code, hi]

theorem reads_relativeForm (hwide : IsWide opcode)
    (hi : operation opcode dst.code dst (.memory (.relative disp.toInt)) = pure i) :
    Reads decode ((relativeForm opcode dst disp).flatMap Field.bytes) i := by
  have ho := reads_operands { w := true, r := dst.isExtended } 0 dst.code (by decide) dst.code_lt
    (by decide) (reads_relative disp)
  refine reads_wide_pure (Rex.ofByte?_rexR dst) rfl hwide ho ?_
  rw [Register.ofCode_code, hi]

theorem reads_immediateForm (hreg : reg < 8)
    (hi : arithmetic reg (.register dst) imm.toInt = pure i) :
    Reads decode ((immediateForm reg dst imm).flatMap Field.bytes) i := by
  have ho := reads_operands { w := true, b := dst.isExtended } 3 reg (by decide) hreg dst.code_lt
    (reads_register dst rfl)
  unfold immediateForm
  split
  · rename_i hfits
    have h := reads_wide (Rex.ofByte?_rexB dst) rfl (isWide 0x83 (by decide)) ho
      ((reads_byteOf hfits).map (k := arithmetic reg (.register dst)) hi)
    exact h
  · have h := reads_wide (Rex.ofByte?_rexB dst) rfl (isWide 0x81 (by decide)) ho
      ((reads_halfOf imm).map (k := arithmetic reg (.register dst)) hi)
    exact h

theorem reads_optionalRex (r : Register) (opcode : UInt8) {fields : List Field}
    (hop : Rex.ofByte? opcode = none)
    (h : ∀ rex : Rex, rex.b = r.isExtended →
      Reads (afterOpcode rex opcode) (fields.flatMap Field.bytes) i) :
    Reads decode ((rexIfExtended r ++ .byte opcode :: fields).flatMap Field.bytes) i := by
  unfold rexIfExtended
  split
  · rename_i hr
    have hx : Rex.ofByte? 0x41 = some { b := true } := rfl
    exact reads_decode hx (h _ hr.symm)
  · rename_i hr
    exact reads_decode_plain hop (h _ (by simpa using hr))

end Forms

namespace Operation

def meaning : Operation → MachineInstruction
  | .mov dst src => .mov (.register dst) (.register src)
  | .movImm64 dst imm => .mov (.register dst) (.immediate imm.toInt)
  | .movImm32 dst imm => .mov (.register dst) (.immediate imm.toInt)
  | .load dst base disp => .mov (.register dst) (.memory (.sum (some base) none disp.toInt))
  | .store base disp src => .mov (.memory (.sum (some base) none disp.toInt)) (.register src)
  | .loadRelative dst disp => .mov (.register dst) (.memory (.relative disp.toInt))
  | .leaRelative dst disp => .lea dst (.relative disp.toInt)
  | .add dst src => .add (.register dst) (.register src)
  | .addImm dst imm => .add (.register dst) (.immediate imm.toInt)
  | .sub dst src => .sub (.register dst) (.register src)
  | .subImm dst imm => .sub (.register dst) (.immediate imm.toInt)
  | .imul dst src => .imul dst (.register src)
  | .cmp dst src => .cmp (.register dst) (.register src)
  | .cmpImm dst imm => .cmp (.register dst) (.immediate imm.toInt)
  | .loadScaled dst base index =>
    .movsxd dst (.memory (.sum (some base) (if index = .rsp then none else some (index, 2)) 0))
  | .push reg => .push reg
  | .pop reg => .pop reg
  | .jmp disp => .jmp disp.toInt
  | .jcc cond disp => .jcc cond disp.toInt
  | .call disp => .call disp.toInt
  | .callReg reg => .callTo (.register reg)
  | .jmpReg reg => .jmpTo (.register reg)
  | .ret => .ret
  | .nop => .nop

theorem reads_movImm64 (imm : Int64) : Reads decode (movImm64 dst imm).bytes (movImm64 dst imm).meaning := by
  refine reads_decode (Rex.ofByte?_rexB dst) ?_
  have hopcode : ∀ rex : Rex, rex.w = true → rex.b = dst.isExtended →
      afterOpcode rex (0xB8 + dst.code) =
        signed 8 >>= fun n => pure (.mov (.register dst) (.immediate n)) := by
    rintro ⟨w, r, x, b⟩ (rfl : w = true) (rfl : b = _)
    cases dst <;> rfl
  rw [hopcode _ rfl rfl]
  exact (reads_full imm).map rfl

theorem reads_movImm32 : Reads decode (movImm32 dst imm).bytes (movImm32 dst imm).meaning := by
  have ho := reads_operands { w := true, b := dst.isExtended } 3 0 (by decide) (by decide)
    dst.code_lt (reads_register dst rfl)
  have h := reads_wide (i := (movImm32 dst imm).meaning) (Rex.ofByte?_rexB dst) rfl
    (isWide 0xC7 (by decide)) ho ((reads_halfOf imm).map rfl)
  exact h

theorem reads_imul : Reads decode (imul dst src).bytes (imul dst src).meaning := by
  have ho := reads_operands { w := true, r := dst.isExtended, b := src.isExtended } 3 dst.code
    (by decide) dst.code_lt src.code_lt (reads_register src rfl)
  refine reads_decode (Rex.ofByte?_rexR_rexB dst src) ((reads_byte 0xAF).bind (ho.map ?_))
  dsimp only
  rw [Register.ofCode_code]
  rfl

/-- The stack pointer cannot be an index: its code stands for none. -/
theorem reads_scaledForm (mode : UInt8) {bs : List UInt8} (hmode : mode < 3)
    (hfive : mode = 0 → base.code ≠ 5) (h : Reads (displacement mode) bs 0) :
    Reads decode ((0x48 ||| (dst.rexR ||| index.rexX ||| base.rexB)) :: 0x63 ::
        (modRM mode dst.code 4 :: sib 2 index.code base.code :: bs))
      (loadScaled dst base index).meaning := by
  let rex : Rex := { w := true, r := dst.isExtended, x := index.isExtended, b := base.isExtended }
  have hthree : mode ≠ 3 := by
    rintro rfl
    exact absurd hmode (by decide)
  have hindexed : Reads (indexed rex mode) (sib 2 index.code base.code :: bs) _ :=
    reads_indexed 2 index.code rfl (by decide) index.code_lt hfive h
  simp only [rex, index.code_eq_four, Register.ofCode_code] at hindexed
  have hoperand : Reads (operand rex mode 4) (sib 2 index.code base.code :: bs)
      (.memory (.sum (some base) (if index = .rsp then none else some (index, 2)) 0)) := by
    rw [operand, if_neg hthree, if_pos rfl]
    exact hindexed.map rfl
  have hlt : mode < 4 := Std.lt_trans hmode (by decide)
  refine reads_wide_pure (Rex.ofByte?_rexW dst index base) rfl (isWide 0x63 (by decide))
    (reads_operands rex mode dst.code hlt dst.code_lt (by decide) hoperand) ?_
  rw [Register.ofCode_code]
  rfl

theorem reads_loadScaled :
    Reads decode (loadScaled dst base index).bytes (loadScaled dst base index).meaning := by
  unfold bytes fields
  dsimp only
  split
  · exact reads_scaledForm 1 (by decide) (fun h => absurd h (by decide)) (reads_signed 1 0)
  · rename_i hfive
    exact reads_scaledForm 0 (by decide) (fun _ => hfive) (reads_pure 0)

theorem reads_push : Reads decode (push dst).bytes (push dst).meaning := by
  refine reads_optionalRex dst (0x50 + dst.code) (by cases dst <;> rfl) ?_
  rintro ⟨w, r, x, b⟩ (rfl : b = _)
  have hopcode : afterOpcode { w, r, x, b := dst.isExtended } (0x50 + dst.code) = pure (.push dst) := by
    cases dst <;> rfl
  rw [hopcode]
  exact reads_pure _

theorem reads_pop : Reads decode (pop dst).bytes (pop dst).meaning := by
  refine reads_optionalRex dst (0x58 + dst.code) (by cases dst <;> rfl) ?_
  rintro ⟨w, r, x, b⟩ (rfl : b = _)
  have hopcode : afterOpcode { w, r, x, b := dst.isExtended } (0x58 + dst.code) = pure (.pop dst) := by
    cases dst <;> rfl
  rw [hopcode]
  exact reads_pure _

theorem reads_callReg : Reads decode (callReg dst).bytes (callReg dst).meaning := by
  refine reads_optionalRex dst 0xFF rfl ?_
  intro rex hb
  have ho := reads_operands rex 3 2 (by decide) (by decide) dst.code_lt (reads_register dst hb)
  exact ho.map rfl

theorem reads_jmpReg : Reads decode (jmpReg dst).bytes (jmpReg dst).meaning := by
  refine reads_optionalRex dst 0xFF rfl ?_
  intro rex hb
  have ho := reads_operands rex 3 4 (by decide) (by decide) dst.code_lt (reads_register dst hb)
  exact ho.map rfl

theorem reads_jcc : Reads decode (jcc cond disp).bytes (jcc cond disp).meaning := by
  refine reads_decode_plain rfl ((reads_byte (0x80 + cond.number)).bind ?_)
  have hopcode : twoByte {} (0x80 + cond.number) = signed 4 >>= fun n => pure (.jcc cond n) := by
    cases cond <;> rfl
  rw [hopcode]
  exact (reads_halfOf disp).map rfl

/-- The bytes of an operation are read back as that operation. -/
theorem reads_bytes (op : Operation) : Reads decode op.bytes op.meaning := by
  cases op with
  | mov dst src => exact reads_registerForm (isWide 0x89 (by decide)) rfl
  | movImm64 dst imm => exact reads_movImm64 imm
  | movImm32 dst imm => exact reads_movImm32
  | load dst base disp => exact reads_memoryForm (isWide 0x8B (by decide)) rfl
  | store base disp src => exact reads_memoryForm (isWide 0x89 (by decide)) rfl
  | loadRelative dst disp => exact reads_relativeForm (isWide 0x8B (by decide)) rfl
  | leaRelative dst disp => exact reads_relativeForm (isWide 0x8D (by decide)) rfl
  | add dst src => exact reads_registerForm (isWide 0x01 (by decide)) rfl
  | addImm dst imm => exact reads_immediateForm (by decide) rfl
  | sub dst src => exact reads_registerForm (isWide 0x29 (by decide)) rfl
  | subImm dst imm => exact reads_immediateForm (by decide) rfl
  | imul dst src => exact reads_imul
  | cmp dst src => exact reads_registerForm (isWide 0x39 (by decide)) rfl
  | cmpImm dst imm => exact reads_immediateForm (by decide) rfl
  | loadScaled dst base index => exact reads_loadScaled
  | push reg => exact reads_push
  | pop reg => exact reads_pop
  | jmp disp => exact reads_decode_plain rfl ((reads_halfOf disp).map rfl)
  | jcc cond disp => exact reads_jcc
  | call disp => exact reads_decode_plain rfl ((reads_halfOf disp).map rfl)
  | callReg reg => exact reads_callReg
  | jmpReg reg => exact reads_jmpReg
  | ret => exact reads_decode_plain rfl (reads_pure _)
  | nop => exact reads_decode_plain rfl (reads_pure _)

end Operation

end CodeEmission.X86
