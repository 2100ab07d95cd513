import CodeEmission.Proofs.Decoding.Stream
import CodeEmission.Proofs.Layout.References

/-! # Instructions restored from their code

The bytes of a stream tell its machine operations, but not what its references refer to; that is
found in the log. Bytes and log together tell every instruction.
-/

namespace CodeEmission.X86

namespace Operation

def ofMeaning? (length : Nat) : MachineInstruction → Option Operation
  | .mov (.register dst) (.register src) => some (.mov dst src)
  -- A move of an immediate has a long form and a short one.
  | .mov (.register dst) (.immediate n) =>
    if length = 10 then some (.movImm64 dst (.ofInt n)) else some (.movImm32 dst (.ofInt n))
  | .mov (.register dst) (.memory (.sum (some base) none n)) => some (.load dst base (.ofInt n))
  | .mov (.memory (.sum (some base) none n)) (.register src) => some (.store base (.ofInt n) src)
  | .mov (.register dst) (.memory (.relative n)) => some (.loadRelative dst (.ofInt n))
  | .lea dst (.relative n) => some (.leaRelative dst (.ofInt n))
  | .add (.register dst) (.register src) => some (.add dst src)
  | .add (.register dst) (.immediate n) => some (.addImm dst (.ofInt n))
  | .sub (.register dst) (.register src) => some (.sub dst src)
  | .sub (.register dst) (.immediate n) => some (.subImm dst (.ofInt n))
  | .imul dst (.register src) => some (.imul dst src)
  | .cmp (.register dst) (.register src) => some (.cmp dst src)
  | .cmp (.register dst) (.immediate n) => some (.cmpImm dst (.ofInt n))
  | .movsxd dst (.memory (.sum (some base) none _)) => some (.loadScaled dst base .rsp)
  | .movsxd dst (.memory (.sum (some base) (some (index, _)) _)) =>
    some (.loadScaled dst base index)
  | .push reg => some (.push reg)
  | .pop reg => some (.pop reg)
  | .jmp n => some (.jmp (.ofInt n))
  | .jcc cond n => some (.jcc cond (.ofInt n))
  | .call n => some (.call (.ofInt n))
  | .callTo (.register reg) => some (.callReg reg)
  | .jmpTo (.register reg) => some (.jmpReg reg)
  | .ret => some .ret
  | .nop => some .nop
  | _ => none

theorem length_movImm64 (dst : Register) (imm : Int64) : (movImm64 dst imm).bytes.length = 10 := by
  simp [bytes, fields, rexW, Instruction.length_byte, Instruction.length_full]

theorem length_movImm32 (dst : Register) (imm : Int32) : (movImm32 dst imm).bytes.length = 7 := by
  simp [bytes, fields, rexW, halfOf, Instruction.length_byte, Instruction.length_half]

theorem ofMeaning?_meaning (op : Operation) : ofMeaning? op.bytes.length op.meaning = some op := by
  cases op with
  | movImm64 dst imm => rw [length_movImm64, meaning, ofMeaning?, if_pos rfl, Int64.ofInt_toInt]
  | movImm32 dst imm =>
    rw [length_movImm32, meaning, ofMeaning?, if_neg (by decide), Int32.ofInt_toInt]
  | loadScaled dst base index =>
    rw [meaning]
    split
    · rename_i hindex
      rw [ofMeaning?, hindex]
    · rw [ofMeaning?]
  | _ => simp only [meaning, ofMeaning?, Int32.ofInt_toInt]

theorem bytes_ne_nil (op : Operation) : op.bytes ≠ [] := by
  intro hnil
  have hlen := length_decode (op.reads_bytes [])
  rw [hnil] at hlen
  exact Nat.lt_irrefl _ hlen

theorem bytes_append_inj {op op' : Operation} {rest rest' : List UInt8}
    (h : op.bytes ++ rest = op'.bytes ++ rest') : op = op' ∧ rest = rest' := by
  have hread := op.reads_bytes rest
  rw [h, op'.reads_bytes rest'] at hread
  obtain ⟨hmeaning, hrest⟩ := Prod.mk.inj (Option.some.inj hread)
  subst hrest
  have hbytes : op.bytes = op'.bytes := List.append_cancel_right h
  have hop := op.ofMeaning?_meaning
  rw [← hmeaning, hbytes, op'.ofMeaning?_meaning] at hop
  exact ⟨(Option.some.inj hop).symm, rfl⟩

theorem eq_of_flatMap_bytes {ops ops' : List Operation}
    (h : ops.flatMap bytes = ops'.flatMap bytes) : ops = ops' := by
  induction ops generalizing ops' with
  | nil =>
    cases ops' with
    | nil => rfl
    | cons op' ops' => exact absurd (List.append_eq_nil_iff.1 h.symm).1 op'.bytes_ne_nil
  | cons op ops ih =>
    cases ops' with
    | nil => exact absurd (List.append_eq_nil_iff.1 h).1 op.bytes_ne_nil
    | cons op' ops' =>
      obtain ⟨rfl, hrest⟩ := bytes_append_inj h
      rw [ih hrest]

/-- Whether an operation has a field that waits for an address. Immediates of 64 bits are written
only if they do not fit in 32, so zero is none of them. -/
def awaitsAddress : Operation → Bool
  | .movImm64 _ imm => imm == 0
  | .loadRelative .. | .leaRelative .. | .jmp _ | .jcc .. | .call _ => true
  | _ => false

end Operation

namespace Instruction

def isMark : Instruction → Bool
  | .label _ | .debugLoc .. => true
  | _ => false

def ofOperation? (target : Option RelocTarget) : Operation → Option Instruction
  | .mov dst src => some (.movRR dst src)
  | .movImm64 dst imm =>
    match target with
    | some (.externalSymbol name) => some (.callSymbol name)
    | some (.globalValue g) => some (.loadGlobal dst g)
    | some (.indirectSymbol g) => some (.loadIndirect dst g)
    | some (.basicBlock b) => some (.loadBlockAddress dst b)
    | _ => some (.movRI dst imm)
  | .movImm32 dst imm => some (.movRI dst imm.toInt64)
  | .load dst base disp => some (.load dst base disp)
  | .store base disp src => some (.store base disp src)
  | .loadRelative dst _ =>
    match target with
    | some (.constantPool index) => some (.loadConst dst (.ofNat index))
    | _ => none
  | .leaRelative dst _ =>
    match target with
    | some (.jumpTable index) => some (.leaJumpTable dst (.ofNat index))
    | _ => none
  | .add dst src => some (.addRR dst src)
  | .addImm dst imm => some (.addRI dst imm)
  | .sub dst src => some (.subRR dst src)
  | .subImm dst imm => some (.subRI dst imm)
  | .imul dst src => some (.imulRR dst src)
  | .cmp dst src => some (.cmpRR dst src)
  | .cmpImm dst imm => some (.cmpRI dst imm)
  | .loadScaled dst base index => some (.loadTableEntry dst base index)
  | .push reg => some (.push reg)
  | .pop reg => some (.pop reg)
  | .jmp _ =>
    match target with
    | some (.basicBlock b) => some (.jmp b)
    | _ => none
  | .jcc cond _ =>
    match target with
    | some (.basicBlock b) => some (.jcc cond b)
    | _ => none
  | .call _ =>
    match target with
    | some (.globalValue (.function f)) => some (.call f)
    | _ => none
  | .callReg _ => none
  | .jmpReg reg => some (.jmpReg reg)
  | .ret => some .ret
  | .nop => some .nop

def target? (i : Instruction) : Option RelocTarget := i.fixup?.map (·.target)

variable {i : Instruction} {op : Operation} {is js : List Instruction}

/-- A move of an immediate is told by either of its forms, and neither waits for an address. -/
theorem moveImmediate_restored (dst : Register) (imm : Int64) :
    ofOperation? none (moveImmediate dst imm) = some (.movRI dst imm) ∧
      (moveImmediate dst imm).awaitsAddress = false := by
  unfold moveImmediate
  split
  · rename_i hfits
    have hmin : -2147483648 ≤ imm.toInt := Int64.le_iff_toInt_le.1 hfits.1
    have hmax : imm.toInt ≤ 2147483647 := Int64.le_iff_toInt_le.1 hfits.2
    refine ⟨?_, rfl⟩
    have hvalue : imm.toInt32.toInt64 = imm := by
      refine Int64.toInt_inj.1 ?_
      rw [Int32.toInt_toInt64, Int64.toInt_toInt32, Int.bmod_eq_of_le (by omega) (by omega)]
    rw [ofOperation?, hvalue]
  · rename_i hlarge
    refine ⟨rfl, ?_⟩
    have hzero : imm ≠ 0 := by
      rintro rfl
      exact hlarge (by decide)
    simpa [Operation.awaitsAddress] using hzero

/-- The first operation of an instruction tells it, given what it refers to, and tells whether it
refers to something. -/
theorem exists_first (h : i.isMark = false) :
    ∃ op ops, i.operations = op :: ops ∧ ofOperation? i.target? op = some i ∧
      i.fixup?.isSome = op.awaitsAddress := by
  cases i with
  | movRI dst imm =>
    obtain ⟨htells, hawaits⟩ := moveImmediate_restored dst imm
    exact ⟨_, [], rfl, htells, hawaits.symm⟩
  | loadConst dst index =>
    refine ⟨_, [], rfl, ?_, rfl⟩
    simp [ofOperation?, target?, fixup?]
  | leaJumpTable dst index =>
    refine ⟨_, [], rfl, ?_, rfl⟩
    simp [ofOperation?, target?, fixup?]
  | label l => cases h
  | debugLoc line col => cases h
  | _ => exact ⟨_, _, rfl, rfl, rfl⟩

theorem target?_eq {j : Instruction} {start : Nat} (hsome : i.fixup?.isSome = j.fixup?.isSome)
    (hlog : relocationsFrom start (i :: is) = relocationsFrom start (j :: js)) :
    i.target? = j.target? := by
  unfold target?
  cases hf : i.fixup? with
  | none =>
    rw [hf] at hsome
    have hnone : j.fixup? = none := by simpa using hsome.symm
    rw [hnone]
  | some f =>
    rw [hf] at hsome
    obtain ⟨g, hg⟩ := Option.isSome_iff_exists.1 hsome.symm
    have hfirst : f.relocationAt start = g.relocationAt start := by
      simp only [relocationsFrom, hf, hg] at hlog
      exact (List.cons.inj hlog).1
    rw [hg]
    exact congrArg some (congrArg Relocation.target hfirst)

/-- Operations and log tell the instructions of a stream. -/
theorem eq_of_operations {start : Nat} (his : ∀ i ∈ is, i.isMark = false)
    (hjs : ∀ j ∈ js, j.isMark = false) (hops : is.flatMap operations = js.flatMap operations)
    (hlog : relocationsFrom start is = relocationsFrom start js) : is = js := by
  induction is generalizing js start with
  | nil =>
    cases js with
    | nil => rfl
    | cons j js =>
      obtain ⟨op, ops, hj, _⟩ := exists_first (hjs j List.mem_cons_self)
      rw [List.flatMap_cons, hj] at hops
      cases hops
  | cons i is ih =>
    obtain ⟨op, ops, hi, hitells, hiawaits⟩ := exists_first (his i List.mem_cons_self)
    cases js with
    | nil =>
      rw [List.flatMap_cons, hi] at hops
      cases hops
    | cons j js =>
      obtain ⟨op', ops', hj, hjtells, hjawaits⟩ := exists_first (hjs j List.mem_cons_self)
      -- Both start with the same operation, so both refer to something or neither does.
      have hop : op = op' := by
        rw [List.flatMap_cons, List.flatMap_cons, hi, hj] at hops
        exact (List.cons.inj hops).1
      have htarget := target?_eq (by rw [hiawaits, hjawaits, hop]) hlog
      obtain rfl : i = j := by
        rw [← htarget, ← hop, hitells] at hjtells
        exact Option.some.inj hjtells
      have hrest := ih (fun i hi => his i (List.mem_cons_of_mem _ hi))
        (fun j hj => hjs j (List.mem_cons_of_mem _ hj)) (List.append_cancel_left hops)
        (List.append_cancel_left hlog)
      rw [hrest]

theorem eq_of_encodeAll {start : Nat} (his : ∀ i ∈ is, i.isMark = false)
    (hjs : ∀ j ∈ js, j.isMark = false) (hcode : encodeAll is = encodeAll js)
    (hlog : relocationsFrom start is = relocationsFrom start js) : is = js := by
  refine eq_of_operations his hjs (Operation.eq_of_flatMap_bytes ?_) hlog
  rw [List.flatMap_assoc, List.flatMap_assoc]
  exact hcode

end Instruction

end CodeEmission.X86

namespace CodeEmission.Draft

open X86.Instruction

variable {d e : Draft} {is : List X86.Instruction}

def codeFrom (d : Draft) (start : Nat) : List UInt8 := d.buffer.code.toList.drop start

def logFrom (d : Draft) (first : Nat) : List Relocation := d.relocations.toList.drop first

theorem Extends.codeFrom {starts : List (BlockId × Nat)} (h : d.Extends is starts e) :
    e.codeFrom d.offset = encodeAll is := by
  have hlen : d.buffer.code.toList.length = d.offset := Array.length_toList
  rw [Draft.codeFrom, h.code, Array.toList_append, List.drop_left' hlen]

theorem Extends.logFrom {starts : List (BlockId × Nat)} (h : d.Extends is starts e) :
    e.logFrom d.relocations.size = relocationsFrom d.offset is := by
  rw [Draft.logFrom, h.relocations, List.drop_left' Array.length_toList]

theorem exists_extends_of_room (hd : d.buffer.Intact)
    (hroom : d.offset + (encodeAll is).length ≤ d.buffer.capacity)
    (his : ∀ i ∈ is, i.isMark = false) :
    ∃ e, is.foldlM emit d = .ok e ∧ d.Extends is [] e := by
  have hlabels : is.filterMap label? = [] := by
    refine List.filterMap_eq_nil_iff.2 ?_
    intro i hi
    have hmark := his i hi
    cases i <;> first | rfl | cases hmark
  obtain ⟨e, he⟩ := exists_foldlM_emit hd hroom (by simp [hlabels]) (by simp [hlabels])
  exact ⟨e, he, (extends_of_room hd hroom he).2⟩

/-- Two streams of instructions that are emitted from the same offset and leave the same bytes and
the same log are equal. -/
theorem emitted_code_injective (is js : List X86.Instruction) (d₁ d₂ : Draft)
    (hd₁ : d₁.buffer.Intact) (hd₂ : d₂.buffer.Intact) (hstart : d₁.offset = d₂.offset)
    (hroom₁ : d₁.offset + (encodeAll is).length ≤ d₁.buffer.capacity)
    (hroom₂ : d₂.offset + (encodeAll js).length ≤ d₂.buffer.capacity)
    (his : ∀ i ∈ is, i.isMark = false) (hjs : ∀ j ∈ js, j.isMark = false) :
    ∃ e₁ e₂, is.foldlM emit d₁ = .ok e₁ ∧ js.foldlM emit d₂ = .ok e₂ ∧
      (e₁.codeFrom d₁.offset = e₂.codeFrom d₂.offset →
        e₁.logFrom d₁.relocations.size = e₂.logFrom d₂.relocations.size → is = js) := by
  obtain ⟨e₁, he₁, hx₁⟩ := exists_extends_of_room hd₁ hroom₁ his
  obtain ⟨e₂, he₂, hx₂⟩ := exists_extends_of_room hd₂ hroom₂ hjs
  refine ⟨e₁, e₂, he₁, he₂, ?_⟩
  intro hcode hlog
  rw [hx₁.codeFrom, hx₂.codeFrom] at hcode
  rw [hx₁.logFrom, hx₂.logFrom, ← hstart] at hlog
  exact eq_of_encodeAll his hjs hcode hlog

/-- Loads of two variables into the same register leave the same bytes, so their logs differ. -/
theorem emitted_code_injective_loads :
    ∃ e₁ e₂ : Draft,
      [.loadGlobal .rax (.variable ⟨0⟩), .ret].foldlM emit
        { function := "f", buffer := .ofCapacity 16 } = .ok e₁ ∧
      [.loadGlobal .rax (.variable ⟨1⟩), .ret].foldlM emit
        { function := "f", buffer := .ofCapacity 64 } = .ok e₂ ∧
      e₁.codeFrom 0 = e₂.codeFrom 0 ∧ e₁.logFrom 0 ≠ e₂.logFrom 0 := by
  obtain ⟨e₁, e₂, he₁, he₂, hinj⟩ := emitted_code_injective
    [.loadGlobal .rax (.variable ⟨0⟩), .ret] [.loadGlobal .rax (.variable ⟨1⟩), .ret]
    { function := "f", buffer := .ofCapacity 16 } { function := "f", buffer := .ofCapacity 64 }
    (CodeBuffer.ofCapacity_intact 16) (CodeBuffer.ofCapacity_intact 64) rfl (by decide) (by decide)
    (by decide) (by decide)
  have hcode : e₁.codeFrom 0 = e₂.codeFrom 0 := by
    cases he₁
    cases he₂
    rfl
  exact ⟨e₁, e₂, he₁, he₂, hcode, fun hlog => absurd (hinj hcode hlog) (by decide)⟩

end CodeEmission.Draft
