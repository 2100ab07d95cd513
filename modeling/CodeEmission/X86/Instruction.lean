import CodeEmission.Relocation
import CodeEmission.X86.Operation

/-! # Instructions

The instructions a function is made of. Each stands for the machine operations it is lowered to, with
zeros where an address is not known yet, and for at most one reference that has to be patched.
-/

namespace CodeEmission.X86

inductive Instruction where
  | movRR (dst src : Register)
  /-- Takes the short form if the value fits in 32 bits. -/
  | movRI (dst : Register) (imm : Int64)
  | load (dst base : Register) (disp : Int32)
  | store (base : Register) (disp : Int32) (src : Register)
  | addRR (dst src : Register)
  | addRI (dst : Register) (imm : Int32)
  | subRR (dst src : Register)
  | subRI (dst : Register) (imm : Int32)
  | imulRR (dst src : Register)
  | cmpRR (dst src : Register)
  | cmpRI (dst : Register) (imm : Int32)
  | push (reg : Register)
  | pop (reg : Register)
  | nop
  | ret
  | jmp (target : BlockId)
  | jcc (cond : Condition) (target : BlockId)
  | call (func : FuncId)
  | callSymbol (name : String)
  | loadGlobal (dst : Register) (global : GlobalRef)
  | loadIndirect (dst : Register) (global : GlobalRef)
  | loadBlockAddress (dst : Register) (block : BlockId)
  | loadConst (dst : Register) (index : UInt64)
  | leaJumpTable (dst : Register) (index : UInt64)
  /-- The sum of the table's address and its 32-bit entry at an index. -/
  | loadTableEntry (dst table index : Register)
  | jmpReg (reg : Register)
  | label (label : LabelId)
  | debugLoc (line col : UInt32)
  deriving DecidableEq, Repr, Inhabited

structure Fixup where
  /-- Where the field to be patched starts, from the start of the instruction. -/
  offset : Nat
  kind : RelocKind
  target : RelocTarget
  needsFarStub : Bool := false
  deriving DecidableEq, Repr

namespace Fixup

def relocationAt (start : Nat) (f : Fixup) : Relocation :=
  { offset := start + f.offset, kind := f.kind, target := f.target, mayNeedFarStub := f.needsFarStub }

end Fixup

namespace Instruction

def moveImmediate (dst : Register) (imm : Int64) : Operation :=
  if -2147483648 ≤ imm ∧ imm ≤ 2147483647 then .movImm32 dst imm.toInt32 else .movImm64 dst imm

def operations : Instruction → List Operation
  | .movRR dst src => [.mov dst src]
  | .movRI dst imm => [moveImmediate dst imm]
  | .load dst base disp => [.load dst base disp]
  | .store base disp src => [.store base disp src]
  | .addRR dst src => [.add dst src]
  | .addRI dst imm => [.addImm dst imm]
  | .subRR dst src => [.sub dst src]
  | .subRI dst imm => [.subImm dst imm]
  | .imulRR dst src => [.imul dst src]
  | .cmpRR dst src => [.cmp dst src]
  | .cmpRI dst imm => [.cmpImm dst imm]
  | .push reg => [.push reg]
  | .pop reg => [.pop reg]
  | .nop => [.nop]
  | .ret => [.ret]
  | .jmp _ => [.jmp 0]
  | .jcc cond _ => [.jcc cond 0]
  | .call _ => [.call 0]
  | .callSymbol _ => [.movImm64 .r11 0, .callReg .r11]
  | .loadGlobal dst _ | .loadIndirect dst _ | .loadBlockAddress dst _ => [.movImm64 dst 0]
  | .loadConst dst _ => [.loadRelative dst 0]
  | .leaJumpTable dst _ => [.leaRelative dst 0]
  | .loadTableEntry dst table index => [.loadScaled dst table index, .add dst table]
  | .jmpReg reg => [.jmpReg reg]
  | .label _ | .debugLoc .. => []

def fixup? : Instruction → Option Fixup
  | .jmp target => some { offset := 1, kind := .pcRel32, target := .basicBlock target }
  | .jcc _ target => some { offset := 2, kind := .pcRel32, target := .basicBlock target }
  | .call func =>
    some { offset := 1, kind := .pcRel32, target := .globalValue (.function func), needsFarStub := true }
  | .callSymbol name => some { offset := 2, kind := .abs64, target := .externalSymbol name }
  | .loadGlobal _ global => some { offset := 2, kind := .abs64, target := .globalValue global }
  | .loadIndirect _ global => some { offset := 2, kind := .abs64, target := .indirectSymbol global }
  | .loadBlockAddress _ block => some { offset := 2, kind := .abs64, target := .basicBlock block }
  | .loadConst _ index => some { offset := 3, kind := .pcRel32, target := .constantPool index.toNat }
  | .leaJumpTable _ index => some { offset := 3, kind := .pcRel32, target := .jumpTable index.toNat }
  | _ => none

def fields (i : Instruction) : List Field := i.operations.flatMap Operation.fields

def encode (i : Instruction) : List UInt8 := i.operations.flatMap Operation.bytes

theorem encode_eq_fields (i : Instruction) : i.encode = i.fields.flatMap Field.bytes := by
  unfold encode fields Operation.bytes
  rw [List.flatMap_assoc]

end Instruction

end CodeEmission.X86
