import CodeEmission.Bytes
import CodeEmission.X86.Register

/-! # Machine operations and their encoding

One machine operation with its operands, and the fields it is encoded in. A field is written as a
whole or not at all, so an encoding is a list of fields rather than a list of bytes.
-/

namespace CodeEmission.X86

inductive Operation where
  | mov (dst src : Register)
  | movImm64 (dst : Register) (imm : Int64)
  /-- The immediate is extended with its sign. -/
  | movImm32 (dst : Register) (imm : Int32)
  | load (dst base : Register) (disp : Int32)
  | store (base : Register) (disp : Int32) (src : Register)
  | loadRelative (dst : Register) (disp : Int32)
  | leaRelative (dst : Register) (disp : Int32)
  | add (dst src : Register)
  | addImm (dst : Register) (imm : Int32)
  | sub (dst src : Register)
  | subImm (dst : Register) (imm : Int32)
  | imul (dst src : Register)
  | cmp (dst src : Register)
  | cmpImm (dst : Register) (imm : Int32)
  /-- The 32-bit value at `base + 4 * index`, extended with its sign. -/
  | loadScaled (dst base index : Register)
  | push (reg : Register)
  | pop (reg : Register)
  | jmp (disp : Int32)
  | jcc (cond : Condition) (disp : Int32)
  | call (disp : Int32)
  | callReg (reg : Register)
  | jmpReg (reg : Register)
  | ret
  | nop
  deriving DecidableEq, Repr, Inhabited

inductive Field where
  | byte (value : UInt8)
  | half (value : UInt32)
  | full (value : UInt64)
  deriving DecidableEq, Repr

namespace Field

def bytes : Field → List UInt8
  | .byte v => [v]
  | .half v => Bytes.littleEndian 4 v.toNat
  | .full v => Bytes.littleEndian 8 v.toNat

end Field

def modRM (mode reg rm : UInt8) : UInt8 := ((mode &&& 3) <<< 6) ||| ((reg &&& 7) <<< 3) ||| (rm &&& 7)

def sib (scale index base : UInt8) : UInt8 := (scale <<< 6) ||| (index <<< 3) ||| base

/-- The REX byte of a 64-bit operation with the given extension bits. -/
def rexW (bits : UInt8) : Field := .byte (0x48 ||| bits)

def rexIfExtended (reg : Register) : List Field :=
  if reg.isExtended then [.byte 0x41] else []

def fitsByte (n : Int32) : Bool := -128 ≤ n && n ≤ 127

def byteOf (n : Int32) : Field := .byte n.toUInt32.toUInt8

def halfOf (n : Int32) : Field := .half n.toUInt32

/-- The operand bytes of `[base + disp]`. A base whose code is 4 needs an index byte that names no
index, and one whose code is 5 a displacement even if it is zero. -/
def memoryOperand (reg : UInt8) (base : Register) (disp : Int32) : List Field :=
  let index : List Field := if base.code = 4 then [.byte 0x24] else []
  if disp = 0 ∧ base.code ≠ 5 then .byte (modRM 0 reg base.code) :: index
  else if fitsByte disp then .byte (modRM 1 reg base.code) :: (index ++ [byteOf disp])
  else .byte (modRM 2 reg base.code) :: (index ++ [halfOf disp])

/-- A binary operation in the form that writes its `rm` operand. -/
def registerForm (opcode : UInt8) (dst src : Register) : List Field :=
  [rexW (src.rexR ||| dst.rexB), .byte opcode, .byte (modRM 3 src.code dst.code)]

def immediateForm (extension : UInt8) (dst : Register) (imm : Int32) : List Field :=
  if fitsByte imm then
    [rexW dst.rexB, .byte 0x83, .byte (modRM 3 extension dst.code), byteOf imm]
  else
    [rexW dst.rexB, .byte 0x81, .byte (modRM 3 extension dst.code), halfOf imm]

def relativeForm (opcode : UInt8) (dst : Register) (disp : Int32) : List Field :=
  [rexW dst.rexR, .byte opcode, .byte (modRM 0 dst.code 5), halfOf disp]

namespace Operation

def fields : Operation → List Field
  | .mov dst src => registerForm 0x89 dst src
  | .movImm64 dst imm => [rexW dst.rexB, .byte (0xB8 + dst.code), .full imm.toUInt64]
  | .movImm32 dst imm => [rexW dst.rexB, .byte 0xC7, .byte (modRM 3 0 dst.code), halfOf imm]
  | .load dst base disp =>
    rexW (dst.rexR ||| base.rexB) :: .byte 0x8B :: memoryOperand dst.code base disp
  | .store base disp src =>
    rexW (src.rexR ||| base.rexB) :: .byte 0x89 :: memoryOperand src.code base disp
  | .loadRelative dst disp => relativeForm 0x8B dst disp
  | .leaRelative dst disp => relativeForm 0x8D dst disp
  | .add dst src => registerForm 0x01 dst src
  | .addImm dst imm => immediateForm 0 dst imm
  | .sub dst src => registerForm 0x29 dst src
  | .subImm dst imm => immediateForm 5 dst imm
  | .imul dst src =>
    [rexW (dst.rexR ||| src.rexB), .byte 0x0F, .byte 0xAF, .byte (modRM 3 dst.code src.code)]
  | .cmp dst src => registerForm 0x39 dst src
  | .cmpImm dst imm => immediateForm 7 dst imm
  | .loadScaled dst base index =>
    let head := [rexW (dst.rexR ||| index.rexX ||| base.rexB), .byte 0x63]
    if base.code = 5 then
      head ++ [.byte (modRM 1 dst.code 4), .byte (sib 2 index.code base.code), .byte 0]
    else
      head ++ [.byte (modRM 0 dst.code 4), .byte (sib 2 index.code base.code)]
  | .push reg => rexIfExtended reg ++ [.byte (0x50 + reg.code)]
  | .pop reg => rexIfExtended reg ++ [.byte (0x58 + reg.code)]
  | .jmp disp => [.byte 0xE9, halfOf disp]
  | .jcc cond disp => [.byte 0x0F, .byte (0x80 + cond.number), halfOf disp]
  | .call disp => [.byte 0xE8, halfOf disp]
  | .callReg reg => rexIfExtended reg ++ [.byte 0xFF, .byte (modRM 3 2 reg.code)]
  | .jmpReg reg => rexIfExtended reg ++ [.byte 0xFF, .byte (modRM 3 4 reg.code)]
  | .ret => [.byte 0xC3]
  | .nop => [.byte 0x90]

def bytes (op : Operation) : List UInt8 := op.fields.flatMap Field.bytes

end Operation

end CodeEmission.X86
