import Mathlib.Algebra.Group.Nat.Defs
import CodeEmission.Bytes
import CodeEmission.X86.Register

/-! # Reading machine code

What a run of bytes means to the processor. An instruction is an optional REX byte, an opcode, for most
opcodes an operand byte with the index byte and the displacement it asks for, and an immediate. Only
forms with 64-bit operands are read; all other bytes are refused.
-/

namespace CodeEmission.X86

inductive Address where
  | relative (disp : Int)
  /-- At the sum of a base, an index times `2 ^ scale` and a displacement. -/
  | sum (base : Option Register) (index : Option (Register × Nat)) (disp : Int)
  deriving DecidableEq, Repr

inductive Operand where
  | register (reg : Register)
  | memory (address : Address)
  | immediate (value : Int)
  deriving DecidableEq, Repr

/-- A machine instruction. Of two operands the first is the one that is written to. -/
inductive MachineInstruction where
  | mov (dst src : Operand)
  | movsxd (dst : Register) (src : Operand)
  | lea (dst : Register) (src : Address)
  | add (dst src : Operand)
  | sub (dst src : Operand)
  | cmp (dst src : Operand)
  | imul (dst : Register) (src : Operand)
  | push (reg : Register)
  | pop (reg : Register)
  | jmp (disp : Int)
  | jcc (cond : Condition) (disp : Int)
  | call (disp : Int)
  | callTo (target : Operand)
  | jmpTo (target : Operand)
  | ret
  | nop
  deriving DecidableEq, Repr

def Register.ofCode (extended : Bool) (code : UInt8) : Register :=
  (Register.all[(code &&& 7).toNat + if extended then 8 else 0]?).getD .rax

def Condition.ofCode (code : UInt8) : Condition := (Condition.all[(code &&& 15).toNat]?).getD .o

/-- The bits of a REX byte: the width of the operands and the extensions of the `reg` part, the index
and the `rm` part. -/
structure Rex where
  w : Bool := false
  r : Bool := false
  x : Bool := false
  b : Bool := false
  deriving DecidableEq, Repr

def Rex.ofByte? (byte : UInt8) : Option Rex :=
  if byte &&& 0xF0 = 0x40 then
    some
      { w := byte &&& 8 != 0
        r := byte &&& 4 != 0
        x := byte &&& 2 != 0
        b := byte &&& 1 != 0 }
  else none

/-- A byte of three parts: the mode, `reg` and `rm` of an operand byte, or the scale, index and base
of an index byte. -/
structure Parts where
  high : UInt8
  middle : UInt8
  low : UInt8
  deriving DecidableEq, Repr

def Parts.ofByte (byte : UInt8) : Parts := ⟨byte >>> 6, byte >>> 3 &&& 7, byte &&& 7⟩

/-- Reads something from the front of a run of bytes and leaves the rest. -/
abbrev Reader := StateT (List UInt8) Option

namespace Reader

def byte : Reader UInt8
  | [] => none
  | b :: bs => some (b, bs)

def rex : Reader Rex
  | [] => some ({}, [])
  | b :: bs =>
    match Rex.ofByte? b with
    | some r => some (r, bs)
    | none => some ({}, b :: bs)

def signed (width : Nat) : Reader Int := fun bs =>
  if width ≤ bs.length then
    some (Int.bmod (Bytes.ofLittleEndian (bs.take width)) (256 ^ width), bs.drop width)
  else none

def displacement (mode : UInt8) : Reader Int :=
  if mode = 1 then signed 1
  else if mode = 2 then signed 4
  else pure 0

/-- A memory operand with an index byte. The index of code 4 without extension stands for none, and
in mode 0 the base of code 5 too. -/
def indexed (rex : Rex) (mode : UInt8) : Reader Address := do
  let sib := Parts.ofByte (← byte)
  let index :=
    if sib.middle = 4 ∧ rex.x = false then none
    else some (Register.ofCode rex.x sib.middle, sib.high.toNat)
  if mode = 0 ∧ sib.low = 5 then return .sum none index (← signed 4)
  else return .sum (some (.ofCode rex.b sib.low)) index (← displacement mode)

def operand (rex : Rex) (mode rm : UInt8) : Reader Operand := do
  if mode = 3 then return .register (.ofCode rex.b rm)
  else if rm = 4 then return .memory (← indexed rex mode)
  else if mode = 0 ∧ rm = 5 then return .memory (.relative (← signed 4))
  else return .memory (.sum (some (.ofCode rex.b rm)) none (← displacement mode))

def operands (rex : Rex) : Reader (UInt8 × Operand) := do
  let parts := Parts.ofByte (← byte)
  return (parts.middle, ← operand rex parts.high parts.low)

/-- The operations with an immediate that share an opcode are told apart by the `reg` part. -/
def arithmetic (extension : UInt8) (dst : Operand) (imm : Int) : Reader MachineInstruction :=
  if extension = 0 then return .add dst (.immediate imm)
  else if extension = 5 then return .sub dst (.immediate imm)
  else if extension = 7 then return .cmp dst (.immediate imm)
  else failure

/-- The operation of an opcode on its operands. Where it has an immediate, the number of the register
tells operations apart. -/
def operation (opcode extension : UInt8) (reg : Register) (rm : Operand) :
    Reader MachineInstruction := do
  if opcode = 0x01 then return .add rm (.register reg)
  else if opcode = 0x29 then return .sub rm (.register reg)
  else if opcode = 0x39 then return .cmp rm (.register reg)
  else if opcode = 0x63 then return .movsxd reg rm
  else if opcode = 0x81 then arithmetic extension rm (← signed 4)
  else if opcode = 0x83 then arithmetic extension rm (← signed 1)
  else if opcode = 0x89 then return .mov rm (.register reg)
  else if opcode = 0x8B then return .mov (.register reg) rm
  else if opcode = 0x8D then
    match rm with
    | .memory address => return .lea reg address
    | _ => failure
  else if opcode = 0xC7 ∧ extension = 0 then return .mov rm (.immediate (← signed 4))
  else failure

def wide (rex : Rex) (opcode : UInt8) : Reader MachineInstruction := do
  if opcode &&& 0xF8 = 0xB8 then
    return .mov (.register (.ofCode rex.b opcode)) (.immediate (← signed 8))
  else
    let (extension, rm) ← operands rex
    operation opcode extension (.ofCode rex.r extension) rm

def twoByte (rex : Rex) (opcode : UInt8) : Reader MachineInstruction := do
  if opcode &&& 0xF0 = 0x80 then return .jcc (.ofCode opcode) (← signed 4)
  else if opcode = 0xAF ∧ rex.w then
    let (reg, rm) ← operands rex
    return .imul (.ofCode rex.r reg) rm
  else failure

def afterOpcode (rex : Rex) (opcode : UInt8) : Reader MachineInstruction := do
  if opcode = 0x0F then twoByte rex (← byte)
  else if opcode &&& 0xF8 = 0x50 then return .push (.ofCode rex.b opcode)
  else if opcode &&& 0xF8 = 0x58 then return .pop (.ofCode rex.b opcode)
  else if opcode = 0x90 ∧ rex.b = false then return .nop
  else if opcode = 0xC3 then return .ret
  else if opcode = 0xE8 then return .call (← signed 4)
  else if opcode = 0xE9 then return .jmp (← signed 4)
  else if opcode = 0xFF then
    let (extension, rm) ← operands rex
    if extension = 2 then return .callTo rm
    else if extension = 4 then return .jmpTo rm
    else failure
  else if rex.w then wide rex opcode
  else failure

end Reader

def decode : Reader MachineInstruction := do
  let rex ← Reader.rex
  Reader.afterOpcode rex (← Reader.byte)

end CodeEmission.X86
