/-! # Registers and conditions

The sixteen 64-bit general-purpose registers and the sixteen branch conditions, with the numbers by
which instructions refer to them. A condition and its inverse differ in the lowest bit of the number.
-/

namespace CodeEmission.X86

inductive Register where
  | rax
  | rcx
  | rdx
  | rbx
  | rsp
  | rbp
  | rsi
  | rdi
  | r8
  | r9
  | r10
  | r11
  | r12
  | r13
  | r14
  | r15
  deriving DecidableEq, Repr, Inhabited

namespace Register

def all : List Register :=
  [.rax, .rcx, .rdx, .rbx, .rsp, .rbp, .rsi, .rdi, .r8, .r9, .r10, .r11, .r12, .r13, .r14, .r15]

def number : Register → UInt8
  | .rax => 0
  | .rcx => 1
  | .rdx => 2
  | .rbx => 3
  | .rsp => 4
  | .rbp => 5
  | .rsi => 6
  | .rdi => 7
  | .r8 => 8
  | .r9 => 9
  | .r10 => 10
  | .r11 => 11
  | .r12 => 12
  | .r13 => 13
  | .r14 => 14
  | .r15 => 15

def name : Register → String
  | .rax => "rax"
  | .rcx => "rcx"
  | .rdx => "rdx"
  | .rbx => "rbx"
  | .rsp => "rsp"
  | .rbp => "rbp"
  | .rsi => "rsi"
  | .rdi => "rdi"
  | .r8 => "r8"
  | .r9 => "r9"
  | .r10 => "r10"
  | .r11 => "r11"
  | .r12 => "r12"
  | .r13 => "r13"
  | .r14 => "r14"
  | .r15 => "r15"

def ofName? (s : String) : Option Register := all.find? fun r => r.name == s

/-- The three low bits of the number, which go into the operand bytes. -/
def code (r : Register) : UInt8 := r.number &&& 7

def isExtended (r : Register) : Bool := 8 ≤ r.number

/-- The REX bit that extends the register as base or `rm` operand. -/
def rexB (r : Register) : UInt8 := if r.isExtended then 1 else 0

def rexX (r : Register) : UInt8 := if r.isExtended then 2 else 0

def rexR (r : Register) : UInt8 := if r.isExtended then 4 else 0

theorem mem_all (r : Register) : r ∈ all := by cases r <;> decide

theorem ofName?_name (r : Register) : ofName? r.name = some r := by cases r <;> decide

end Register

inductive Condition where
  | o
  | no
  | b
  | ae
  | e
  | ne
  | be
  | a
  | s
  | ns
  | p
  | np
  | l
  | ge
  | le
  | g
  deriving DecidableEq, Repr, Inhabited

namespace Condition

def all : List Condition :=
  [.o, .no, .b, .ae, .e, .ne, .be, .a, .s, .ns, .p, .np, .l, .ge, .le, .g]

def number : Condition → UInt8
  | .o => 0
  | .no => 1
  | .b => 2
  | .ae => 3
  | .e => 4
  | .ne => 5
  | .be => 6
  | .a => 7
  | .s => 8
  | .ns => 9
  | .p => 10
  | .np => 11
  | .l => 12
  | .ge => 13
  | .le => 14
  | .g => 15

def name : Condition → String
  | .o => "o"
  | .no => "no"
  | .b => "b"
  | .ae => "ae"
  | .e => "e"
  | .ne => "ne"
  | .be => "be"
  | .a => "a"
  | .s => "s"
  | .ns => "ns"
  | .p => "p"
  | .np => "np"
  | .l => "l"
  | .ge => "ge"
  | .le => "le"
  | .g => "g"

def ofName? (s : String) : Option Condition := all.find? fun c => c.name == s

def invert : Condition → Condition
  | .o => .no
  | .no => .o
  | .b => .ae
  | .ae => .b
  | .e => .ne
  | .ne => .e
  | .be => .a
  | .a => .be
  | .s => .ns
  | .ns => .s
  | .p => .np
  | .np => .p
  | .l => .ge
  | .ge => .l
  | .le => .g
  | .g => .le

theorem invert_invert (c : Condition) : c.invert.invert = c := by cases c <;> rfl

theorem number_invert (c : Condition) : c.invert.number = c.number ^^^ 1 := by cases c <;> rfl

theorem ofName?_name (c : Condition) : ofName? c.name = some c := by cases c <;> decide

end Condition

end CodeEmission.X86
