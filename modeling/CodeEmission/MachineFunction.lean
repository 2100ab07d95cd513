import CodeEmission.TypeLayout
import CodeEmission.X86.Instruction

/-! # Machine functions

Functions as they come from instruction selection: blocks of instructions, and apart from them the
constant pool and the jump tables that are laid out in front of the code.
-/

namespace CodeEmission

structure SourceLoc where
  line : UInt32
  col : UInt32
  deriving DecidableEq, Repr, Inhabited

inductive PoolValue where
  | constant (value : Constant)
  /-- A constant in a form of the target's own, which cannot be laid out. -/
  | machine (bytes : List UInt8)
  deriving Repr, Inhabited

structure PoolEntry where
  value : PoolValue
  align : UInt64
  deriving Repr, Inhabited

namespace PoolEntry

def type (e : PoolEntry) : ValueType :=
  match e.value with
  | .constant c => c.type
  | .machine bytes => .array .i8 (UInt64.ofNat bytes.length)

def isMachine (e : PoolEntry) : Bool :=
  match e.value with
  | .constant _ => false
  | .machine _ => true

/-- The alignment of an entry, where zero counts as one. -/
def alignment (e : PoolEntry) : Nat := max e.align.toNat 1

end PoolEntry

structure JumpTable where
  targets : List BlockId
  deriving DecidableEq, Repr, Inhabited

structure JumpTableInfo where
  kind : JumpTableKind
  tables : List JumpTable
  deriving DecidableEq, Repr, Inhabited

namespace JumpTableInfo

def numEntries (info : JumpTableInfo) : Nat := (info.tables.flatMap (·.targets)).length

end JumpTableInfo

structure MachineBlock where
  number : BlockId
  insts : List X86.Instruction
  deriving DecidableEq, Repr, Inhabited

structure MachineFunction where
  id : FuncId
  name : String
  alignment : UInt64 := 0
  constantPool : List PoolEntry := []
  jumpTables : Option JumpTableInfo := none
  blocks : List MachineBlock
  deriving Repr, Inhabited

end CodeEmission
