import CodeEmission.Data.Module
import CodeEmission.X86.Instruction

/-! # Instructions as data

An instruction is a record whose field `op` tells which instruction it is and so which other fields
there are.
-/

namespace CodeEmission.X86

open Data

namespace Register

def toData (r : Register) : Data := .string r.name

def ofSlot? : Slot → Option Register := required (choice? .tagged ofName?)

end Register

namespace Condition

def toData (c : Condition) : Data := .string c.name

def ofSlot? : Slot → Option Condition := required (choice? .tagged ofName?)

end Condition

namespace Instruction

def record (op : String) (fields : List (String × Data)) : Data :=
  .object (("op", .string op) :: fields)

def toData : Instruction → Data
  | .movRR dst src => record "mov_rr" [("dst", dst.toData), ("src", src.toData)]
  | .movRI dst imm => record "mov_ri" [("dst", dst.toData), ("imm", .int imm.toInt)]
  | .load dst base disp =>
    record "load" [("dst", dst.toData), ("base", base.toData), ("disp", .int disp.toInt)]
  | .store base disp src =>
    record "store" [("base", base.toData), ("disp", .int disp.toInt), ("src", src.toData)]
  | .addRR dst src => record "add_rr" [("dst", dst.toData), ("src", src.toData)]
  | .addRI dst imm => record "add_ri" [("dst", dst.toData), ("imm", .int imm.toInt)]
  | .subRR dst src => record "sub_rr" [("dst", dst.toData), ("src", src.toData)]
  | .subRI dst imm => record "sub_ri" [("dst", dst.toData), ("imm", .int imm.toInt)]
  | .imulRR dst src => record "imul_rr" [("dst", dst.toData), ("src", src.toData)]
  | .cmpRR dst src => record "cmp_rr" [("dst", dst.toData), ("src", src.toData)]
  | .cmpRI dst imm => record "cmp_ri" [("dst", dst.toData), ("imm", .int imm.toInt)]
  | .push reg => record "push" [("reg", reg.toData)]
  | .pop reg => record "pop" [("reg", reg.toData)]
  | .nop => record "nop" []
  | .ret => record "ret" []
  | .jmp target => record "jmp" [("target", .nat target.number.toNat)]
  | .jcc cond target =>
    record "jcc" [("cond", cond.toData), ("target", .nat target.number.toNat)]
  | .call func => record "call" [("func", .nat func.number.toNat)]
  | .callSymbol name => record "call_symbol" [("name", .string name)]
  | .loadGlobal dst global =>
    record "load_global" [("dst", dst.toData), ("global", global.toData)]
  | .loadIndirect dst global =>
    record "load_indirect" [("dst", dst.toData), ("global", global.toData)]
  | .loadBlockAddress dst block =>
    record "load_block_address" [("dst", dst.toData), ("block", .nat block.number.toNat)]
  | .loadConst dst index =>
    record "load_const" [("dst", dst.toData), ("index", .nat index.toNat)]
  | .leaJumpTable dst index =>
    record "lea_jump_table" [("dst", dst.toData), ("index", .nat index.toNat)]
  | .loadTableEntry dst table index =>
    record "load_table_entry"
      [("dst", dst.toData), ("table", table.toData), ("index", index.toData)]
  | .jmpReg reg => record "jmp_reg" [("reg", reg.toData)]
  | .label id => record "label" [("label", .nat id.number.toNat)]
  | .debugLoc line col => record "debug_loc" [("line", .nat line.toNat), ("col", .nat col.toNat)]

structure Form where
  names : List String
  build? : List Slot → Option Instruction

namespace Form

def bare (i : Instruction) : Form := { names := [], build? := fun _ => some i }

def registers (f : Register → Register → Instruction) : Form :=
  { names := ["dst", "src"], build? := pair? f Register.ofSlot? Register.ofSlot? }

def immediate (f : Register → Int32 → Instruction) : Form :=
  { names := ["dst", "imm"], build? := pair? f Register.ofSlot? (required int32?) }

def register (f : Register → Instruction) : Form :=
  { names := ["reg"], build? := single? f Register.ofSlot? }

def reference {α : Type} (name : String) (read : Data → Option α) (f : Register → α → Instruction) :
    Form :=
  { names := ["dst", name], build? := pair? f Register.ofSlot? (required read) }

def single {α : Type} (name : String) (read : Data → Option α) (f : α → Instruction) : Form :=
  { names := [name], build? := single? f (required read) }

def ofName? : String → Option Form
  | "mov_rr" => some (registers .movRR)
  | "mov_ri" => some (reference "imm" int64? .movRI)
  | "load" =>
    some
      { names := ["dst", "base", "disp"]
        build? := triple? .load Register.ofSlot? Register.ofSlot? (required int32?) }
  | "store" =>
    some
      { names := ["base", "disp", "src"]
        build? := triple? .store Register.ofSlot? (required int32?) Register.ofSlot? }
  | "add_rr" => some (registers .addRR)
  | "add_ri" => some (immediate .addRI)
  | "sub_rr" => some (registers .subRR)
  | "sub_ri" => some (immediate .subRI)
  | "imul_rr" => some (registers .imulRR)
  | "cmp_rr" => some (registers .cmpRR)
  | "cmp_ri" => some (immediate .cmpRI)
  | "push" => some (register .push)
  | "pop" => some (register .pop)
  | "nop" => some (bare .nop)
  | "ret" => some (bare .ret)
  | "jmp" => some (single "target" id? .jmp)
  | "jcc" =>
    some
      { names := ["cond", "target"]
        build? := pair? .jcc Condition.ofSlot? (required id?) }
  | "call" => some (single "func" id? .call)
  | "call_symbol" => some (single "name" string? .callSymbol)
  | "load_global" => some (reference "global" GlobalRef.ofData? .loadGlobal)
  | "load_indirect" => some (reference "global" GlobalRef.ofData? .loadIndirect)
  | "load_block_address" => some (reference "block" id? .loadBlockAddress)
  | "load_const" => some (reference "index" word64? .loadConst)
  | "lea_jump_table" => some (reference "index" word64? .leaJumpTable)
  | "load_table_entry" =>
    some
      { names := ["dst", "table", "index"]
        build? := triple? .loadTableEntry Register.ofSlot? Register.ofSlot? Register.ofSlot? }
  | "jmp_reg" => some (register .jmpReg)
  | "label" => some (single "label" id? .label)
  | "debug_loc" =>
    some
      { names := ["line", "col"]
        build? := pair? .debugLoc (required word32?) (required word32?) }
  | _ => none

end Form

def ofSound? : Data → Option Instruction
  | .object fields => do
    let form ← Form.ofName? (← required string? (← field? "op" fields))
    form.build? (← namedSlots form.names fields)
  | .array (op :: items) => do
    let form ← Form.ofName? (← op.string?)
    form.build? (← orderedSlots false form.names items)
  | _ => none

/-- The instruction that some data describes. All of the data is looked at before it is known which
instruction it is, so nothing in it may be invalid. -/
def ofData? (d : Data) : Option Instruction := if d.isSound then ofSound? d else none

end Instruction

end CodeEmission.X86
