import CodeEmission.Data.Instruction
import CodeEmission.MachineFunction

/-! # Machine functions as data -/

namespace CodeEmission

open Data

namespace PoolValue

def toData : PoolValue → Data
  | .constant value => .object [("constant", value.toData)]
  | .machine bytes => .object [("machine", .array (bytes.map fun b => .nat b.toNat))]

def ofData? (d : Dialect) (data : Data) : Option PoolValue :=
  match data.alternative? with
  | some ("constant", some body) => (Constant.ofData? d body).map .constant
  | some ("machine", some body) => (list? byte? body).map .machine
  | _ => none

end PoolValue

namespace PoolEntry

def toData (e : PoolEntry) : Data :=
  .object [("value", e.value.toData), ("align", .nat e.align.toNat)]

def ofData? (d : Dialect) (data : Data) : Option PoolEntry := do
  pair? .mk (required (PoolValue.ofData? d)) (required word64?)
    (← data.slots? d ["value", "align"])

end PoolEntry

namespace JumpTableKind

def name : JumpTableKind → String
  | .blockAddress => "block_address"
  | .gpRel64BlockAddress => "gp_rel64_block_address"
  | .gpRel32BlockAddress => "gp_rel32_block_address"
  | .labelDifference32 => "label_difference32"
  | .inline => "inline"
  | .custom32 => "custom32"

def ofName? : String → Option JumpTableKind
  | "block_address" => some .blockAddress
  | "gp_rel64_block_address" => some .gpRel64BlockAddress
  | "gp_rel32_block_address" => some .gpRel32BlockAddress
  | "label_difference32" => some .labelDifference32
  | "inline" => some .inline
  | "custom32" => some .custom32
  | _ => none

theorem ofName?_name (k : JumpTableKind) : ofName? k.name = some k := by cases k <;> rfl

def ofData? (d : Dialect) : Data → Option JumpTableKind := choice? d ofName?

end JumpTableKind

namespace JumpTable

def toData (t : JumpTable) : Data :=
  .object [("targets", .array (t.targets.map fun b => .nat b.number.toNat))]

def ofData? (d : Dialect) (data : Data) : Option JumpTable := do
  single? .mk (required (list? id?)) (← data.slots? d ["targets"])

end JumpTable

namespace JumpTableInfo

def toData (info : JumpTableInfo) : Data :=
  .object
    [("kind", .string info.kind.name), ("tables", .array (info.tables.map JumpTable.toData))]

def ofData? (d : Dialect) (data : Data) : Option JumpTableInfo := do
  pair? .mk (required (JumpTableKind.ofData? d)) (required (list? (JumpTable.ofData? d)))
    (← data.slots? d ["kind", "tables"])

end JumpTableInfo

namespace MachineBlock

def toData (b : MachineBlock) : Data :=
  .object
    [("number", .nat b.number.number.toNat), ("insts", .array (b.insts.map X86.Instruction.toData))]

def ofData? (d : Dialect) (data : Data) : Option MachineBlock := do
  pair? .mk (required id?) (required (list? X86.Instruction.ofData?))
    (← data.slots? d ["number", "insts"])

end MachineBlock

namespace MachineFunction

def toData (f : MachineFunction) : Data :=
  .object <|
    [("id", .nat f.id.number.toNat), ("name", .string f.name),
      ("alignment", .nat f.alignment.toNat),
      ("constant_pool", .array (f.constantPool.map PoolEntry.toData))] ++
    optionalField "jump_tables" (f.jumpTables.map JumpTableInfo.toData) ++
    [("blocks", .array (f.blocks.map MachineBlock.toData))]

def ofData? (d : Dialect) (data : Data) : Option MachineFunction := do
  match ← data.slots? d
      ["id", "name", "alignment", "constant_pool", "jump_tables", "blocks"] with
  | [id, name, alignment, constantPool, jumpTables, blocks] =>
    return {
      id := ← required id? id
      name := ← required string? name
      alignment := ← withDefault 0 word64? alignment
      constantPool := ← withDefault [] (list? (PoolEntry.ofData? d)) constantPool
      jumpTables := ← optional (JumpTableInfo.ofData? d) jumpTables
      blocks := ← required (list? (MachineBlock.ofData? d)) blocks }
  | _ => none

end MachineFunction

end CodeEmission
