import CodeEmission.Batch
import CodeEmission.Data.MachineFunction

/-! # Batches and reports as data -/

namespace CodeEmission

open Data

namespace Batch

def symbols? : Data → Option (List (String × UInt64))
  | .object fields => fields.mapM fun f => do return (f.1, ← f.2.word64?)
  | _ => none

def toData (b : Batch) : Data :=
  .object
    [("module", b.module.toData),
      ("symbols", .object (b.symbols.map fun s => (s.1, .nat s.2.toNat))),
      ("functions", .array (b.functions.map MachineFunction.toData))]

def ofData? (d : Dialect) (data : Data) : Option Batch := do
  triple? .mk (withDefault {} (Module.ofData? d)) (withDefault [] symbols?)
    (withDefault [] (list? (MachineFunction.ofData? d)))
    (← data.slots? d ["module", "symbols", "functions"])

end Batch

namespace FunctionReport

def toData (r : FunctionReport) : Data :=
  .object
    [("id", .nat r.id.number.toNat), ("name", .string r.name),
      ("address", .nat r.address.toNat), ("size", .nat r.size),
      ("relocations", .nat r.relocations),
      ("blocks", .array (r.blocks.map fun b => .array [.nat b.1.number.toNat, .nat b.2])),
      ("code", .string (Bytes.toHex r.code.toList))]

end FunctionReport

namespace EmitStats

def toData (s : EmitStats) : Data :=
  .object
    [("functions", .nat s.functions), ("retries", .nat s.retries),
      ("relocations", .nat s.relocations), ("code_bytes", .nat s.codeBytes),
      ("resolved", .nat s.resolved)]

end EmitStats

namespace BatchReport

def toData (r : BatchReport) : Data :=
  .object
    [("functions", .array (r.functions.map FunctionReport.toData)), ("stats", r.stats.toData),
      ("arena_bytes", .nat r.arenaBytes)]

end BatchReport

end CodeEmission
