import CodeEmission.Config
import CodeEmission.Data.Shape

/-! # Configurations as data

Every setting may be missing and then has its usual value.
-/

namespace CodeEmission

open Data

namespace ReportFormat

def name : ReportFormat → String
  | .human => "human"
  | .json => "json"

def ofName? : String → Option ReportFormat
  | "human" => some .human
  | "json" => some .json
  | _ => none

theorem ofName?_name (f : ReportFormat) : ofName? f.name = some f := by cases f <;> rfl

end ReportFormat

namespace Config

def toFields (c : Config) : List (String × Data) :=
  [("initial_buffer_size", .nat c.initialBufferSize.toNat),
    ("pool_alignment", .nat c.poolAlignment.toNat),
    ("min_function_alignment", .nat c.minFunctionAlignment.toNat),
    ("trace", .bool c.trace),
    ("abort_on_invariant_violation", .bool c.abortOnInvariantViolation),
    ("search_process_symbols", .bool c.searchProcessSymbols),
    ("format", .string c.format.name)]

def toData (c : Config) : Data := .object c.toFields

def ofData? (d : Dialect) (data : Data) : Option Config := do
  let usual : Config := {}
  match ← data.slots? d
      ["initial_buffer_size", "pool_alignment", "min_function_alignment", "trace",
        "abort_on_invariant_violation", "search_process_symbols", "format"] with
  | [size, pool, function, trace, abort, search, format] =>
    return {
      initialBufferSize := ← withDefault usual.initialBufferSize word64? size
      poolAlignment := ← withDefault usual.poolAlignment word64? pool
      minFunctionAlignment := ← withDefault usual.minFunctionAlignment word64? function
      trace := ← withDefault usual.trace bool? trace
      abortOnInvariantViolation := ← withDefault usual.abortOnInvariantViolation bool? abort
      searchProcessSymbols := ← withDefault usual.searchProcessSymbols bool? search
      format := ← withDefault usual.format (choice? d ReportFormat.ofName?) format }
  | _ => none

end Config

end CodeEmission
