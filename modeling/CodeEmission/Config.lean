/-! # Configuration

The settings of the emitter and of the program around it.
-/

namespace CodeEmission

inductive ReportFormat where
  | human
  | json
  deriving DecidableEq, Repr, Inhabited

structure Config where
  initialBufferSize : UInt64 := 4096
  /-- The alignment of what stands before the code, at least 16. -/
  poolAlignment : UInt64 := 16
  /-- The least alignment of the code, at least 8. -/
  minFunctionAlignment : UInt64 := 8
  trace : Bool := false
  abortOnInvariantViolation : Bool := false
  searchProcessSymbols : Bool := true
  format : ReportFormat := .human
  deriving DecidableEq, Repr, Inhabited

namespace Config

def fileName : String := "kiln.toml"

end Config

end CodeEmission
