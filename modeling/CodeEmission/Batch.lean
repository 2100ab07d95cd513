import CodeEmission.Emitter.Emission
import CodeEmission.Emitter.Resolution

/-! # Batches

A module, the addresses of external symbols and the functions to be emitted, and the report on what
came out of them.
-/

namespace CodeEmission

structure Batch where
  module : Module := {}
  /-- The addresses of external symbols. Of two addresses for a name the later one counts. -/
  symbols : List (String × UInt64) := []
  functions : List MachineFunction := []
  deriving Repr, Inhabited

structure FunctionReport where
  id : FuncId
  name : String
  address : UInt64
  size : Nat
  relocations : Nat
  blocks : List (BlockId × Nat)
  code : Bytes
  deriving DecidableEq, Repr, Inhabited

structure BatchReport where
  functions : List FunctionReport
  stats : EmitStats
  arenaBytes : Nat
  deriving DecidableEq, Repr, Inhabited

inductive BatchFailure where
  | emission (function : String) (e : EmitError)
  | resolution (e : EmitError)
  | abort (e : EmitError)
  deriving DecidableEq, Repr, Inhabited

namespace BatchFailure

def message : BatchFailure → String
  | .emission function e => "failed to emit '" ++ function ++ "': " ++ e.message
  | .resolution e => "failed to resolve relocations: " ++ e.message
  | .abort e => (Failure.abort e).message

end BatchFailure

namespace FunctionRecord

def report (r : FunctionRecord) : FunctionReport where
  id := r.id
  name := r.name
  address := r.codeAddress
  size := r.size
  relocations := r.relocations.length
  blocks := r.locations.blocks.entries.map fun e => (e.1, e.2 - r.codeOffset)
  code := r.code

end FunctionRecord

namespace Emitter

def batchReport (em : Emitter) : BatchReport where
  functions := em.functions.values.map (·.report)
  stats := em.stats
  arenaBytes := em.arena.size

def defineSymbols (em : Emitter) (symbols : List (String × UInt64)) : Emitter :=
  symbols.foldl (fun em s => em.defineSymbol s.1 s.2) em

def emitAll (em : Emitter) : List MachineFunction → Emitter × Except BatchFailure Unit
  | [] => (em, .ok ())
  | f :: fs =>
    match em.emitFunction f with
    | (em, .ok _) => em.emitAll fs
    | (em, .error (.error e)) => (em, .error (.emission f.name e))
    | (em, .error (.abort e)) => (em, .error (.abort e))

end Emitter

namespace Batch

def emitter (b : Batch) (config : Config) (host : Host) : Emitter :=
  (Emitter.new .x86_64 b.module config host).defineSymbols b.symbols

/-- Emits every function of a batch and resolves all references; the emitter is returned also after a
failure. -/
def emit (b : Batch) (config : Config) (host : Host) :
    Emitter × Except BatchFailure BatchReport :=
  match (b.emitter config host).emitAll b.functions with
  | (em, .error e) => (em, .error e)
  | (em, .ok ()) =>
    match em.resolveRelocations with
    | (em, .error (.error e)) => (em, .error (.resolution e))
    | (em, .error (.abort e)) => (em, .error (.abort e))
    | (em, .ok _) => (em, .ok em.batchReport)

end Batch

end CodeEmission
