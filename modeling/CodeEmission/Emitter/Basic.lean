import CodeEmission.Arena
import CodeEmission.FunctionRecord
import CodeEmission.Sink
import CodeEmission.SymbolTable

/-! # The emitter

The state of the emission engine: the module, the committed functions, the arena of variables and the
symbols, together with the machine it runs on. Operations return the state after them also when they
fail.
-/

namespace CodeEmission

inductive SessionState where
  | idle
  /-- It was cut off. -/
  | emitting
  | committed
  deriving DecidableEq, Repr, Inhabited

structure EmitStats where
  functions : Nat := 0
  retries : Nat := 0
  relocations : Nat := 0
  codeBytes : Nat := 0
  resolved : Nat := 0
  deriving DecidableEq, Repr, Inhabited

abbrev FunctionTable := IdMap .function FunctionRecord

structure Emitter where
  target : Target := .x86_64
  module : Module := {}
  config : Config := {}
  functions : FunctionTable := .empty
  arena : Arena := {}
  symbols : SymbolTable := {}
  sink : Sink := .log
  shown : Array EmittedCode := #[]
  stats : EmitStats := {}
  /-- Blocks that belong to no function. -/
  detached : List Block := []
  /-- The size of the next buffer, if an emission is being retried, and zero otherwise. -/
  sizeEstimate : Nat := 0
  state : SessionState := .idle
  host : Host := {}
  log : Array Event := #[]
  deriving Inhabited

inductive Failure where
  | error (e : EmitError)
  | abort (e : EmitError)
  deriving DecidableEq, Repr, Inhabited

namespace Failure

def message : Failure → String
  | .error e => e.message
  | .abort (.crash step) => step.message
  | .abort e => "emission invariant violated: " ++ e.message

end Failure

namespace Emitter

def new (target : Target) (module : Module) (config : Config) (host : Host) (sink : Sink := .log) :
    Emitter :=
  { target, module, config, host, sink
    symbols := { searchProcess := config.searchProcessSymbols } }

def report (em : Emitter) (e : Event) : Emitter := { em with log := em.log.push e }

def reportAll (em : Emitter) (es : Array Event) : Emitter := { em with log := em.log ++ es }

def addGlobal (em : Emitter) (g : GlobalVariable) : Emitter :=
  { em with module := { em.module with globals := em.module.globals ++ [g] } }

def addAlias (em : Emitter) (a : GlobalAlias) : Emitter :=
  { em with module := { em.module with aliases := em.module.aliases ++ [a] } }

def defineSymbol (em : Emitter) (name : String) (address : UInt64) : Emitter :=
  { em with symbols := em.symbols.define name address }

def function? (em : Emitter) (id : FuncId) : Option FunctionRecord := em.functions.get? id

def modifyFunction (em : Emitter) (id : FuncId) (f : FunctionRecord → FunctionRecord) : Emitter :=
  { em with functions := em.functions.modify id f }

def makeExecutable (em : Emitter) (id : FuncId) : Emitter × Bool :=
  (em.modifyFunction id (·.makeExecutable), em.functions.contains id)

def stopsAt (em : Emitter) (e : EmitError) : Bool :=
  e.isCrash || em.config.abortOnInvariantViolation && e.isInvariantViolation

def check {α : Type} (em : Emitter) (result : Except EmitError α) : Except Failure α :=
  match result with
  | .ok a => .ok a
  | .error e => if em.stopsAt e then .error (.abort e) else .error (.error e)

/-- Obtains space that belongs to no function and returns the address of `size` bytes in it. Blocks
start at pages, so only larger alignments need additional room. -/
def allocateSpace (em : Emitter) (size alignment : Nat) : Emitter × Except EmitError UInt64 :=
  let alignment := max alignment 1
  let extra := if Host.pageSize < alignment then alignment else 0
  match Word.sum? (max size 1) extra with
  | none => (em, .error (.crash .sum))
  | some padded =>
    match em.host.map padded with
    | .error e => (em, .error (.memory e))
    | .ok (block, host) =>
      let address := UInt64.ofNat (Word.alignTo block.address.toNat alignment)
      let em := em.report (.detached size address)
      ({ em with host, detached := block :: em.detached }, .ok address)

end Emitter

end CodeEmission
