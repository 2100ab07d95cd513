import CodeEmission.Emitter.References
import CodeEmission.Patch

/-! # Resolution

The second pass over the committed functions: every reference gets its address, the code is patched,
the slots of the jump tables are filled and the function is shown to the sink. Functions are taken in
ascending order of their numbers, and the first failure ends the pass.
-/

namespace CodeEmission.Emitter

def symbolAddress (em : Emitter) (name : String) : Emitter × Except EmitError UInt64 :=
  let (address, event) := em.symbols.lookup em.host name
  let em := { em with log := em.log ++ event.toArray }
  match address with
  | some address => (em, .ok address)
  | none => (em, .error (.unresolvedSymbol name))

def targetAddress (em : Emitter) (r : FunctionRecord) :
    RelocTarget → Emitter × Except EmitError UInt64
  | .externalSymbol name => em.symbolAddress name
  | .globalValue g | .indirectSymbol g => em.globalAddress g
  | .basicBlock block => (em, r.blockAddress block)
  | .constantPool index => (em, r.constantAddress index)
  | .jumpTable index => (em, r.jumpTableAddress index)

/-- Gives relocations of a function their addresses up to the first whose target has none. -/
def resolveTargets (em : Emitter) (r : FunctionRecord) :
    List Relocation → Emitter × List Relocation × Option EmitError
  | [] => (em, [], none)
  | reloc :: relocs =>
    if reloc.leftToTarget then
      let (em, relocs, fault) := em.resolveTargets r relocs
      (em, reloc :: relocs, fault)
    else
      match em.targetAddress r reloc.target with
      | (em, .error e) => (em, reloc :: relocs, some e)
      | (em, .ok address) =>
        let em := em.report (.targetResolved r.id reloc.offset reloc.target address)
        let (em, relocs, fault) := em.resolveTargets r relocs
        (em, { reloc with result := some address } :: relocs, fault)

end CodeEmission.Emitter

namespace CodeEmission

namespace FunctionRecord

/-- The stores that patch the references of a function and then fill its jump tables. -/
def patchPlan (r : FunctionRecord) (t : Target) : Plan EmitError :=
  let tables :=
    match r.layout.jumpTables with
    | some l => l.plan t r.tableOwner r.block.size
    | none => .done
  (Relocation.patchAll r.baseAddress r.codeEnd r.relocations).andThen tables

/-- Patches a function whose relocations have their addresses. What was written before a failure
stays. -/
def patch (r : FunctionRecord) (t : Target) : FunctionRecord × Option EmitError :=
  match r.relocations.find? fun reloc => r.codeEnd ≤ reloc.offset with
  | some reloc => (r, some (.relocationOutOfBounds reloc.offset))
  | none =>
    if r.isExecutable then (r, some (.memory .protectionFailed))
    else
      let plan := r.patchPlan t
      ({ r with block := r.block.storeAll plan.stores }, plan.fault)

def withoutLog (r : FunctionRecord) : FunctionRecord := { r with relocations := [] }

def emittedCode (r : FunctionRecord) : EmittedCode :=
  { name := r.name, address := r.codeAddress, code := r.code, debugLocs := r.debugLocs }

end FunctionRecord

namespace Emitter

def showCode (em : Emitter) (c : EmittedCode) : Emitter :=
  let (sink, event) := em.sink.receive c
  { em with sink, shown := em.shown.push c, log := em.log ++ event.toArray }

def putRecord (em : Emitter) (r : FunctionRecord) : Emitter :=
  em.modifyFunction r.id fun _ => r

/-- The attempt to resolve a function. After an error its record has the addresses found so far. -/
def tryResolve (em : Emitter) (r : FunctionRecord) : Emitter × Option EmitError :=
  match em.resolveTargets r r.relocations with
  | (em, relocations, some e) => (em.putRecord { r with relocations }, some e)
  | (em, relocations, none) =>
    match { r with relocations := relocations }.patch em.target with
    | (r, some e) => (em.putRecord r, some e)
    | (r, none) =>
      let r := { r with resolved := true }
      let em := em.putRecord r
      let em := { em with stats := { em.stats with resolved := em.stats.resolved + 1 } }
      let em := em.report (.resolved r.name r.relocations.length)
      (em.showCode r.emittedCode, none)

/-- The state after an attempt. The log of a function is away from its record while it is worked on, and
is not brought back if that is cut off. -/
def afterFault (em : Emitter) (id : FuncId) : Option EmitError → Emitter
  | some (.crash _) => em.modifyFunction id (·.withoutLog)
  | _ => em

def resolveFunction (em : Emitter) (r : FunctionRecord) : Emitter × Option EmitError :=
  let (em, fault) := em.tryResolve r
  (em.afterFault r.id fault, fault)

def resolveEach (em : Emitter) : List FuncId → Emitter × Option EmitError
  | [] => (em, none)
  | id :: ids =>
    match em.function? id with
    | none => (em, some (.functionNotEmitted id))
    | some r =>
      match em.resolveFunction r with
      | (em, some e) => (em, some e)
      | (em, none) => em.resolveEach ids

def pending (em : Emitter) : List FuncId :=
  (em.functions.values.filter fun r => !r.resolved).map (·.id)

/-- Resolves every function committed or unresolved since the last call and returns their number. -/
def resolveRelocations (em : Emitter) : Emitter × Except Failure Nat :=
  let pending := em.pending
  match em.resolveEach pending with
  | (em, some e) => (em, em.check (.error e))
  | (em, none) => (em, .ok pending.length)

end Emitter

end CodeEmission
