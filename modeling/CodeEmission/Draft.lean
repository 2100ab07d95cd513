import CodeEmission.Config
import CodeEmission.ConstantPool
import CodeEmission.Event
import CodeEmission.JumpTables

/-! # Drafts

A function while it is laid out: constant pool, jump table slots, padding and instructions go into one
buffer in this order, and references, locations and source positions are noted on the way. A draft
whose buffer turns out to be too small is thrown away as a whole.
-/

namespace CodeEmission

structure Draft where
  function : String
  buffer : CodeBuffer
  relocations : Array Relocation := #[]
  locations : Locations := {}
  layout : PoolLayout := {}
  /-- Source positions with the offsets they hold from. -/
  debugLocs : Array (Nat × SourceLoc) := #[]
  codeOffset : Nat := 0
  log : Array Event := #[]
  deriving Inhabited

/-- A draft that was given up, with what had been reported until then. -/
structure DraftFailure where
  error : EmitError
  log : Array Event

namespace Draft

def offset (d : Draft) : Nat := d.buffer.offset

/-- What has been reported, with the write that the buffer had no room for. Nothing is reported after
that write. -/
def events (d : Draft) : Array Event :=
  match d.buffer.overflow with
  | some (.write length) => d.log.push (.bufferOverflow length d.offset)
  | _ => d.log

def failure (d : Draft) (e : EmitError) : DraftFailure := { error := e, log := d.events }

def align (d : Draft) (alignment : Nat) : Draft := { d with buffer := d.buffer.align alignment }

def startBlock (d : Draft) (block : BlockId) : Except DraftFailure Draft :=
  let d := { d with log := d.log.push (.blockStarted d.function block d.offset) }
  match d.locations.recordBlock block d.offset with
  | .ok locations => .ok { d with locations }
  | .error e => .error (d.failure e)

def startLabel (d : Draft) (label : LabelId) : Except DraftFailure Draft :=
  match d.locations.recordLabel label d.offset with
  | .ok locations => .ok { d with locations }
  | .error e => .error (d.failure e)

/-- Notes that the following code has a source position, unless the code before has the same. -/
def startLoc (d : Draft) (loc : SourceLoc) : Draft :=
  if d.debugLocs.back?.map (·.2) = some loc then d
  else { d with debugLocs := d.debugLocs.push (d.offset, loc) }

def addRelocation (d : Draft) (r : Relocation) : Draft :=
  { d with relocations := d.relocations.push r }

def writeCode (d : Draft) (i : X86.Instruction) : Draft :=
  let start := d.offset
  let relocations :=
    match i.fixup? with
    | some f => d.relocations.push (f.relocationAt start)
    | none => d.relocations
  { d with buffer := d.buffer.writeAll (i.fields.map X86.Field.bytes), relocations }

def emit (d : Draft) (i : X86.Instruction) : Except DraftFailure Draft :=
  match i with
  | .label label => d.startLabel label
  | .debugLoc line col => .ok (d.startLoc { line, col })
  | i => .ok (d.writeCode i)

def emitBlock (d : Draft) (b : MachineBlock) : Except DraftFailure Draft := do
  let d ← d.startBlock b.number
  b.insts.foldlM emit d

/-- Emits blocks until one leaves the buffer overflowed. -/
def emitBlocks (d : Draft) : List MachineBlock → Except DraftFailure Draft
  | [] => .ok d
  | b :: bs =>
    if d.buffer.overflowed then .ok d
    else do
      let d ← d.emitBlock b
      d.emitBlocks bs

def placePool (d : Draft) (t : Target) (pool : List PoolEntry) : Except DraftFailure Draft :=
  let placed := ConstantPool.place t pool d.buffer
  let log :=
    match placed.start with
    | some start =>
      d.log.push (.poolPlaced pool.length (ConstantPool.size t pool).1 start)
    | none => d.log
  let d := { d with buffer := placed.buffer, log }
  match placed.fault with
  | some e => .error (d.failure e)
  | none => .ok { d with layout := { d.layout with constants := placed.offsets } }

def placeTables (d : Draft) (t : Target) (info : Option JumpTableInfo) :
    Except DraftFailure Draft :=
  match JumpTableLayout.reserve t info d.buffer with
  | .error e => .error (d.failure e)
  | .ok (buffer, tables) =>
    let log :=
      match tables with
      | some l =>
        d.log.push (.tablesPlaced l.numEntries (l.numEntries * l.entrySize) l.base)
      | none => d.log
    .ok { d with buffer, log, layout := { d.layout with jumpTables := tables } }

def layOut (t : Target) (config : Config) (f : MachineFunction) (buffer : CodeBuffer) :
    Except DraftFailure Draft := do
  let d : Draft := { function := f.name, buffer }
  let d := d.align (max config.poolAlignment.toNat 16)
  let d ← d.placePool t f.constantPool
  let d ← d.placeTables t f.jumpTables
  let d := d.align (max (max f.alignment.toNat config.minFunctionAlignment.toNat) 8)
  let d := { d with codeOffset := d.offset }
  d.emitBlocks f.blocks

end Draft

end CodeEmission
