import CodeEmission.Draft

/-! # Function records

What is kept of a function once it is committed: its buffer and everything that is needed to resolve
it later.
-/

namespace CodeEmission

structure FunctionRecord where
  id : FuncId
  name : String
  block : Block
  codeOffset : Nat
  size : Nat
  relocations : List Relocation
  locations : Locations
  layout : PoolLayout
  debugLocs : List (Nat × SourceLoc)
  resolved : Bool := false
  deriving Inhabited

namespace FunctionRecord

def baseAddress (r : FunctionRecord) : UInt64 := r.block.address

def codeAddress (r : FunctionRecord) : UInt64 := r.block.addressAt r.codeOffset

def codeEnd (r : FunctionRecord) : Nat := r.codeOffset + r.size

/-- Pool, tables and instructions. -/
def buffer (r : FunctionRecord) : Bytes := r.block.slice 0 r.codeEnd

def code (r : FunctionRecord) : Bytes := r.block.slice r.codeOffset r.size

def isExecutable (r : FunctionRecord) : Bool := r.block.executable

def blockOffset (r : FunctionRecord) (block : BlockId) : Except EmitError Nat :=
  match r.locations.block? block with
  | some offset => .ok offset
  | none => .error (.blockNotEmitted r.name block)

def labelOffset (r : FunctionRecord) (label : LabelId) : Except EmitError Nat :=
  match r.locations.label? label with
  | some offset => .ok offset
  | none => .error (.labelNotEmitted r.name label)

def blockAddress (r : FunctionRecord) (block : BlockId) : Except EmitError UInt64 :=
  (r.blockOffset block).map r.block.addressAt

def labelAddress (r : FunctionRecord) (label : LabelId) : Except EmitError UInt64 :=
  (r.labelOffset label).map r.block.addressAt

def constantAddress (r : FunctionRecord) (index : Nat) : Except EmitError UInt64 :=
  (r.layout.constantOffset index).map r.block.addressAt

def makeExecutable (r : FunctionRecord) : FunctionRecord :=
  { r with block := r.block.makeExecutable }

def tableOwner (r : FunctionRecord) : JumpTableLayout.Owner :=
  { name := r.name, address := r.baseAddress, locations := r.locations }

def jumpTableAddress (r : FunctionRecord) (index : Nat) : Except EmitError UInt64 :=
  (r.layout.jumpTableOffset index).bind r.tableOwner.addressAt

end FunctionRecord

namespace Draft

def commit (d : Draft) (id : FuncId) : FunctionRecord where
  id := id
  name := d.function
  block := d.buffer.block
  codeOffset := d.codeOffset
  size := d.offset - d.codeOffset
  relocations := d.relocations.toList
  locations := d.locations
  layout := d.layout
  debugLocs := d.debugLocs.toList

end Draft

end CodeEmission
