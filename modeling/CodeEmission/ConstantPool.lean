import CodeEmission.CodeBuffer
import CodeEmission.ConstantPlan
import CodeEmission.MachineFunction

/-! # Constant pools

The entries of a pool stand one after another, each at a multiple of its alignment, in space that is
reserved as a whole at a multiple of the largest alignment.
-/

namespace CodeEmission.ConstantPool

def sizeFrom (t : Target) : (size align : Nat) → List PoolEntry → Nat × Nat
  | size, align, [] => (size, align)
  | size, align, e :: es =>
    sizeFrom t (Word.addSat (Word.alignTo size e.alignment) (t.allocSize e.type))
      (max align e.alignment) es

def size (t : Target) (pool : List PoolEntry) : Nat × Nat := sizeFrom t 0 1 pool

/-- Where the entries of a pool at `start` are, if the first is placed at or after `offset` in it. -/
def offsetsFrom (t : Target) (start offset : Nat) : List PoolEntry → List Nat
  | [] => []
  | e :: es =>
    let offset := Word.alignTo offset e.alignment
    (start + offset) :: offsetsFrom t start (offset + t.allocSize e.type) es

def planFrom (t : Target) (limit start offset : Nat) : List PoolEntry → Plan EmitError
  | [] => .done
  | e :: es =>
    let offset := Word.alignTo offset e.alignment
    let position := start + offset
    let length := t.allocSize e.type
    let entry : Plan EmitError :=
      match e.value with
      | .constant c =>
        if position + length ≤ limit then (c.plan t length).shift position else .done
      | .machine _ => .done
    entry.andThen (planFrom t limit start (offset + length) es)

def hasSize (t : Target) (pool : List PoolEntry) : Bool := pool.all fun e => t.hasSize e.type

/-- Reserves the space of a pool. There is none for an empty pool or in a buffer that is too small,
and entries in a form of the target's own are refused. -/
def reserve (t : Target) (pool : List PoolEntry) (b : CodeBuffer) :
    Except EmitError (CodeBuffer × Option Nat) :=
  match pool.findIdx? (·.isMachine) with
  | some index => .error (.machineConstantPoolEntry index)
  | none =>
    if pool.isEmpty then .ok (b, none)
    else if !hasSize t pool then .error (.crash .sum)
    else
      let (size, align) := size t pool
      .ok (b.reserve size align)

structure Placed where
  buffer : CodeBuffer
  start : Option Nat := none
  offsets : List Nat := []
  fault : Option EmitError := none

def place (t : Target) (pool : List PoolEntry) (b : CodeBuffer) : Placed :=
  match reserve t pool b with
  | .error e => { buffer := b, fault := some e }
  | .ok (b, none) => { buffer := b }
  | .ok (b, some start) =>
    let plan := planFrom t b.offset start 0 pool
    let offsets := offsetsFrom t start 0 pool
    { buffer := b.fill 0 plan, start := some start, offsets, fault := plan.fault }

end CodeEmission.ConstantPool
