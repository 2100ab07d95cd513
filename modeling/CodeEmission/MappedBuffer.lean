import CodeEmission.CodeBuffer

/-! # Buffers over memory

A code buffer as it stands in memory: the bytes of a whole block, and a cursor. Padding is written,
reserved space is taken as it is, and the cursor is set back if space could be aligned but not
reserved.
-/

namespace CodeEmission

@[ext] structure MappedBuffer where
  address : UInt64
  memory : Bytes
  executable : Bool
  cursor : Nat := 0
  overflow : Option Overflow := none
  deriving Inhabited

namespace MappedBuffer

def ofBlock (block : Block) : MappedBuffer where
  address := block.address
  memory := block.contents.padTo block.size
  executable := block.executable

def capacity (m : MappedBuffer) : Nat := m.memory.size

def remaining (m : MappedBuffer) : Nat := m.capacity - m.cursor

def currentAddress (m : MappedBuffer) : UInt64 := m.address + UInt64.ofNat m.cursor

def code (m : MappedBuffer) : Bytes := m.memory.extract 0 m.cursor

def overflowed (m : MappedBuffer) : Bool := m.overflow.isSome

def exhausted (m : MappedBuffer) : Bool := m.overflowed || m.cursor == m.capacity

def write (m : MappedBuffer) (bytes : List UInt8) : MappedBuffer :=
  if m.overflowed then m
  else if m.remaining < bytes.length then { m with overflow := some (.write bytes.length) }
  else if m.executable then { m with overflow := some .readOnly }
  else
    { m with
      memory := m.memory.overwrite m.cursor bytes
      cursor := m.cursor + bytes.length }

/-- Moves the cursor to a multiple of `alignment`. Memory that is executable is passed over as it
is. -/
def align (m : MappedBuffer) (alignment : Nat) : MappedBuffer :=
  if m.overflowed then m
  else
    let aligned := Word.alignTo m.cursor alignment
    if m.capacity < aligned then { m with overflow := some .space }
    else if m.executable then { m with cursor := aligned }
    else
      { m with
        memory := m.memory.overwrite m.cursor (List.replicate (aligned - m.cursor) 0)
        cursor := aligned }

/-- Reserves `size` bytes at a multiple of `alignment`, as they are, and returns their offset. If
they would reach the end, the padding before them stays and the cursor is set back. -/
def reserve (m : MappedBuffer) (size alignment : Nat) : MappedBuffer × Option Nat :=
  if m.overflowed then (m, none)
  else
    let aligned := m.align alignment
    if aligned.overflowed || aligned.remaining ≤ size then
      ({ aligned with cursor := m.cursor, overflow := some .space }, none)
    else ({ aligned with cursor := aligned.cursor + size }, some aligned.cursor)

def isWritable (m : MappedBuffer) (offset length : Nat) : Bool :=
  offset + length ≤ m.cursor && !m.executable

def fill (m : MappedBuffer) (offset : Nat) (bytes : List UInt8) : MappedBuffer :=
  { m with memory := m.memory.overwrite offset bytes }

end MappedBuffer

end CodeEmission
