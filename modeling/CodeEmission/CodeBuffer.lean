import CodeEmission.Memory

/-! # Code buffers

A block that is filled from its start and never grows. What does not fit is dropped as a whole, and
from then on the buffer takes nothing more; whoever fills it looks for the overflow at the end.
-/

namespace CodeEmission

inductive Overflow where
  | write (length : Nat)
  | space
  /-- A write into a block that is executable. -/
  | readOnly
  deriving DecidableEq, Repr, Inhabited

/-- A buffer of fixed capacity. The cursor stands after the bytes written so far. -/
structure CodeBuffer where
  block : Block
  overflow : Option Overflow := none
  deriving Inhabited

namespace CodeBuffer

def capacity (b : CodeBuffer) : Nat := b.block.size

def offset (b : CodeBuffer) : Nat := b.block.contents.size

def remaining (b : CodeBuffer) : Nat := b.capacity - b.offset

def baseAddress (b : CodeBuffer) : UInt64 := b.block.address

def currentAddress (b : CodeBuffer) : UInt64 := b.block.addressAt b.offset

def code (b : CodeBuffer) : Bytes := b.block.contents

def overflowed (b : CodeBuffer) : Bool := b.overflow.isSome

/-- Whether the buffer counts as too small: something was dropped, or it is filled to the end. -/
def exhausted (b : CodeBuffer) : Bool := b.overflowed || b.offset == b.capacity

theorem offset_le_capacity (b : CodeBuffer) : b.offset ≤ b.capacity := b.block.contents_le

def extendTo (b : CodeBuffer) (limit : Nat) (h : limit ≤ b.capacity) : CodeBuffer :=
  { b with
    block :=
      { b.block with
        contents := b.block.contents.padTo limit
        contents_le := by
          have := b.block.contents_le
          simp only [capacity] at h
          simp only [Bytes.size_padTo]
          omega } }

def append (b : CodeBuffer) (bytes : List UInt8) (h : b.offset + bytes.length ≤ b.capacity) :
    CodeBuffer :=
  { b with
    block :=
      { b.block with
        contents := b.block.contents ++ bytes.toArray
        contents_le := by
          simp only [offset, capacity] at h
          simpa using h } }

/-- Appends bytes, all of them or none. -/
def write (b : CodeBuffer) (bytes : List UInt8) : CodeBuffer :=
  if b.overflowed then b
  else if h : b.offset + bytes.length ≤ b.capacity then
    if b.block.executable then { b with overflow := some .readOnly } else b.append bytes h
  else { b with overflow := some (.write bytes.length) }

def writeAll (b : CodeBuffer) (runs : List (List UInt8)) : CodeBuffer := runs.foldl write b

def align (b : CodeBuffer) (alignment : Nat) : CodeBuffer :=
  if b.overflowed then b
  else
    let aligned := Word.alignTo b.offset alignment
    if h : aligned ≤ b.capacity then b.extendTo aligned h
    else { b with overflow := some .space }

/-- Reserves `size` zero bytes at a multiple of `alignment` and returns their offset. Space that
would reach the end of the buffer is not given, and the cursor stays where it was. -/
def reserve (b : CodeBuffer) (size alignment : Nat) : CodeBuffer × Option Nat :=
  if b.overflowed then (b, none)
  else
    let aligned := Word.alignTo b.offset alignment
    if h : aligned + size < b.capacity then
      (b.extendTo (aligned + size) (Nat.le_of_lt h), some aligned)
    else ({ b with overflow := some .space }, none)

def isWritable (b : CodeBuffer) (offset length : Nat) : Bool :=
  offset + length ≤ b.offset && !b.block.executable

def fill {ε : Type} (b : CodeBuffer) (offset : Nat) (plan : Plan ε) : CodeBuffer :=
  { b with
    block :=
      { b.block with
        contents := (plan.shift offset).apply b.block.contents
        contents_le := by
          have := b.block.contents_le
          simpa using this } }

end CodeBuffer

end CodeEmission
