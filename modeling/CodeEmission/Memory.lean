import CodeEmission.Error
import CodeEmission.Plan

/-! # Memory blocks and their host

Blocks of memory of whole pages, writable until they are made executable, and the host that hands
them out. A block holds the bytes written so far; all bytes after them are zero.
-/

namespace CodeEmission

namespace Bytes

def padTo (length : Nat) (bs : Bytes) : Bytes := bs ++ Array.replicate (length - bs.size) 0

@[simp] theorem size_padTo (length : Nat) (bs : Bytes) :
    (padTo length bs).size = max bs.size length := by
  simp only [padTo, Array.size_append, Array.size_replicate]
  omega

end Bytes

/-- A block of memory. The bytes after `contents` are zero, and the address after the last byte is a
word. -/
structure Block where
  address : UInt64
  size : Nat
  contents : Bytes := #[]
  executable : Bool := false
  contents_le : contents.size ≤ size := by simp
  end_le : address.toNat + size ≤ Word.largest := by decide

namespace Block

instance : Inhabited Block := ⟨{ address := 0, size := 0 }⟩

def addressAt (b : Block) (offset : Nat) : UInt64 := b.address + UInt64.ofNat offset

def slice (b : Block) (offset length : Nat) : Bytes :=
  Bytes.padTo length (b.contents.extract offset (offset + length))

def put (b : Block) (offset : Nat) (bytes : List UInt8) (h : offset + bytes.length ≤ b.size) :
    Block :=
  { b with
    contents := (b.contents.padTo (offset + bytes.length)).overwrite offset bytes
    contents_le := by
      have := b.contents_le
      simp only [Bytes.size_overwrite, Bytes.size_padTo]
      omega }

/-- Makes one store; a store that leaves the block is not made. -/
def store (b : Block) (s : Store) : Block :=
  if h : s.offset + s.bytes.length ≤ b.size then b.put s.offset s.bytes h else b

def storeAll (b : Block) (stores : List Store) : Block := stores.foldl store b

def write (b : Block) (offset : Nat) (bytes : List UInt8) : Except MemoryError Block :=
  if h : offset + bytes.length ≤ b.size then
    if b.executable then .error .protectionFailed else .ok (b.put offset bytes h)
  else .error .invalidSize

def read? (b : Block) (offset length : Nat) : Option Bytes :=
  if offset + length ≤ b.size then some (b.slice offset length) else none

def makeExecutable (b : Block) : Block := { b with executable := true }

end Block

def Host.firstBlock : UInt64 := 0x1000000000

structure Host where
  nextBlock : UInt64 := Host.firstBlock
  processSymbols : List (String × UInt64) := []
  deriving Inhabited

namespace Host

def pageSize : Nat := 4096

def maxBlockSize : Nat := 16777216

/-- The least multiple of the page size that is not below `size`. -/
def roundToPages (size : Nat) : Nat := (size + (pageSize - 1)) / pageSize * pageSize

/-- Where a block of some size is placed: at the next address, or at the first one if the words do
not reach behind it there. -/
def place (host : Host) (size : Nat) : UInt64 :=
  if host.nextBlock.toNat + size ≤ Word.largest then host.nextBlock else firstBlock

theorem place_add_le (host : Host) {size : Nat} (h : size ≤ maxBlockSize) :
    (host.place size).toNat + size ≤ Word.largest := by
  unfold place
  split
  · assumption
  · have hfirst : firstBlock.toNat + maxBlockSize ≤ Word.largest := by decide
    omega

/-- Hands out a zero filled block of at least `size` bytes. Addresses are not used twice before the
words end, and a request that fails uses up none. -/
def map (host : Host) (size : Nat) : Except MemoryError (Block × Host) :=
  if size = 0 ∨ Word.largest < size + (pageSize - 1) then .error .invalidSize
  else
    let rounded := roundToPages size
    if h : maxBlockSize < rounded then .error .allocationFailed
    else
      let address := host.place rounded
      .ok ({ address, size := rounded, end_le := host.place_add_le (Nat.not_lt.1 h) },
        { host with nextBlock := address + UInt64.ofNat rounded })

/-- The address of a symbol of the process. Symbols at address zero and names that hold a NUL
character are not found. -/
def processSymbol? (host : Host) (name : String) : Option UInt64 :=
  if name.toList.contains '\x00' then none
  else (host.processSymbols.lookup name).filter (· ≠ 0)

end Host

end CodeEmission
