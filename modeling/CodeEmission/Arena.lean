import CodeEmission.ConstantPlan
import CodeEmission.Event
import CodeEmission.IdMap
import CodeEmission.Memory
import CodeEmission.Module

/-! # The arena of global variables

Variables are laid out one after another in a growing array of bytes, each when its address is asked
for the first time. Code does not see positions in the array but tagged addresses, which carry the
offset in their low 24 bits.
-/

namespace CodeEmission

/-- The position of a variable in the arena, which has to fit into 24 bits. -/
structure ArenaOffset where
  offset : Nat
  offset_lt : offset < 16777216
  deriving DecidableEq, Repr

namespace ArenaOffset

def capacity : Nat := 16777216

def tag : UInt64 := 0xDA000000

def mask : UInt64 := 0xFFFFFF

def ofNat? (n : Nat) : Option ArenaOffset :=
  if h : n < 16777216 then some ⟨n, h⟩ else none

def tagged (o : ArenaOffset) : UInt64 := tag ||| UInt64.ofNat o.offset

def ofTagged? (address : UInt64) : Option ArenaOffset :=
  if address &&& ~~~mask = tag then ofNat? (address &&& mask).toNat else none

end ArenaOffset

structure Arena where
  bytes : Bytes := #[]
  slots : IdMap .global ArenaOffset := .empty
  deriving Inhabited

namespace Arena

def size (a : Arena) : Nat := a.bytes.size

def slot? (a : Arena) (id : GlobalId) : Option ArenaOffset := a.slots.get? id

def read? (a : Arena) (offset : ArenaOffset) (length : Nat) : Option Bytes :=
  if offset.offset + length ≤ a.size then
    some (a.bytes.extract offset.offset (offset.offset + length))
  else none

/-- The space that a variable takes: enough for its type and for its initial value. -/
def slotSize (t : Target) (g : GlobalVariable) : Nat :=
  match g.init with
  | some init => max (t.allocSize g.type) (t.allocSize init.type)
  | none => t.allocSize g.type

/-- The alignment of a variable: the larger of what it asks for and what its type prefers. -/
def slotAlign (t : Target) (g : GlobalVariable) : Nat :=
  max (max ((g.align.map UInt64.toNat).getD 1) (t.preferredAlign g.type)) 1

/-- What is written into the space of a variable. Thread-local variables stay zero. -/
def initialPlan (t : Target) (g : GlobalVariable) : Plan EmitError :=
  match g.init with
  | some init => if g.threadLocal then .done else init.plan t (slotSize t g)
  | none => .done

def hasSlotSize (t : Target) (g : GlobalVariable) : Bool :=
  t.hasSize g.type && g.init.all fun init => t.hasSize init.type

def grow (a : Arena) (size : Nat) : Arena := { a with bytes := a.bytes.padTo size }

def write (a : Arena) (start : Nat) (plan : Plan EmitError) : Arena :=
  { a with bytes := (plan.shift start).apply a.bytes }

def truncate (a : Arena) (size : Nat) : Arena := { a with bytes := a.bytes.take size }

structure Answer where
  offset : ArenaOffset
  event : Option Event := none

/-- The position of a variable, for which the arena grows and which is initialized there if it has
none yet. When that cannot be done to the end, the arena shrinks again. -/
def addressOf (a : Arena) (t : Target) (g : GlobalVariable) : Arena × Except EmitError Answer :=
  match a.slot? g.id with
  | some offset => (a, .ok { offset })
  | none =>
    if g.isExternal then (a, .error (.externalGlobal g.name))
    else if !hasSlotSize t g then (a, .error (.crash .sum))
    else
      let size := slotSize t g
      let align := slotAlign t g
      let start := Word.alignTo a.size align
      if ArenaOffset.capacity < start + size then (a, .error (.arenaExhausted g.name))
      else
        match ArenaOffset.ofNat? start with
        | none => (a, .error (.arenaExhausted g.name))
        | some offset =>
          let plan := initialPlan t g
          let written := (a.grow (start + size)).write start plan
          match plan.fault with
          | some e => (written.truncate a.size, .error e)
          | none =>
            let event := .slotAllocated g.name offset.tagged size align
            ({ written with slots := written.slots.insert g.id offset },
              .ok { offset, event := some event })

end Arena

end CodeEmission
