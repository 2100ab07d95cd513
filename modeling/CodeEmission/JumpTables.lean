import CodeEmission.CodeBuffer
import CodeEmission.Locations
import CodeEmission.MachineFunction

/-! # Jump tables

The slots of a function's jump tables are reserved before its code and filled when the function is
resolved, because only then all blocks have their places. Tables stand one after another; the offset
of a table is the number of slots before it times the size of a slot.
-/

namespace CodeEmission

structure JumpTableLayout where
  kind : JumpTableKind
  entrySize : Nat
  /-- The offset of the first slot of the first table. -/
  base : Nat
  tables : List (List BlockId)
  deriving DecidableEq, Repr, Inhabited

namespace JumpTableLayout

def numEntries (l : JumpTableLayout) : Nat := l.tables.flatten.length

def slotsBefore (l : JumpTableLayout) (index : Nat) : Nat :=
  (l.tables.take index).flatten.length

def slotOffset (l : JumpTableLayout) (slots : Nat) : Except EmitError Nat :=
  match Word.product? slots l.entrySize with
  | none => .error (.crash .product)
  | some length =>
    match Word.sum? l.base length with
    | none => .error (.crash .sum)
    | some offset => .ok offset

theorem slotOffset_eq_ok {l : JumpTableLayout} {slots offset : Nat} : l.slotOffset slots = .ok offset ↔
    slots * l.entrySize ≤ Word.largest ∧ l.base + slots * l.entrySize ≤ Word.largest ∧
      l.base + slots * l.entrySize = offset := by
  unfold slotOffset Word.product?
  by_cases hproduct : slots * l.entrySize ≤ Word.largest
  · rw [if_pos hproduct]
    by_cases hsum : l.base + slots * l.entrySize ≤ Word.largest
    · simp [Word.sum?, hproduct, hsum]
    · simp [Word.sum?, hsum]
  · simp [hproduct]

def tableOffset (l : JumpTableLayout) (index : Nat) : Except EmitError Nat :=
  if index < l.tables.length then l.slotOffset (l.slotsBefore index)
  else .error (.jumpTableIndex index l.tables.length)

/-- Reserves the slots of some jump tables. There are none if no table is described, if the target
lays them out on its own or folds them into the code, or if the buffer is too small. -/
def reserve (t : Target) (info : Option JumpTableInfo) (b : CodeBuffer) :
    Except EmitError (CodeBuffer × Option JumpTableLayout) :=
  match info with
  | none => .ok (b, none)
  | some info =>
    if info.tables.isEmpty || info.kind == .inline || t.customJumpTables then .ok (b, none)
    else if info.kind = .gpRel64BlockAddress then .error (.unsupportedJumpTable info.kind)
    else
      let entrySize := t.jumpTableEntrySize info.kind
      match Word.product? info.numEntries entrySize with
      | none => .error (.crash .product)
      | some size =>
        let align := t.jumpTableEntryAlign info.kind
        let layout (base : Nat) : JumpTableLayout :=
          { kind := info.kind, entrySize, base, tables := info.tables.map (·.targets) }
        if size = 0 then .ok (b, some (layout (Word.alignTo b.offset align)))
        else
          let (b, base) := b.reserve size align
          .ok (b, base.map layout)

structure Owner where
  name : String
  address : UInt64
  locations : Locations

namespace Owner

def addressAt (o : Owner) (offset : Nat) : Except EmitError UInt64 :=
  match Word.address? o.address offset with
  | some address => .ok address
  | none => .error (.crash .sum)

theorem addressAt_eq_ok {o : Owner} {offset : Nat} {address : UInt64} :
    o.addressAt offset = .ok address ↔
      o.address.toNat + offset ≤ Word.largest ∧ o.address + UInt64.ofNat offset = address := by
  rw [← Word.address?_eq_some_iff, addressAt]
  cases Word.address? o.address offset <;> simp

def blockAddress (o : Owner) (block : BlockId) : Except EmitError UInt64 :=
  match o.locations.block? block with
  | some offset => o.addressAt offset
  | none => .error (.blockNotEmitted o.name block)

end Owner

def slot (limit offset : Nat) (bytes : List UInt8) : Plan EmitError :=
  if Word.largest < offset + bytes.length then .fail (.crash .sum)
  else if offset + bytes.length ≤ limit then .store offset bytes
  else .fail (.relocationOutOfBounds offset)

/-- The stores of absolute entries of `width` bytes from the slot at `offset` on. An address has no
more than eight bytes. -/
def planAbsolute (o : Owner) (limit width : Nat) : (offset : Nat) → List BlockId → Plan EmitError
  | _, [] => .done
  | offset, block :: blocks =>
    match o.blockAddress block with
    | .error e => .fail e
    | .ok address =>
      if 8 < width then .fail (.crash (.slice width 8))
      else
        let bytes := (Bytes.littleEndian 8 address.toNat).take width
        (slot limit offset bytes).andThen (planAbsolute o limit width (offset + width) blocks)

/-- The stores of the relative entries of a table, from the one with the given index on. -/
def planRelative (o : Owner) (limit tableOffset : Nat) (tableAddress : UInt64) :
    (index : Nat) → List BlockId → Plan EmitError
  | _, [] => .done
  | index, block :: blocks =>
    match o.blockAddress block with
    | .error e => .fail e
    | .ok address =>
      let entry := Target.relativeTableEntry address tableAddress
      let bytes := Bytes.littleEndian 4 entry.toNat
      (slot limit (tableOffset + index * 4) bytes).andThen
        (planRelative o limit tableOffset tableAddress (index + 1) blocks)

def planTable (o : Owner) (l : JumpTableLayout) (limit slots : Nat) (table : List BlockId) :
    Plan EmitError :=
  match l.slotOffset slots with
  | .error e => .fail e
  | .ok offset =>
    match o.addressAt offset with
    | .error e => .fail e
    | .ok address => planRelative o limit offset address 0 table

def planTables (o : Owner) (l : JumpTableLayout) (limit : Nat) :
    (slots : Nat) → List (List BlockId) → Plan EmitError
  | _, [] => .done
  | slots, table :: tables =>
    (planTable o l limit slots table).andThen
      (planTables o l limit (slots + table.length) tables)

def plan (t : Target) (l : JumpTableLayout) (o : Owner) (limit : Nat) : Plan EmitError :=
  if t.customJumpTables then .done
  else
    match l.kind with
    | .inline => .done
    | .gpRel64BlockAddress => .fail (.unsupportedJumpTable l.kind)
    | .blockAddress =>
      if l.entrySize = t.pointerSize then
        planAbsolute o limit t.pointerSize l.base l.tables.flatten
      else .fail (.jumpTableEntrySize t.pointerSize l.entrySize)
    | .gpRel32BlockAddress | .labelDifference32 | .custom32 =>
      planTables o l limit 0 l.tables

end JumpTableLayout

structure PoolLayout where
  constants : List Nat := []
  jumpTables : Option JumpTableLayout := none
  deriving DecidableEq, Repr, Inhabited

namespace PoolLayout

def constantOffset (l : PoolLayout) (index : Nat) : Except EmitError Nat :=
  match l.constants[index]? with
  | some offset => .ok offset
  | none => .error (.constantPoolIndex index l.constants.length)

def jumpTableOffset (l : PoolLayout) (index : Nat) : Except EmitError Nat :=
  match l.jumpTables with
  | some tables => tables.tableOffset index
  | none => .error (.jumpTableIndex index 0)

end PoolLayout

end CodeEmission
