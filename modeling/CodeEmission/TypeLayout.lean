import CodeEmission.Constant

/-! # Sizes and alignments of types

A target fixes the size of a pointer; scalars are aligned to their size and aggregates to their most
aligned part. Sizes of arrays stop at the largest word. The end of a field does not: a structure with a
field that ends after the largest word has no size.
-/

namespace CodeEmission

inductive JumpTableKind where
  | blockAddress
  | gpRel64BlockAddress
  | gpRel32BlockAddress
  /-- 32-bit differences between block and table. -/
  | labelDifference32
  /-- Tables that the target folds into the instructions. -/
  | inline
  | custom32
  deriving DecidableEq, Repr, Inhabited

structure Target where
  pointerSize : Nat := 8
  /-- Aggregates of 16 bytes or more are placed at multiples of 16 where there is a choice. -/
  widensAggregates : Bool := true
  /-- The target lays out jump tables on its own. -/
  customJumpTables : Bool := false
  deriving DecidableEq, Repr, Inhabited

namespace Target

def x86_64 : Target := {}

def scalarSize (t : Target) : ValueType → Nat
  | .i1 | .i8 => 1
  | .i16 => 2
  | .i32 | .f32 => 4
  | .i64 | .f64 => 8
  | .ptr => t.pointerSize
  | .array .. | .struct .. => 0

mutual

def abiAlign (t : Target) : ValueType → Nat
  | .array elem _ => abiAlign t elem
  | .struct fields => maxAlign t fields
  | s => max (t.scalarSize s) 1

def maxAlign (t : Target) : List ValueType → Nat
  | [] => 1
  | f :: fs => max (abiAlign t f) (maxAlign t fs)

end

mutual

/-- The number of bytes written when a value of the type is stored, with the ends of fields as they
are, words or not. -/
def storeSize (t : Target) : ValueType → Nat
  | .array elem len =>
    Word.mulSat (Word.alignTo (storeSize t elem) (t.abiAlign elem)) len.toNat
  | .struct fields => Word.alignTo (fieldsEnd t 0 fields) (t.maxAlign fields)
  | s => t.scalarSize s

def fieldsEnd (t : Target) (offset : Nat) : List ValueType → Nat
  | [] => offset
  | f :: fs =>
    let start := Word.alignTo offset (t.abiAlign f)
    fieldsEnd t (start + Word.alignTo (storeSize t f) (t.abiAlign f)) fs

end

mutual

/-- The size of a type as it is computed, if no field ends after the largest word. -/
def storeSize? (t : Target) : ValueType → Option Nat
  | .array elem len => do
    let size ← storeSize? t elem
    return Word.mulSat (Word.alignTo size (t.abiAlign elem)) len.toNat
  | .struct fields => do
    let last ← fieldsEnd? t 0 fields
    return Word.alignTo last (t.maxAlign fields)
  | s => some (t.scalarSize s)

def fieldsEnd? (t : Target) (offset : Nat) : List ValueType → Option Nat
  | [] => some offset
  | f :: fs => do
    let size ← storeSize? t f
    let start := Word.alignTo offset (t.abiAlign f)
    let next ← Word.sum? start (Word.alignTo size (t.abiAlign f))
    fieldsEnd? t next fs

end

def hasSize (t : Target) (type : ValueType) : Bool := (t.storeSize? type).isSome

def allocSize (t : Target) (type : ValueType) : Nat :=
  Word.alignTo (t.storeSize type) (t.abiAlign type)

def fieldOffsetsFrom (t : Target) (offset : Nat) : List ValueType → List Nat
  | [] => []
  | f :: fs =>
    let start := Word.alignTo offset (t.abiAlign f)
    start :: fieldOffsetsFrom t (start + t.allocSize f) fs

def fieldOffsets (t : Target) (fields : List ValueType) : List Nat := t.fieldOffsetsFrom 0 fields

def preferredAlign (t : Target) (type : ValueType) : Nat :=
  match type with
  | .array .. | .struct .. =>
    if t.widensAggregates && 16 ≤ t.allocSize type then max (t.abiAlign type) 16
    else t.abiAlign type
  | _ => t.abiAlign type

def jumpTableEntrySize (t : Target) : JumpTableKind → Nat
  | .blockAddress => t.pointerSize
  | .gpRel64BlockAddress => 8
  | .gpRel32BlockAddress | .labelDifference32 | .custom32 => 4
  | .inline => 0

def jumpTableEntryAlign (t : Target) (kind : JumpTableKind) : Nat :=
  max (t.jumpTableEntrySize kind) 1

/-- The 32-bit entry for a block in a table at `table`: the low half of the difference. -/
def relativeTableEntry (block table : UInt64) : UInt32 := (block - table).toUInt32

end Target

end CodeEmission
