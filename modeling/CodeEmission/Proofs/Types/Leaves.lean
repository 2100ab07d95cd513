import Mathlib.Algebra.Group.Int.Defs
import CodeEmission.Proofs.Types.Saturation

/-! # The leaves of a constant

A constant is a tree of arrays and structures, and what is stored of it are its leaves: numbers, runs
of zeros and raw bytes. Where a leaf is stored follows from the indices on the way to it, and as long
as all sizes are words the leaves stand one after another.
-/

namespace CodeEmission

structure Leaf where
  path : List Nat
  store : Store
  deriving DecidableEq

namespace Leaf

def ending (l : Leaf) : Nat := l.store.offset + l.store.bytes.length

/-- A leaf of a part as one of the whole, in which the part has an index and starts at `start`. -/
def under (index start : Nat) (l : Leaf) : Leaf :=
  ⟨index :: l.path, ⟨start + l.store.offset, l.store.bytes⟩⟩

def Consecutive : (start : Nat) → List Leaf → (last : Nat) → Prop
  | start, [], last => start ≤ last
  | start, l :: ls, last => start ≤ l.store.offset ∧ Consecutive l.ending ls last

namespace Consecutive

variable {ls ls' : List Leaf} {start middle last : Nat} {l : Leaf}

theorem le_last (h : Consecutive start ls last) : start ≤ last := by
  induction ls generalizing start with
  | nil => exact h
  | cons l ls ih => exact h.1.trans ((Nat.le_add_right _ _).trans (ih h.2))

theorem append (h : Consecutive start ls middle) (h' : Consecutive middle ls' last) :
    Consecutive start (ls ++ ls') last := by
  induction ls generalizing start with
  | nil =>
    cases ls' with
    | nil => exact le_trans h h'
    | cons l ls' => exact ⟨le_trans h h'.1, h'.2⟩
  | cons l ls ih => exact ⟨h.1, ih h.2⟩

theorem mono {start' last' : Nat} (h : Consecutive start ls last) (hstart : start' ≤ start)
    (hlast : last ≤ last') : Consecutive start' ls last' := by
  induction ls generalizing start start' with
  | nil => exact hstart.trans (le_trans h hlast)
  | cons l ls ih => exact ⟨hstart.trans h.1, ih h.2 (le_refl _)⟩

theorem map_under (h : Consecutive start ls last) (index offset : Nat) :
    Consecutive (offset + start) (ls.map (under index offset)) (offset + last) := by
  induction ls generalizing start with
  | nil => exact Nat.add_le_add_left h offset
  | cons l ls ih =>
    refine ⟨Nat.add_le_add_left h.1 offset, ?_⟩
    have hrest := ih h.2
    rwa [ending, ← Nat.add_assoc] at hrest

theorem bounds (h : Consecutive start ls last) (hl : l ∈ ls) :
    start ≤ l.store.offset ∧ l.ending ≤ last := by
  induction ls generalizing start with
  | nil => cases hl
  | cons first ls ih =>
    rcases List.mem_cons.1 hl with rfl | hl
    · exact ⟨h.1, le_last h.2⟩
    · obtain ⟨hstart, hlast⟩ := ih h.2 hl
      exact ⟨h.1.trans ((Nat.le_add_right _ _).trans hstart), hlast⟩

/-- Two leaves with different paths have no byte in common. -/
theorem apart (h : Consecutive start ls last) (hl : l ∈ ls) {l' : Leaf} (hl' : l' ∈ ls)
    (hne : l.path ≠ l'.path) : l.ending ≤ l'.store.offset ∨ l'.ending ≤ l.store.offset := by
  induction ls generalizing start with
  | nil => cases hl
  | cons first ls ih =>
    rcases List.mem_cons.1 hl with rfl | hrest <;> rcases List.mem_cons.1 hl' with rfl | hrest'
    · exact absurd rfl hne
    · exact .inl (bounds h.2 hrest').1
    · exact .inr (bounds h.2 hrest).1
    · exact ih h.2 hrest hrest'

end Consecutive

end Leaf

namespace Constant

open Leaf

variable {t : Target} {c e f : Constant} {elem : ValueType} {elems fields : List Constant}

def integerWidth : ValueType → Nat
  | .i1 => 1
  | .i8 => 8
  | .i16 => 16
  | .i32 => 32
  | .i64 => 64
  | _ => 0

def integerBytes (type : ValueType) (value : Int64) : List UInt8 :=
  Bytes.littleEndian ((integerWidth type + 7) / 8) (value.toInt % 2 ^ integerWidth type).toNat

mutual

/-- Integers have integer types, and the elements of an array have the type that it declares. -/
def WellTyped : Constant → Prop
  | .int type _ => type.isInteger = true
  | .array elem elems => ElementsWellTyped elem elems
  | .struct fields => FieldsWellTyped fields
  | _ => True

def ElementsWellTyped (elem : ValueType) : List Constant → Prop
  | [] => True
  | e :: es => e.type = elem ∧ WellTyped e ∧ ElementsWellTyped elem es

def FieldsWellTyped : List Constant → Prop
  | [] => True
  | f :: fs => WellTyped f ∧ FieldsWellTyped fs

end

mutual

/-- Arrays and byte strings are no longer than an array can be in memory. -/
def LengthsFit : Constant → Prop
  | .array _ elems => elems.length < Word.modulus ∧ AllLengthsFit elems
  | .struct fields => AllLengthsFit fields
  | .bytes raw => raw.length < Word.modulus
  | _ => True

def AllLengthsFit : List Constant → Prop
  | [] => True
  | c :: cs => LengthsFit c ∧ AllLengthsFit cs

end

/-- A leaf of a constant with the path to it, the offset that the path leads to, and its bytes.
Elements stand at multiples of their size, and fields at the offsets of their structure. -/
inductive LeafAt (t : Target) : Constant → (path : List Nat) → (offset : Nat) → List UInt8 → Prop
  | int (type : ValueType) (value : Int64) : LeafAt t (.int type value) [] 0 (integerBytes type value)
  | f32 (bits : UInt32) : LeafAt t (.f32 bits) [] 0 (Bytes.littleEndian 4 bits.toNat)
  | f64 (bits : UInt64) : LeafAt t (.f64 bits) [] 0 (Bytes.littleEndian 8 bits.toNat)
  | null : LeafAt t .null [] 0 (List.replicate t.pointerSize 0)
  | zero (type : ValueType) : LeafAt t (.zero type) [] 0 (List.replicate (t.storeSize type) 0)
  | bytes (raw : List UInt8) : LeafAt t (.bytes raw) [] 0 raw
  | element {elem : ValueType} {elems : List Constant} {i offset : Nat} {e : Constant}
      {path : List Nat} {bytes : List UInt8} (found : elems[i]? = some e)
      (leaf : LeafAt t e path offset bytes) :
      LeafAt t (.array elem elems) (i :: path) (i * t.allocSize elem + offset) bytes
  | field {fields : List Constant} {i start offset : Nat} {f : Constant} {path : List Nat}
      {bytes : List UInt8} (found : fields[i]? = some f)
      (place : (t.fieldOffsets (types fields))[i]? = some start)
      (leaf : LeafAt t f path offset bytes) :
      LeafAt t (.struct fields) (i :: path) (start + offset) bytes

theorem LeafAt.unique {path : List Nat} {offset offset' : Nat} {bytes bytes' : List UInt8}
    (h : LeafAt t c path offset bytes) (h' : LeafAt t c path offset' bytes') :
    offset = offset' ∧ bytes = bytes' := by
  induction h generalizing offset' bytes' with
  | int | f32 | f64 | null | zero | bytes =>
    cases h'
    exact ⟨rfl, rfl⟩
  | element found leaf ih =>
    cases h' with
    | element found' leaf' =>
      cases found.symm.trans found'
      obtain ⟨rfl, rfl⟩ := ih leaf'
      exact ⟨rfl, rfl⟩
  | field found place leaf ih =>
    cases h' with
    | field found' place' leaf' =>
      cases found.symm.trans found'
      cases place.symm.trans place'
      obtain ⟨rfl, rfl⟩ := ih leaf'
      exact ⟨rfl, rfl⟩

mutual

def leaves (t : Target) : Constant → List Leaf
  | .int type value => [⟨[], 0, integerBytes type value⟩]
  | .f32 bits => [⟨[], 0, Bytes.littleEndian 4 bits.toNat⟩]
  | .f64 bits => [⟨[], 0, Bytes.littleEndian 8 bits.toNat⟩]
  | .null => [⟨[], 0, List.replicate t.pointerSize 0⟩]
  | .zero type => [⟨[], 0, List.replicate (t.storeSize type) 0⟩]
  | .array elem elems => elementLeaves t (t.allocSize elem) 0 elems
  | .struct fields => fieldLeaves t 0 (t.fieldOffsets (types fields)) fields
  | .bytes raw => [⟨[], 0, raw⟩]

def elementLeaves (t : Target) (stride index : Nat) : List Constant → List Leaf
  | [] => []
  | e :: es =>
    (leaves t e).map (under index (index * stride)) ++ elementLeaves t stride (index + 1) es

def fieldLeaves (t : Target) (index : Nat) : List Nat → List Constant → List Leaf
  | offset :: offsets, f :: fs =>
    (leaves t f).map (under index offset) ++ fieldLeaves t (index + 1) offsets fs
  | _, _ => []

end

theorem mem_elementLeaves {stride index : Nat} {es : List Constant} {l : Leaf} :
    l ∈ elementLeaves t stride index es ↔ ∃ i e l', es[i]? = some e ∧ l' ∈ leaves t e ∧
      l = l'.under (index + i) ((index + i) * stride) := by
  induction es generalizing index with
  | nil => simp [elementLeaves]
  | cons e es ih =>
    rw [elementLeaves, List.mem_append, List.mem_map, ih]
    constructor
    · rintro (⟨l', hl', rfl⟩ | ⟨i, e', l', hi, hl', rfl⟩)
      · exact ⟨0, e, l', rfl, hl', rfl⟩
      · refine ⟨i + 1, e', l', hi, hl', ?_⟩
        rw [Nat.add_right_comm, Nat.add_assoc]
    · rintro ⟨i, e', l', hi, hl', rfl⟩
      cases i with
      | zero =>
        cases hi
        exact .inl ⟨l', hl', rfl⟩
      | succ i =>
        refine .inr ⟨i, e', l', hi, hl', ?_⟩
        rw [Nat.add_right_comm, Nat.add_assoc]

theorem mem_fieldLeaves {index : Nat} {offsets : List Nat} {fs : List Constant} {l : Leaf} :
    l ∈ fieldLeaves t index offsets fs ↔ ∃ i f start l', fs[i]? = some f ∧
      offsets[i]? = some start ∧ l' ∈ leaves t f ∧ l = l'.under (index + i) start := by
  induction fs generalizing index offsets with
  | nil => simp [fieldLeaves]
  | cons f fs ih =>
    cases offsets with
    | nil => simp [fieldLeaves]
    | cons offset offsets =>
      rw [fieldLeaves, List.mem_append, List.mem_map, ih]
      constructor
      · rintro (⟨l', hl', rfl⟩ | ⟨i, f', start, l', hi, hs, hl', rfl⟩)
        · exact ⟨0, f, offset, l', rfl, rfl, hl', rfl⟩
        · refine ⟨i + 1, f', start, l', hi, hs, hl', ?_⟩
          rw [Nat.add_right_comm, Nat.add_assoc]
      · rintro ⟨i, f', start, l', hi, hs, hl', rfl⟩
        cases i with
        | zero =>
          cases hi
          cases hs
          exact .inl ⟨l', hl', rfl⟩
        | succ i =>
          refine .inr ⟨i, f', start, l', hi, hs, hl', ?_⟩
          rw [Nat.add_right_comm, Nat.add_assoc]

theorem mem_leaves_of_leafAt {path : List Nat} {offset : Nat} {bytes : List UInt8}
    (h : LeafAt t c path offset bytes) : ⟨path, offset, bytes⟩ ∈ leaves t c := by
  induction h with
  | int | f32 | f64 | null | zero | bytes =>
    rw [leaves]
    exact List.mem_singleton_self _
  | @element elem elems i offset e path bytes found leaf ih =>
    rw [leaves, mem_elementLeaves]
    refine ⟨i, e, _, found, ih, ?_⟩
    rw [Nat.zero_add]
    rfl
  | @field fields i start offset f path bytes found place leaf ih =>
    rw [leaves, mem_fieldLeaves]
    refine ⟨i, f, start, _, found, place, ih, ?_⟩
    rw [Nat.zero_add]
    rfl

mutual

theorem leafAt_of_mem_leaves (t : Target) : (c : Constant) → ∀ l ∈ leaves t c,
    LeafAt t c l.path l.store.offset l.store.bytes
  | .int type value, l, hl => by
    rw [leaves, List.mem_singleton] at hl
    rw [hl]
    exact .int type value
  | .f32 bits, l, hl => by
    rw [leaves, List.mem_singleton] at hl
    rw [hl]
    exact .f32 bits
  | .f64 bits, l, hl => by
    rw [leaves, List.mem_singleton] at hl
    rw [hl]
    exact .f64 bits
  | .null, l, hl => by
    rw [leaves, List.mem_singleton] at hl
    rw [hl]
    exact .null
  | .zero type, l, hl => by
    rw [leaves, List.mem_singleton] at hl
    rw [hl]
    exact .zero type
  | .bytes raw, l, hl => by
    rw [leaves, List.mem_singleton] at hl
    rw [hl]
    exact .bytes raw
  | .array elem elems, l, hl => by
    rw [leaves, mem_elementLeaves] at hl
    obtain ⟨i, e, l', hi, hl', rfl⟩ := hl
    rw [Nat.zero_add]
    exact .element hi (leafAt_of_mem_part t elems e (List.mem_of_getElem? hi) l' hl')
  | .struct fields, l, hl => by
    rw [leaves, mem_fieldLeaves] at hl
    obtain ⟨i, f, start, l', hi, hs, hl', rfl⟩ := hl
    rw [Nat.zero_add]
    exact .field hi hs (leafAt_of_mem_part t fields f (List.mem_of_getElem? hi) l' hl')

theorem leafAt_of_mem_part (t : Target) : (parts : List Constant) → ∀ c ∈ parts,
    ∀ l ∈ leaves t c, LeafAt t c l.path l.store.offset l.store.bytes
  | [], _, hc => nomatch hc
  | part :: parts, c, hc => by
    rcases List.mem_cons.1 hc with heq | hrest
    · rw [heq]
      exact leafAt_of_mem_leaves t part
    · exact leafAt_of_mem_part t parts c hrest

end

/-- The leaves in order are the leaves that paths lead to. -/
theorem leafAt_iff {path : List Nat} {offset : Nat} {bytes : List UInt8} :
    LeafAt t c path offset bytes ↔ ⟨path, offset, bytes⟩ ∈ leaves t c :=
  ⟨mem_leaves_of_leafAt, leafAt_of_mem_leaves t c _⟩

end Constant

end CodeEmission
