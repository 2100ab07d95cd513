import CodeEmission.Error
import CodeEmission.Plan

/-! # Writing constants

The stores that put a constant into a window of memory. Parts of an aggregate are written into
windows of their own, at multiples of the element size or at the field offsets.
-/

namespace CodeEmission.Constant

/-- The plan of a part of `length` bytes at `offset`, if it fits into `available` bytes. A part that
does not fit is not planned, because it may be too long to be written down at all. -/
@[macro_inline] def within (available offset length : Nat) (part : Plan EmitError) : Plan EmitError :=
  if offset + length ≤ available then part.shift offset
  else .fail (.malformedConstant (.tooLarge length offset available))

def scalar (available : Nat) (bytes : List UInt8) : Plan EmitError :=
  within available 0 bytes.length (.store 0 bytes)

def zeros (available length : Nat) : Plan EmitError :=
  if length ≤ available then .store 0 (List.replicate length 0)
  else .fail (.malformedConstant (.tooLarge length 0 available))

mutual

/-- The stores of a constant into a window of `available` bytes. -/
def plan (t : Target) (available : Nat) : Constant → Plan EmitError
  | .int type value =>
    if type.isInteger then
      let value := if type = .i1 then value.toUInt64 &&& 1 else value.toUInt64
      scalar available (Bytes.littleEndian (min (t.storeSize type) 8) value.toNat)
    else .fail (.malformedConstant (.notAnInteger type))
  | .f32 bits => scalar available (Bytes.littleEndian 4 bits.toNat)
  | .f64 bits => scalar available (Bytes.littleEndian 8 bits.toNat)
  | .null => zeros available t.pointerSize
  | .zero type => zeros available (t.storeSize type)
  | .array elem elems => planElements t available elem (t.allocSize elem) 0 elems
  | .struct fields => planFields t available (t.fieldOffsets (types fields)) fields
  | .bytes raw => scalar available raw

def planElements (t : Target) (available : Nat) (elem : ValueType) (stride index : Nat) :
    List Constant → Plan EmitError
  | [] => .done
  | e :: es =>
    if e.type = elem then
      (within available (Word.mulSat index stride) stride (plan t stride e)).andThen
        (planElements t available elem stride (index + 1) es)
    else .fail (.malformedConstant (.elementType index elem e.type))

def planFields (t : Target) (available : Nat) : List Nat → List Constant → Plan EmitError
  | offset :: offsets, f :: fs =>
    let size := t.allocSize f.type
    (within available offset size (plan t size f)).andThen (planFields t available offsets fs)
  | _, _ => .done

end

/-- Whether all sizes that writing a constant depends on are words. An integer has a size of its own
only if its type is one of integers. -/
def isSized (t : Target) : Constant → Bool
  | .int .. => true
  | c => t.hasSize c.type

def write (t : Target) (available : Nat) (c : Constant) : Plan EmitError :=
  if c.isSized t then c.plan t available else .fail (.crash .sum)

end CodeEmission.Constant
