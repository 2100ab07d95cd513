import CodeEmission.ValueType

/-! # Constants

Values whose bit pattern can be written into memory. Floating-point constants are held by their bit
patterns, so equality of constants is equality of what they store.
-/

namespace CodeEmission

inductive Constant where
  /-- An integer of the given type, cut to the width of the type when stored. -/
  | int (type : ValueType) (value : Int64)
  | f32 (bits : UInt32)
  | f64 (bits : UInt64)
  | null
  | zero (type : ValueType)
  | array (elem : ValueType) (elems : List Constant)
  | struct (fields : List Constant)
  | bytes (raw : List UInt8)
  deriving Repr, Inhabited

namespace Constant

mutual

def type : Constant → ValueType
  | .int t _ => t
  | .f32 _ => .f32
  | .f64 _ => .f64
  | .null => .ptr
  | .zero t => t
  | .array elem elems => .array elem (UInt64.ofNat elems.length)
  | .struct fields => .struct (types fields)
  | .bytes bs => .array .i8 (UInt64.ofNat bs.length)

def types : List Constant → List ValueType
  | [] => []
  | c :: cs => type c :: types cs

end

end Constant

end CodeEmission
