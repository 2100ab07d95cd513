import CodeEmission.Constant
import CodeEmission.Data.Number
import CodeEmission.Data.ValueType

/-! # Constants as data

Every constant is an alternative; the null pointer has no body.
-/

namespace CodeEmission.Constant

open Data

mutual

def toData : Constant → Data
  | .int type value =>
    .object [("int", .object [("ty", type.toData), ("value", .int value.toInt)])]
  | .f32 bits => .object [("f32", .float32 bits)]
  | .f64 bits => .object [("f64", .float64 bits)]
  | .null => .string "null"
  | .zero type => .object [("zero", type.toData)]
  | .array elem elems =>
    .object [("array", .object [("elem", elem.toData), ("elems", .array (toDataAll elems))])]
  | .struct fields => .object [("struct", .array (toDataAll fields))]
  | .bytes raw => .object [("bytes", .array (raw.map fun b => .nat b.toNat))]

def toDataAll : List Constant → List Data
  | [] => []
  | c :: cs => toData c :: toDataAll cs

end

def level? (d : Dialect) (inner : Data → Option Constant) (data : Data) : Option Constant :=
  match data.alternative? with
  | some ("int", some body) => do
    pair? .int (required (ValueType.ofData? d)) (required int64?)
      (← bodySlots? d ["ty", "value"] body)
  | some ("f32", some body) => body.float32?.map .f32
  | some ("f64", some body) => body.float64?.map .f64
  | some ("null", body) => if isEmptyBody d body then some .null else none
  | some ("zero", some body) => (ValueType.ofData? d body).map .zero
  | some ("array", some body) => do
    pair? .array (required (ValueType.ofData? d)) (required (list? inner))
      (← bodySlots? d ["elem", "elems"] body)
  | some ("struct", some body) => (list? inner body).map .struct
  | some ("bytes", some body) => (list? byte? body).map .bytes
  | _ => none

def ofDataWithin? (d : Dialect) : (depth : Nat) → Data → Option Constant
  | 0, _ => none
  | depth + 1, data => level? d (ofDataWithin? d depth) data

def ofData? (d : Dialect) (data : Data) : Option Constant := ofDataWithin? d data.depth data

end CodeEmission.Constant
