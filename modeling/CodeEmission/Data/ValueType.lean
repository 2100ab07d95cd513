import CodeEmission.Data.Shape
import CodeEmission.ValueType

/-! # Types as data

Scalars are named; arrays and structures are alternatives with a body.
-/

namespace CodeEmission.ValueType

open Data

def ofName? : String → Option ValueType
  | "i1" => some .i1
  | "i8" => some .i8
  | "i16" => some .i16
  | "i32" => some .i32
  | "i64" => some .i64
  | "f32" => some .f32
  | "f64" => some .f64
  | "ptr" => some .ptr
  | _ => none

mutual

def toData : ValueType → Data
  | .i1 => .string "i1"
  | .i8 => .string "i8"
  | .i16 => .string "i16"
  | .i32 => .string "i32"
  | .i64 => .string "i64"
  | .f32 => .string "f32"
  | .f64 => .string "f64"
  | .ptr => .string "ptr"
  | .array elem len =>
    .object [("array", .object [("elem", toData elem), ("len", .nat len.toNat)])]
  | .struct fields => .object [("struct", .object [("fields", .array (toDataAll fields))])]

def toDataAll : List ValueType → List Data
  | [] => []
  | t :: ts => toData t :: toDataAll ts

end

def level? (d : Dialect) (inner : Data → Option ValueType) (data : Data) : Option ValueType :=
  match data.alternative? with
  | some ("array", some body) => do
    pair? .array (required inner) (required word64?) (← bodySlots? d ["elem", "len"] body)
  | some ("struct", some body) => do
    single? .struct (required (list? inner)) (← bodySlots? d ["fields"] body)
  | some (name, body) => if isEmptyBody d body then ofName? name else none
  | none => none

def ofDataWithin? (d : Dialect) : (depth : Nat) → Data → Option ValueType
  | 0, _ => none
  | depth + 1, data => level? d (ofDataWithin? d depth) data

def ofData? (d : Dialect) (data : Data) : Option ValueType := ofDataWithin? d data.depth data

end CodeEmission.ValueType
