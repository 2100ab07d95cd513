import CodeEmission.Word

/-! # Value types

The types of globals, pool entries and constants: scalars, arrays and structures.
-/

namespace CodeEmission

inductive ValueType where
  | i1
  | i8
  | i16
  | i32
  | i64
  | f32
  | f64
  | ptr
  | array (elem : ValueType) (len : UInt64)
  | struct (fields : List ValueType)
  deriving Repr, Inhabited

namespace ValueType

def isInteger : ValueType → Bool
  | .i1 | .i8 | .i16 | .i32 | .i64 => true
  | _ => false

mutual

def same : ValueType → ValueType → Bool
  | .i1, .i1 | .i8, .i8 | .i16, .i16 | .i32, .i32 | .i64, .i64 => true
  | .f32, .f32 | .f64, .f64 | .ptr, .ptr => true
  | .array a n, .array b m => same a b && n == m
  | .struct as, .struct bs => sameAll as bs
  | _, _ => false

def sameAll : List ValueType → List ValueType → Bool
  | [], [] => true
  | a :: as, b :: bs => same a b && sameAll as bs
  | _, _ => false

end

mutual

theorem eq_of_same : (a b : ValueType) → same a b = true → a = b
  | .array a n, .array b m, h => by
    simp only [same, Bool.and_eq_true, beq_iff_eq] at h
    rw [eq_of_same a b h.1, h.2]
  | .struct as, .struct bs, h => by
    rw [eq_of_sameAll as bs (by simpa [same] using h)]
  | .array _ _, .i1, h | .array _ _, .i8, h | .array _ _, .i16, h | .array _ _, .i32, h
  | .array _ _, .i64, h | .array _ _, .f32, h | .array _ _, .f64, h | .array _ _, .ptr, h
  | .array _ _, .struct _, h => by simp [same] at h
  | .struct _, .i1, h | .struct _, .i8, h | .struct _, .i16, h | .struct _, .i32, h
  | .struct _, .i64, h | .struct _, .f32, h | .struct _, .f64, h | .struct _, .ptr, h
  | .struct _, .array _ _, h => by simp [same] at h
  | .i1, b, h | .i8, b, h | .i16, b, h | .i32, b, h | .i64, b, h | .f32, b, h | .f64, b, h
  | .ptr, b, h => by cases b <;> simp_all [same]

theorem eq_of_sameAll : (as bs : List ValueType) → sameAll as bs = true → as = bs
  | [], [], _ => rfl
  | [], _ :: _, h => by simp [sameAll] at h
  | _ :: _, [], h => by simp [sameAll] at h
  | a :: as, b :: bs, h => by
    simp only [sameAll, Bool.and_eq_true] at h
    rw [eq_of_same a b h.1, eq_of_sameAll as bs h.2]

end

mutual

theorem same_self : (a : ValueType) → same a a = true
  | .array a n => by simp [same, same_self a]
  | .struct as => by simp [same, sameAll_self as]
  | .i1 | .i8 | .i16 | .i32 | .i64 | .f32 | .f64 | .ptr => by simp [same]

theorem sameAll_self : (as : List ValueType) → sameAll as as = true
  | [] => rfl
  | a :: as => by simp [sameAll, same_self a, sameAll_self as]

end

instance : DecidableEq ValueType := fun a b =>
  decidable_of_iff (same a b = true) ⟨eq_of_same a b, fun h => h ▸ same_self a⟩

mutual

/-- The structural form of a type: constructor names, and braces around the parts of an
aggregate. -/
def describe : ValueType → String
  | .i1 => "I1"
  | .i8 => "I8"
  | .i16 => "I16"
  | .i32 => "I32"
  | .i64 => "I64"
  | .f32 => "F32"
  | .f64 => "F64"
  | .ptr => "Ptr"
  | .array elem len =>
    "Array \x7b elem: " ++ describe elem ++ ", len: " ++ Nat.repr len.toNat ++ " \x7d"
  | .struct fields => "Struct \x7b fields: [" ++ ", ".intercalate (describeAll fields) ++ "] \x7d"

def describeAll : List ValueType → List String
  | [] => []
  | t :: ts => describe t :: describeAll ts

end

end ValueType

end CodeEmission
