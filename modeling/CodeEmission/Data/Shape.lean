import CodeEmission.Data.Basic
import CodeEmission.Id

/-! # Shapes of data

How records and alternatives are read from data. A record is an object with named fields, or an array
that lists the fields in order; an alternative is its name alone, or an object whose only field has
that name. What is left to the syntax of the file is gathered in a dialect.
-/

namespace CodeEmission

/-- The liberties that the syntax of a file takes with the shapes. -/
structure Dialect where
  /-- The body of an alternative with fields may be an array. -/
  positionalBodies : Bool := false
  /-- Arrays in place of records may be too long. -/
  surplusItems : Bool := false
  /-- The body of an alternative may not have fields that are not known. -/
  closedBodies : Bool := false
  /-- An alternative without body may have an empty object in its place. -/
  emptyObjects : Bool := false
  /-- An alternative without body may have an empty array in its place. -/
  emptyArrays : Bool := false
  deriving DecidableEq, Repr

namespace Dialect

def plain : Dialect := {}

def json : Dialect := { positionalBodies := true }

def toml : Dialect :=
  { positionalBodies := true, surplusItems := true, closedBodies := true, emptyObjects := true
    emptyArrays := true }

def tagged : Dialect := { emptyObjects := true }

end Dialect

namespace Data

variable {α β γ δ : Type}

def intIn? (least most : Int) : Data → Option Int
  | .int i => if least ≤ i ∧ i ≤ most then some i else none
  | _ => none

def natBelow? (bound : Nat) : Data → Option Nat
  | .int i => if 0 ≤ i ∧ i < bound then some i.toNat else none
  | _ => none

def byte? (d : Data) : Option UInt8 := (d.natBelow? 256).map UInt8.ofNat

def word32? (d : Data) : Option UInt32 := (d.natBelow? 4294967296).map UInt32.ofNat

def word64? (d : Data) : Option UInt64 := (d.natBelow? 18446744073709551616).map UInt64.ofNat

def size? (d : Data) : Option Nat := d.natBelow? 18446744073709551616

def int32? (d : Data) : Option Int32 := (d.intIn? (-2147483648) 2147483647).map Int32.ofInt

def int64? (d : Data) : Option Int64 := (d.intIn? (-9223372036854775808) 9223372036854775807).map Int64.ofInt

def id? {kind : IdKind} (d : Data) : Option (Id kind) := d.word32?.map Id.mk

def bool? : Data → Option Bool
  | .bool b => some b
  | _ => none

def string? : Data → Option String
  | .string s => some s
  | _ => none

def list? (item : Data → Option α) : Data → Option (List α)
  | .array items => items.mapM item
  | _ => none

abbrev Slot := Option Data

def required (read : Data → Option α) (slot : Slot) : Option α := slot.bind read

def optional (read : Data → Option α) : Slot → Option (Option α)
  | none | some .null => some none
  | some d => (read d).map some

def withDefault (value : α) (read : Data → Option α) : Slot → Option α
  | none => some value
  | some d => read d

/-- The field of an object with a name, which may not occur twice. -/
def field? (name : String) (fields : List (String × Data)) : Option Slot :=
  match fields.filter (·.1 = name) with
  | [] => some none
  | [(_, d)] => some (some d)
  | _ => none

/-- The fields of an object with the given names. Other fields are passed over. -/
def namedSlots (names : List String) (fields : List (String × Data)) : Option (List Slot) :=
  names.mapM fun name => field? name fields

def orderedSlots (surplus : Bool) (names : List String) (items : List Data) : Option (List Slot) :=
  if names.length < items.length ∧ ¬surplus then none
  else some ((items.take names.length).map some ++
    List.replicate (names.length - items.length) none)

def slots? (d : Dialect) (names : List String) : Data → Option (List Slot)
  | .object fields => namedSlots names fields
  | .array items => orderedSlots d.surplusItems names items
  | _ => none

def bodySlots? (d : Dialect) (names : List String) : Data → Option (List Slot)
  | .object fields =>
    if d.closedBodies && fields.any (fun f => !names.contains f.1) then none
    else namedSlots names fields
  | .array items => if d.positionalBodies then orderedSlots d.surplusItems names items else none
  | _ => none

def alternative? : Data → Option (String × Slot)
  | .string name => some (name, none)
  | .object [(name, body)] => some (name, some body)
  | _ => none

def isEmptyBody (d : Dialect) : Slot → Bool
  | none | some .null => true
  | some (.object []) => d.emptyObjects
  | some (.array []) => d.emptyArrays
  | some _ => false

def choice? (d : Dialect) (read : String → Option α) (data : Data) : Option α :=
  match data.alternative? with
  | some (name, body) => if isEmptyBody d body then read name else none
  | none => none

def pair? (f : α → β → γ) (readA : Slot → Option α) (readB : Slot → Option β) :
    List Slot → Option γ
  | [a, b] => do return f (← readA a) (← readB b)
  | _ => none

def triple? (f : α → β → γ → δ) (readA : Slot → Option α) (readB : Slot → Option β)
    (readC : Slot → Option γ) : List Slot → Option δ
  | [a, b, c] => do return f (← readA a) (← readB b) (← readC c)
  | _ => none

def single? (f : α → β) (read : Slot → Option α) : List Slot → Option β
  | [a] => do return f (← read a)
  | _ => none

end Data

end CodeEmission
