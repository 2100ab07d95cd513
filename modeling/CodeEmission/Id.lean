/-! # Identifiers

Functions, globals, basic blocks and labels are numbered independently; an identifier carries in its
type which of them it names.
-/

namespace CodeEmission

inductive IdKind where
  | function
  | global
  | block
  | label

structure Id (kind : IdKind) where
  number : UInt32
  deriving DecidableEq, Repr, Inhabited

abbrev FuncId := Id .function
abbrev GlobalId := Id .global
abbrev BlockId := Id .block
abbrev LabelId := Id .label

def IdKind.tag : IdKind → String
  | .function => "fn"
  | .global => "g"
  | .block => "bb"
  | .label => "L"

def IdKind.typeName : IdKind → String
  | .function => "FuncId"
  | .global => "GlobalId"
  | .block => "BlockId"
  | .label => "LabelId"

namespace Id

variable {kind : IdKind}

def display (id : Id kind) : String := kind.tag ++ Nat.repr id.number.toNat

/-- The structural form of an identifier, such as `BlockId(0)`. -/
def describe (id : Id kind) : String :=
  kind.typeName ++ "(" ++ Nat.repr id.number.toNat ++ ")"

theorem ext_number {a b : Id kind} (h : a.number = b.number) : a = b := by
  cases a
  cases b
  cases h
  rfl

end Id

inductive GlobalRef where
  | function (id : FuncId)
  | variable (id : GlobalId)
  | alias (id : GlobalId)
  deriving DecidableEq, Repr, Inhabited

namespace GlobalRef

def describe : GlobalRef → String
  | .function id => "Function(" ++ id.describe ++ ")"
  | .variable id => "Variable(" ++ id.describe ++ ")"
  | .alias id => "Alias(" ++ id.describe ++ ")"

end GlobalRef

end CodeEmission
