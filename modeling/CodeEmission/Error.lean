import CodeEmission.Bytes
import CodeEmission.Id
import CodeEmission.TypeLayout

/-! # Errors of emission and resolution

Every way in which emitting or resolving a function can fail, the broad kind of each failure and its
text. A buffer that is too small is no error: the function is laid out again in a larger one. A number
that leaves the words is not returned as an error either: it cuts the operation off.
-/

namespace CodeEmission

inductive MemoryError where
  | allocationFailed
  | protectionFailed
  | invalidSize
  deriving DecidableEq, Repr, Inhabited

namespace MemoryError

def message : MemoryError → String
  | .allocationFailed => "memory allocation failed"
  | .protectionFailed => "memory protection change failed"
  | .invalidSize => "invalid memory size"

end MemoryError

inductive ErrorKind where
  | invariantViolation
  | unsupported
  | unresolved
  | resource
  | crash
  deriving DecidableEq, Repr, Inhabited

inductive ConstantError where
  | notAnInteger (type : ValueType)
  | elementType (index : Nat) (expected actual : ValueType)
  | tooLarge (length offset available : Nat)
  deriving DecidableEq, Repr, Inhabited

namespace ConstantError

def message : ConstantError → String
  | .notAnInteger type => "integer constant of type " ++ type.describe
  | .elementType index expected actual =>
    "element " ++ Nat.repr index ++ " of a [" ++ expected.describe ++ "] array has type " ++
      actual.describe
  | .tooLarge length offset available =>
    Nat.repr length ++ " bytes at offset " ++ Nat.repr offset ++ " do not fit in " ++
      Nat.repr available ++ " bytes"

end ConstantError

namespace JumpTableKind

def describe : JumpTableKind → String
  | .blockAddress => "BlockAddress"
  | .gpRel64BlockAddress => "GpRel64BlockAddress"
  | .gpRel32BlockAddress => "GpRel32BlockAddress"
  | .labelDifference32 => "LabelDifference32"
  | .inline => "Inline"
  | .custom32 => "Custom32"

end JumpTableKind

/-- A step of a computation that has no result. -/
inductive Crash where
  | sum
  | product
  /-- A slice that ends after the bytes it is taken from. -/
  | slice (last length : Nat)
  deriving DecidableEq, Repr, Inhabited

namespace Crash

def message : Crash → String
  | .sum => "attempt to add with overflow"
  | .product => "attempt to multiply with overflow"
  | .slice last length =>
    "range end index " ++ Nat.repr last ++ " out of range for slice of length " ++ Nat.repr length

end Crash

inductive EmitError where
  | blockNotEmitted (function : String) (block : BlockId)
  | labelNotEmitted (function : String) (label : LabelId)
  | duplicateBlock (block : BlockId)
  | duplicateLabel (label : LabelId)
  | constantPoolIndex (index len : Nat)
  | jumpTableIndex (index len : Nat)
  | functionNotEmitted (id : FuncId)
  | unknownGlobal (id : GlobalId)
  | aliasCycle (id : GlobalId)
  | jumpTableEntrySize (expected actual : Nat)
  | malformedConstant (reason : ConstantError)
  | dependentExecutable (function dependent : FuncId)
  | relocationOutOfBounds (offset : Nat)
  | machineConstantPoolEntry (index : Nat)
  | unsupportedJumpTable (kind : JumpTableKind)
  | unhandledRelocation (offset : Nat)
  | relocationRange (offset : Nat) (target : UInt64)
  | unresolvedSymbol (name : String)
  | externalGlobal (name : String)
  | arenaExhausted (name : String)
  | memory (error : MemoryError)
  /-- Nothing is returned: the operation is cut off, and so is the program unless it sees to it. -/
  | crash (step : Crash)
  deriving DecidableEq, Repr, Inhabited

namespace EmitError

def kind : EmitError → ErrorKind
  | .blockNotEmitted .. | .labelNotEmitted .. | .duplicateBlock _ | .duplicateLabel _
  | .constantPoolIndex .. | .jumpTableIndex .. | .functionNotEmitted _ | .unknownGlobal _
  | .aliasCycle _ | .jumpTableEntrySize .. | .malformedConstant _ | .dependentExecutable ..
  | .relocationOutOfBounds _ => .invariantViolation
  | .machineConstantPoolEntry _ | .unsupportedJumpTable _ | .unhandledRelocation _
  | .relocationRange .. => .unsupported
  | .unresolvedSymbol _ | .externalGlobal _ => .unresolved
  | .arenaExhausted _ | .memory _ => .resource
  | .crash _ => .crash

def isInvariantViolation (e : EmitError) : Bool := e.kind == .invariantViolation

def isCrash (e : EmitError) : Bool := e.kind == .crash

theorem isCrash_eq_false {e : EmitError} : e.isCrash = false ↔ ∀ step, e ≠ .crash step := by
  cases e <;> simp [isCrash, kind]

private def quoted (s : String) : String := "'" ++ s ++ "'"

def message : EmitError → String
  | .blockNotEmitted function block =>
    "basic block " ++ block.display ++ " of function " ++ quoted function ++ " was never emitted"
  | .labelNotEmitted function label =>
    "label " ++ label.display ++ " of function " ++ quoted function ++ " was never emitted"
  | .duplicateBlock block => "basic block " ++ block.display ++ " emitted twice"
  | .duplicateLabel label => "label " ++ label.display ++ " emitted twice"
  | .constantPoolIndex index len =>
    "constant pool index " ++ Nat.repr index ++ " out of range (pool has " ++ Nat.repr len ++
      " entries)"
  | .jumpTableIndex index len =>
    "jump table index " ++ Nat.repr index ++ " out of range (" ++ Nat.repr len ++ " tables)"
  | .functionNotEmitted id => "function " ++ id.display ++ " has no committed code"
  | .unknownGlobal id => "global " ++ id.display ++ " is not declared in the module"
  | .aliasCycle id => "alias chain starting at global " ++ id.display ++ " does not terminate"
  | .jumpTableEntrySize expected actual =>
    "jump table entry size " ++ Nat.repr actual ++ " does not match pointer size " ++
      Nat.repr expected
  | .malformedConstant reason => "malformed constant: " ++ reason.message
  | .dependentExecutable function dependent =>
    "cannot replace " ++ function.display ++ ": executable function " ++ dependent.display ++
      " refers to it"
  | .relocationOutOfBounds offset =>
    "relocation at offset " ++ Bytes.hexNumber offset ++ " lies outside the function buffer"
  | .machineConstantPoolEntry index =>
    "machine-specific constant pool entry " ++ Nat.repr index ++ " cannot be materialized"
  | .unsupportedJumpTable kind => "jump table encoding " ++ kind.describe ++ " is not supported"
  | .unhandledRelocation offset =>
    "relocation at offset " ++ Bytes.hexNumber offset ++ " is not handled by the target"
  | .relocationRange offset target =>
    "relocation at offset " ++ Bytes.hexNumber offset ++ " cannot reach " ++
      Bytes.hexNumber target.toNat
  | .unresolvedSymbol name => "could not resolve external symbol " ++ quoted name
  | .externalGlobal name => "could not resolve external global address: " ++ name
  | .arenaExhausted name => "global arena exhausted while allocating " ++ quoted name
  | .memory error => error.message
  | .crash step => step.message

end EmitError

end CodeEmission
