import CodeEmission.Id

/-! # Relocations

Places in a function's buffer that need an address patched in. Entries are logged while the code is
written and get their addresses when the function is resolved.
-/

namespace CodeEmission

inductive RelocTarget where
  | externalSymbol (name : String)
  | globalValue (global : GlobalRef)
  /-- An address that is loaded through an indirection. -/
  | indirectSymbol (global : GlobalRef)
  | basicBlock (block : BlockId)
  | constantPool (index : Nat)
  | jumpTable (index : Nat)
  deriving DecidableEq, Repr, Inhabited

inductive RelocKind where
  /-- A signed 32-bit distance from the end of the field. -/
  | pcRel32
  | abs64
  deriving DecidableEq, Repr, Inhabited

namespace RelocKind

def width : RelocKind → Nat
  | .pcRel32 => 4
  | .abs64 => 8

end RelocKind

structure Relocation where
  offset : Nat
  kind : RelocKind
  target : RelocTarget
  addend : Int64 := 0
  mayNeedFarStub : Bool := false
  /-- The patching step is expected to find the address on its own. -/
  leftToTarget : Bool := false
  result : Option UInt64 := none
  deriving DecidableEq, Repr, Inhabited

namespace Relocation

def fieldEnd (r : Relocation) : Nat := r.offset + r.kind.width

def isExternal (r : Relocation) : Bool :=
  match r.target with
  | .externalSymbol _ => true
  | _ => false

def global? (r : Relocation) : Option GlobalRef :=
  match r.target with
  | .globalValue g | .indirectSymbol g => some g
  | _ => none

end Relocation

end CodeEmission
