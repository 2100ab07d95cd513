import CodeEmission.Constant
import CodeEmission.Id

/-! # Modules

The global variables and aliases that the functions of a batch share. Declarations may repeat an
identifier; the first one counts.
-/

namespace CodeEmission

inductive Linkage where
  | internal
  | external
  | declaration
  /-- Defined here, but an external definition may take its place. -/
  | availableExternally
  deriving DecidableEq, Repr, Inhabited

structure GlobalVariable where
  id : GlobalId
  name : String
  type : ValueType
  init : Option Constant := none
  /-- The least alignment; the type's preferred alignment is taken if it is larger. -/
  align : Option UInt64 := none
  threadLocal : Bool := false
  linkage : Linkage := .internal
  deriving Repr, Inhabited

namespace GlobalVariable

/-- Whether the storage of the variable lies outside the engine. -/
def isExternal (g : GlobalVariable) : Bool :=
  match g.linkage with
  | .declaration | .availableExternally => true
  | .internal | .external => false

end GlobalVariable

structure GlobalAlias where
  id : GlobalId
  name : String
  aliasee : GlobalRef
  deriving DecidableEq, Repr, Inhabited

structure Module where
  globals : List GlobalVariable := []
  aliases : List GlobalAlias := []
  deriving Repr, Inhabited

namespace Module

def global? (m : Module) (id : GlobalId) : Option GlobalVariable := m.globals.find? (·.id = id)

def alias? (m : Module) (id : GlobalId) : Option GlobalAlias := m.aliases.find? (·.id = id)

end Module

end CodeEmission
