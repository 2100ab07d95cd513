import CodeEmission.Data.Constant
import CodeEmission.Module

/-! # Modules as data -/

namespace CodeEmission

open Data

namespace GlobalRef

def toData : GlobalRef → Data
  | .function id => .object [("function", .nat id.number.toNat)]
  | .variable id => .object [("variable", .nat id.number.toNat)]
  | .alias id => .object [("alias", .nat id.number.toNat)]

def ofData? (data : Data) : Option GlobalRef :=
  match data.alternative? with
  | some ("function", some body) => body.id?.map .function
  | some ("variable", some body) => body.id?.map .variable
  | some ("alias", some body) => body.id?.map .alias
  | _ => none

end GlobalRef

namespace Linkage

def name : Linkage → String
  | .internal => "internal"
  | .external => "external"
  | .declaration => "declaration"
  | .availableExternally => "available_externally"

def ofName? : String → Option Linkage
  | "internal" => some .internal
  | "external" => some .external
  | "declaration" => some .declaration
  | "available_externally" => some .availableExternally
  | _ => none

theorem ofName?_name (l : Linkage) : ofName? l.name = some l := by cases l <;> rfl

end Linkage

namespace GlobalVariable

def toData (g : GlobalVariable) : Data :=
  .object <|
    [("id", .nat g.id.number.toNat), ("name", .string g.name), ("ty", g.type.toData)] ++
    optionalField "init" (g.init.map Constant.toData) ++
    optionalField "align" (g.align.map fun a => .nat a.toNat) ++
    [("thread_local", .bool g.threadLocal), ("linkage", .string g.linkage.name)]

def ofData? (d : Dialect) (data : Data) : Option GlobalVariable := do
  match ← data.slots? d ["id", "name", "ty", "init", "align", "thread_local", "linkage"] with
  | [id, name, type, init, align, threadLocal, linkage] =>
    return {
      id := ← required id? id
      name := ← required string? name
      type := ← required (ValueType.ofData? d) type
      init := ← optional (Constant.ofData? d) init
      align := ← optional word64? align
      threadLocal := ← withDefault false bool? threadLocal
      linkage := ← withDefault .internal (choice? d Linkage.ofName?) linkage }
  | _ => none

end GlobalVariable

namespace GlobalAlias

def toData (a : GlobalAlias) : Data :=
  .object
    [("id", .nat a.id.number.toNat), ("name", .string a.name), ("aliasee", a.aliasee.toData)]

def ofData? (d : Dialect) (data : Data) : Option GlobalAlias := do
  triple? .mk (required id?) (required string?) (required GlobalRef.ofData?)
    (← data.slots? d ["id", "name", "aliasee"])

end GlobalAlias

namespace Module

def toData (m : Module) : Data :=
  .object
    [("globals", .array (m.globals.map GlobalVariable.toData)),
      ("aliases", .array (m.aliases.map GlobalAlias.toData))]

def ofData? (d : Dialect) (data : Data) : Option Module := do
  pair? .mk (withDefault [] (list? (GlobalVariable.ofData? d)))
    (withDefault [] (list? (GlobalAlias.ofData? d))) (← data.slots? d ["globals", "aliases"])

end Module

end CodeEmission
