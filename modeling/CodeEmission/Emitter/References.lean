import CodeEmission.Emitter.Basic

/-! # References between functions

Where a reference to a global leads through aliases, its address, and the functions whose code holds
the address of a given one.
-/

namespace CodeEmission

namespace Module

def leadsTo (m : Module) (id : FuncId) : (steps : Nat) → GlobalRef → Bool
  | _, .function f => f = id
  | _, .variable _ => false
  | 0, .alias _ => false
  | steps + 1, .alias a =>
    match m.alias? a with
    | some found => m.leadsTo id steps found.aliasee
    | none => false

inductive Destination where
  | function (id : FuncId)
  | variable (g : GlobalVariable)
  deriving Repr

/-- What a reference leads to after at most `steps` aliases. -/
def destination (m : Module) : (steps : Nat) → GlobalRef → Except EmitError Destination
  | _, .function id => .ok (.function id)
  | _, .variable id =>
    match m.global? id with
    | some g => .ok (.variable g)
    | none => .error (.unknownGlobal id)
  | 0, .alias id => .error (.aliasCycle id)
  | steps + 1, .alias id =>
    match m.alias? id with
    | some found => m.destination steps found.aliasee
    | none => .error (.unknownGlobal id)

end Module

namespace Emitter

def refersToFunction (em : Emitter) (g : GlobalRef) (id : FuncId) : Bool :=
  em.module.leadsTo id em.module.aliases.length g

def functionAddress (em : Emitter) (id : FuncId) : Except EmitError UInt64 :=
  match em.function? id with
  | some r => .ok r.codeAddress
  | none => .error (.functionNotEmitted id)

def variableAddress (em : Emitter) (g : GlobalVariable) : Emitter × Except EmitError UInt64 :=
  match em.arena.addressOf em.target g with
  | (arena, .error e) => ({ em with arena }, .error e)
  | (arena, .ok answer) =>
    ({ em with arena, log := em.log ++ answer.event.toArray }, .ok answer.offset.tagged)

/-- The address that a reference to a global resolves to. Aliases are followed to their end,
functions have to be committed. -/
def globalAddress (em : Emitter) (g : GlobalRef) : Emitter × Except EmitError UInt64 :=
  match em.module.destination (em.module.aliases.length + 1) g with
  | .error e => (em, .error e)
  | .ok (.function id) => (em, em.functionAddress id)
  | .ok (.variable v) => em.variableAddress v

/-- Whether the code of a function refers to another one, directly or through aliases. -/
def refersTo (em : Emitter) (r : FunctionRecord) (id : FuncId) : Bool :=
  r.relocations.any fun reloc =>
    match reloc.global? with
    | some g => em.refersToFunction g id
    | none => false

/-- The resolved functions among some records that refer to a function. An executable one is an
error. -/
def dependentsAmong (em : Emitter) (id : FuncId) :
    List FunctionRecord → Except EmitError (List FuncId)
  | [] => .ok []
  | r :: rs =>
    if r.id = id || !em.refersTo r id then em.dependentsAmong id rs
    else if r.isExecutable then .error (.dependentExecutable id r.id)
    else do
      let ids ← em.dependentsAmong id rs
      return if r.resolved then r.id :: ids else ids

/-- The resolved functions whose code holds the address of a function. There are none for a function
that is not committed. -/
def patchedDependents (em : Emitter) (id : FuncId) : Except EmitError (List FuncId) :=
  if em.functions.contains id then em.dependentsAmong id em.functions.values else .ok []

def unresolve (em : Emitter) (id : FuncId) : Emitter :=
  if em.functions.contains id then
    (em.report (.needsPatching id)).modifyFunction id fun r => { r with resolved := false }
  else em

def unresolveAll (em : Emitter) (ids : List FuncId) : Emitter := ids.foldl unresolve em

/-- Removes a committed function and says whether there was one. Functions patched with its address
have to be patched again; nothing is removed if one of them is executable. -/
def deallocate (em : Emitter) (id : FuncId) : Emitter × Except EmitError Bool :=
  let em := em.report (.deallocating id)
  match em.patchedDependents id with
  | .error e => (em, .error e)
  | .ok dependents =>
    let removed := em.functions.contains id
    let em := { em with functions := em.functions.erase id }
    (em.unresolveAll dependents, .ok removed)

end Emitter

end CodeEmission
