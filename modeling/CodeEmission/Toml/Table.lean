import CodeEmission.Data.Basic

/-! # Tables of configuration notation

A table comes about by a header of its own, on the way to a table inside it, or on the way to a key
with dots. This decides what may be added to it later: a header opens a table once, and keys with
dots reach only into tables that no header has opened.
-/

namespace CodeEmission.Toml

inductive Origin where
  | header
  | path
  | dotted
  deriving DecidableEq, Repr, Inhabited

inductive Node where
  | value (d : Data)
  | table (origin : Origin) (fields : List (String × Node))
  /-- An array of tables that are opened one by one, the latest first. -/
  | tables (items : List (List (String × Node)))
  deriving Repr, Inhabited

abbrev Fields := List (String × Node)

/-- The parts of a key with dots; the last one is apart from the others. -/
structure KeyPath where
  parents : List String
  last : String
  deriving DecidableEq, Repr, Inhabited

namespace Fields

def replace (key : String) (node : Node) : Fields → Fields
  | [] => []
  | (k, n) :: rest => if k = key then (k, node) :: rest else (k, n) :: replace key node rest

/-- Changes the table that a path of headers leads to. Tables on the way are made as needed, and in an
array of tables the latest is meant. -/
def within? (change : Fields → Option Fields) : List String → Fields → Option Fields
  | [], fields => change fields
  | key :: path, fields =>
    match fields.lookup key with
    | none => (within? change path []).map fun inner => fields ++ [(key, .table .path inner)]
    | some (.value _) => none
    | some (.table origin inner) =>
      (within? change path inner).map fun inner => replace key (.table origin inner) fields
    | some (.tables []) => none
    | some (.tables (latest :: before)) =>
      (within? change path latest).map fun latest => replace key (.tables (latest :: before)) fields

def bind? (key : String) (d : Data) (fields : Fields) : Option Fields :=
  if (fields.lookup key).isSome then none else some (fields ++ [(key, .value d)])

/-- Binds a key at the end of a path of dots. The last table on the path has to be one that keys with
dots have made. -/
def put? (last : String) (d : Data) : List String → Fields → Option Fields
  | [], fields => bind? last d fields
  | key :: path, fields =>
    match fields.lookup key with
    | none => (put? last d path []).map fun inner => fields ++ [(key, .table .dotted inner)]
    | some (.value _) => none
    | some (.table origin inner) =>
      if origin = .header ∨ (path = [] ∧ origin ≠ .dotted) then none
      else (put? last d path inner).map fun inner => replace key (.table origin inner) fields
    | some (.tables []) => none
    | some (.tables (latest :: before)) =>
      if path = [] then none
      else
        (put? last d path latest).map fun latest =>
          replace key (.tables (latest :: before)) fields

/-- Opens a table that is new or was only named by headers of tables inside it. -/
def openTable? (key : String) (fields : Fields) : Option Fields :=
  match fields.lookup key with
  | none => some (fields ++ [(key, .table .header [])])
  | some (.table .path inner) => some (replace key (.table .header inner) fields)
  | some _ => none

def openItem? (key : String) (fields : Fields) : Option Fields :=
  match fields.lookup key with
  | none => some (fields ++ [(key, .tables [[]])])
  | some (.tables items) => some (replace key (.tables ([] :: items)) fields)
  | some _ => none

mutual

def nodeData : Node → Data
  | .value d => d
  | .table _ fields => .object (fieldsData fields)
  | .tables items => .array (itemsData [] items)

def fieldsData : List (String × Node) → List (String × Data)
  | [] => []
  | (key, node) :: rest => (key, nodeData node) :: fieldsData rest

def itemsData (done : List Data) : List (List (String × Node)) → List Data
  | [] => done
  | fields :: rest => itemsData (.object (fieldsData fields) :: done) rest

end

end Fields

end CodeEmission.Toml
