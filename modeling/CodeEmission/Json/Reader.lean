import CodeEmission.Json.Token

/-! # Reading object notation

Tokens are read one by one. What was begun and is not finished yet is kept in a list, the innermost
first, and the state tells which token may come next.
-/

namespace CodeEmission.Json

/-- Fields listed backwards, with their names as far as these have a text. -/
abbrev Fields := List (Option String × Data)

def Fields.close (fields : Fields) : Data :=
  match fields.reverse.mapM fun f => f.1.map fun name => (name, f.2) with
  | some fs => .object fs
  | none => .invalid

/-- Where in an open array or object the value stands that is read now. What has been read of the
array or object is listed backwards. -/
inductive Place where
  | item (items : List Data)
  | field (fields : Fields) (name : Option String)
  deriving Repr

/-- What may come next, and the places around it. -/
inductive State where
  | value (outer : List Place)
  | firstItem (outer : List Place)
  | firstName (outer : List Place)
  | nextName (fields : Fields) (outer : List Place)
  | colon (fields : Fields) (name : Option String) (outer : List Place)
  | nextItem (items : List Data) (outer : List Place)
  | nextField (fields : Fields) (outer : List Place)
  | finished (d : Data)
  deriving Repr

namespace State

def mostPlaces : Nat := 127

def complete (d : Data) : List Place → State
  | [] => .finished d
  | .item items :: outer => .nextItem (d :: items) outer
  | .field fields name :: outer => .nextField ((name, d) :: fields) outer

/-- The state after an array or object, which cannot be held if it stands inside too many others. -/
def close (d : Data) (outer : List Place) : State :=
  complete (if (outer.drop (mostPlaces - 1)).isEmpty then d else .invalid) outer

def begin? (outer : List Place) : Token → Option State
  | .scalar d => some (complete d outer)
  | .string s => some (complete ((s.map .string).getD .invalid) outer)
  | .openArray => some (.firstItem outer)
  | .openObject => some (.firstName outer)
  | _ => none

def step? : State → Token → Option State
  | .value outer, t => begin? outer t
  | .firstItem outer, .closeArray => some (close (.array []) outer)
  | .firstItem outer, t => begin? (.item [] :: outer) t
  | .firstName outer, .closeObject => some (close (.object []) outer)
  | .firstName outer, .string s => some (.colon [] s outer)
  | .nextName fields outer, .string s => some (.colon fields s outer)
  | .colon fields name outer, .colon => some (.value (.field fields name :: outer))
  | .nextItem items outer, .comma => some (.value (.item items :: outer))
  | .nextItem items outer, .closeArray => some (close (.array items.reverse) outer)
  | .nextField fields outer, .comma => some (.nextName fields outer)
  | .nextField fields outer, .closeObject => some (close fields.close outer)
  | _, _ => none

end State

def read? (text : String) : Option Data := do
  match ← (← Token.read? text).foldlM State.step? (.value []) with
  | .finished d => some d
  | _ => none

end CodeEmission.Json
