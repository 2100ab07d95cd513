import CodeEmission.Toml.Scalar
import CodeEmission.Toml.Table
import CodeEmission.Toml.Token

/-! # Reading configuration notation

Tokens are read one by one. The state holds the tables read so far, the path of the last header, and
what may come next; arrays and inline tables that are not finished are listed with it, the innermost
first.
-/

namespace CodeEmission.Toml

/-- A key that is being read: its parts backwards, and whether a part has to come next. -/
structure Key where
  parts : List String := []
  wantsPart : Bool := true
  deriving Repr, Inhabited

namespace Key

def pieces (cs : List Char) : List (Option (List Char)) :=
  cs.foldr
    (fun c done =>
      if c = '.' then none :: done
      else
        match done with
        | some part :: rest => some (c :: part) :: rest
        | _ => some [c] :: done)
    []

def isBareChar (c : Char) : Bool := c.isAlphanum || c = '_' || c = '-'

def addPart? (k : Key) (part : String) : Option Key :=
  if k.wantsPart then some { parts := part :: k.parts, wantsPart := false } else none

def addPiece? (k : Key) : Option (List Char) → Option Key
  | none => if k.wantsPart then none else some { k with wantsPart := true }
  | some cs => if cs.all isBareChar then k.addPart? (String.ofList cs) else none

def add? (k : Key) : Token → Option Key
  | .string s false => k.addPart? s
  | .run cs => (pieces cs).foldlM addPiece? k
  | _ => none

/-- No key may have so many parts, and no value may stand inside so many others. -/
def tooMany : Nat := 80

def path? (k : Key) : Option KeyPath :=
  match k.parts with
  | [] => none
  | last :: parents =>
    if k.wantsPart ∨ tooMany ≤ k.parts.length then none
    else some { parents := parents.reverse, last }

end Key

inductive Place where
  | line (path : KeyPath)
  | item (items : List Data)
  | field (fields : Fields) (path : KeyPath)
  deriving Repr

inductive Phase where
  | line
  | secondBracket
  | header (ofArray : Bool) (key : Key)
  | lastBracket
  | key (key : Key)
  | value (outer : List Place)
  | item (items : List Data) (outer : List Place)
  | nextItem (items : List Data) (outer : List Place)
  | firstField (outer : List Place)
  | field (fields : Fields) (key : Key) (outer : List Place)
  | nextField (fields : Fields) (outer : List Place)
  | lineEnd
  deriving Repr

/-- The tables read so far, the last header, and what may come next. -/
structure State where
  root : Fields := []
  header : List String := []
  phase : Phase := .line

namespace State

def enter (s : State) (phase : Phase) : State := { s with phase }

def open? (s : State) (ofArray : Bool) (path : KeyPath) : Option State := do
  let change := if ofArray then Fields.openItem? path.last else Fields.openTable? path.last
  let root ← Fields.within? change path.parents s.root
  return { root, header := path.parents ++ [path.last]
           phase := if ofArray then .lastBracket else .lineEnd }

def complete? (s : State) (d : Data) : List Place → Option State
  | [] => none
  | .line path :: _ => do
    let root ← Fields.within? (Fields.put? path.last d path.parents) s.header s.root
    return { s with root, phase := .lineEnd }
  | .item items :: outer => some (s.enter (.nextItem (d :: items) outer))
  | .field fields path :: outer => do
    let fields ← Fields.put? path.last d path.parents fields
    return s.enter (.nextField fields outer)

def begin? (s : State) (outer : List Place) : Token → Option State
  | .string text _ => s.complete? (.string text) outer
  | .run cs => do s.complete? (← scalar? cs) outer
  | .openBracket _ =>
    if outer.length < Key.tooMany then some (s.enter (.item [] outer)) else none
  | .openBrace =>
    if outer.length < Key.tooMany then some (s.enter (.firstField outer)) else none
  | _ => none

def step? (s : State) (t : Token) : Option State :=
  match s.phase, t with
  | .line, .newline => some s
  | .line, .openBracket true => some (s.enter .secondBracket)
  | .line, .openBracket false => some (s.enter (.header false {}))
  | .line, t => do return s.enter (.key (← Key.add? {} t))
  | .secondBracket, .openBracket _ => some (s.enter (.header true {}))
  | .header ofArray key, .closeBracket doubled =>
    if ofArray ∧ ¬doubled then none else do s.open? ofArray (← key.path?)
  | .header ofArray key, t => do return s.enter (.header ofArray (← key.add? t))
  | .lastBracket, .closeBracket _ => some (s.enter .lineEnd)
  | .key key, .equals => do return s.enter (.value [.line (← key.path?)])
  | .key key, t => do return s.enter (.key (← key.add? t))
  | .value outer, t => s.begin? outer t
  | .item _ _, .newline => some s
  | .item items outer, .closeBracket _ => s.complete? (.array items.reverse) outer
  | .item items outer, t => s.begin? (.item items :: outer) t
  | .nextItem _ _, .newline => some s
  | .nextItem items outer, .comma => some (s.enter (.item items outer))
  | .nextItem items outer, .closeBracket _ => s.complete? (.array items.reverse) outer
  | .firstField outer, .closeBrace => s.complete? (.object []) outer
  | .firstField outer, t => do return s.enter (.field [] (← Key.add? {} t) outer)
  | .field fields key outer, .equals => do
    return s.enter (.value (.field fields (← key.path?) :: outer))
  | .field fields key outer, t => do return s.enter (.field fields (← key.add? t) outer)
  | .nextField fields outer, .comma => some (s.enter (.field fields {} outer))
  | .nextField fields outer, .closeBrace =>
    s.complete? (.object (Fields.fieldsData fields)) outer
  | .lineEnd, .newline => some (s.enter .line)
  | _, _ => none

end State

def read? (text : String) : Option Data := do
  let s ← (← Token.read? text).foldlM State.step? {}
  match s.phase with
  | .line => some (.object (Fields.fieldsData s.root))
  | _ => none

end CodeEmission.Toml
