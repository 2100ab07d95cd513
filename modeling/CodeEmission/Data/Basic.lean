/-! # Structured data

The values that data files consist of, whatever the syntax of the file is. Numbers with a fraction or
an exponent are held by their 64-bit patterns, and objects as lists in the order of the file. What a
file says correctly but cannot be held is kept as an invalid value, which does no harm where nobody
looks at it.
-/

namespace CodeEmission

inductive Data where
  | null
  | bool (value : Bool)
  | int (value : Int)
  | float (bits : UInt64)
  | string (value : String)
  | array (items : List Data)
  | object (fields : List (String × Data))
  /-- A number out of range, a text with half a character in it, or what is nested too deeply. -/
  | invalid
  deriving Repr, Inhabited

namespace Data

mutual

def depth : Data → Nat
  | .array items => depthItems items + 1
  | .object fields => depthFields fields + 1
  | _ => 1

def depthItems : List Data → Nat
  | [] => 0
  | d :: ds => max (depth d) (depthItems ds)

def depthFields : List (String × Data) → Nat
  | [] => 0
  | (_, d) :: ds => max (depth d) (depthFields ds)

end

mutual

def isSound : Data → Bool
  | .invalid => false
  | .array items => areSound items
  | .object fields => areSoundFields fields
  | _ => true

def areSound : List Data → Bool
  | [] => true
  | d :: ds => isSound d && areSound ds

def areSoundFields : List (String × Data) → Bool
  | [] => true
  | (_, d) :: ds => isSound d && areSoundFields ds

end

def nat (n : Nat) : Data := .int n

def optionalField (name : String) : Option Data → List (String × Data)
  | some d => [(name, d)]
  | none => []

end Data

end CodeEmission
