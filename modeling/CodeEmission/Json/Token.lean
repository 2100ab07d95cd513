import CodeEmission.Bytes
import CodeEmission.Json.Number

/-! # Tokens of object notation

Punctuation, words, numbers and strings, with spaces between them. Tokens may touch; which of them
may follow each other is left to the grammar.
-/

namespace CodeEmission.Json

inductive Token where
  | openObject
  | closeObject
  | openArray
  | closeArray
  | colon
  | comma
  | string (s : Option String)
  | scalar (d : Data)
  deriving Repr, Inhabited

namespace Token

def isSpace (c : Char) : Bool := c = ' ' || c = '\n' || c = '\t' || c = '\r'

def punctuation? : Char → Option Token
  | '\x7b' => some .openObject
  | '\x7d' => some .closeObject
  | '[' => some .openArray
  | ']' => some .closeArray
  | ':' => some .colon
  | ',' => some .comma
  | _ => none

def escape? : Char → Option Char
  | '"' => some '"'
  | '\\' => some '\\'
  | '/' => some '/'
  | 'b' => some '\x08'
  | 'f' => some '\x0c'
  | 'n' => some '\n'
  | 'r' => some '\r'
  | 't' => some '\t'
  | _ => none

def hexUnit? (a b c d : Char) : Option Nat := do
  let a ← Bytes.hexValue? a
  let b ← Bytes.hexValue? b
  let c ← Bytes.hexValue? c
  let d ← Bytes.hexValue? d
  return ((a * 16 + b) * 16 + c) * 16 + d

def isHighSurrogate (unit : Nat) : Bool := 0xD800 ≤ unit && unit < 0xDC00

def isLowSurrogate (unit : Nat) : Bool := 0xDC00 ≤ unit && unit < 0xE000

/-- The character that two units stand for together. -/
def paired? (high low : Nat) : Option Char :=
  if isHighSurrogate high && isLowSurrogate low then
    some (Char.ofNat (0x10000 + (high - 0xD800) * 0x400 + (low - 0xDC00)))
  else none

/-- The character that a unit stands for on its own. -/
def single? (unit : Nat) : Option Char :=
  if isHighSurrogate unit || isLowSurrogate unit then none else some (Char.ofNat unit)

/-- Characters, listed backwards, with one more. There are none from the first unit on that stands for
no character. -/
def push (done : Option (List Char)) (c : Option Char) : Option (List Char) := do
  return (← c) :: (← done)

/-- The rest of a string up to its closing quote, and what follows it. A string with half of a pair of
units is a string all the same, but it has no text. -/
def string? (done : Option (List Char)) : List Char → Option (Option String × List Char)
  | [] => none
  | '"' :: cs => some (done.map fun d => String.ofList d.reverse, cs)
  | '\\' :: 'u' :: a :: b :: c :: d :: '\\' :: 'u' :: e :: f :: g :: h :: cs =>
    match hexUnit? a b c d with
    | none => none
    | some unit =>
      match (hexUnit? e f g h).bind (paired? unit) with
      | some both => string? (push done both) cs
      | none => string? (push done (single? unit)) ('\\' :: 'u' :: e :: f :: g :: h :: cs)
  | '\\' :: 'u' :: a :: b :: c :: d :: cs =>
    match hexUnit? a b c d with
    | none => none
    | some unit => string? (push done (single? unit)) cs
  | '\\' :: c :: cs =>
    match escape? c with
    | some e => string? (push done e) cs
    | none => none
  | c :: cs => if c = '\\' ∨ c.toNat < 0x20 then none else string? (push done c) cs

theorem length_of_string? {done : Option (List Char)} {cs rest : List Char} {s : Option String}
    (h : string? done cs = some (s, rest)) : rest.length < cs.length := by
  fun_induction string? done cs <;> simp_all <;> omega

def isScalarChar (c : Char) : Bool := c.isAlphanum || c = '+' || c = '-' || c = '.'

def scalar? (cs : List Char) : Option Data :=
  if cs = "null".toList then some .null
  else if cs = "true".toList then some (.bool true)
  else if cs = "false".toList then some (.bool false)
  else (Numeral.ofChars? cs).map fun n => n.value?.getD .invalid

def readFrom (done : Array Token) (cs : List Char) : Option (Array Token) :=
  match cs with
  | [] => some done
  | c :: cs =>
    if isSpace c then readFrom done cs
    else if c = '"' then
      match h : string? (some []) cs with
      | none => none
      | some (s, rest) =>
        have := length_of_string? h
        readFrom (done.push (.string s)) rest
    else
      match punctuation? c with
      | some t => readFrom (done.push t) cs
      | none =>
        match scalar? (c :: cs.takeWhile isScalarChar) with
        | none => none
        | some d =>
          have := (List.dropWhile_suffix (l := cs) isScalarChar).length_le
          readFrom (done.push (.scalar d)) (cs.dropWhile isScalarChar)
termination_by cs.length

def read? (text : String) : Option (List Token) := (readFrom #[] text.toList).map Array.toList

end Token

end CodeEmission.Json
