import CodeEmission.Bytes
import CodeEmission.Data.Basic
import CodeEmission.Numeric.FloatFormat

/-! # Printing object notation

A value is printed on one line without spaces, or with each item on a line of its own and indented by
two spaces more than what it belongs to.
-/

namespace CodeEmission.Json

def escapedChar (c : Char) : List Char :=
  if c = '"' then ['\\', '"']
  else if c = '\\' then ['\\', '\\']
  else if c = '\x08' then ['\\', 'b']
  else if c = '\x0c' then ['\\', 'f']
  else if c = '\n' then ['\\', 'n']
  else if c = '\r' then ['\\', 'r']
  else if c = '\t' then ['\\', 't']
  else if c.toNat < 0x20 then ['\\', 'u'] ++ (Bytes.hexPadded 4 c.toNat).toList
  else [c]

def quoted (s : String) : String := "\"" ++ String.ofList (s.toList.flatMap escapedChar) ++ "\""

/-- The digits after a decimal point without zeros at their end, but one at least. -/
def fractionDigits (digits : List Char) : List Char :=
  match (digits.reverse.dropWhile (· = '0')).reverse with
  | [] => ['0']
  | ds => ds

def decimal (bits : UInt64) : String :=
  let f := FloatFormat.binary64
  if f.isFinite bits.toNat then
    let (digits, place) := f.decode bits.toNat
    let sign := if f.isNegative bits.toNat then "-" else ""
    let point := (-place).toNat
    let scaled := digits * powerOfTwo place.toNat * powerOfFive point
    let fraction := (Nat.toDigits 10 (powerOfTen point + scaled % powerOfTen point)).drop 1
    sign ++ Nat.repr (scaled / powerOfTen point) ++ "." ++ String.ofList (fractionDigits fraction)
  else "null"

def scalar : Data → String
  | .null | .invalid => "null"
  | .bool true => "true"
  | .bool false => "false"
  | .int i => Int.repr i
  | .float bits => decimal bits
  | .string s => quoted s
  | .array _ => "[]"
  | .object _ => "\x7b\x7d"

mutual

def compact : Data → String
  | .array items => "[" ++ ",".intercalate (compactItems items) ++ "]"
  | .object fields => "\x7b" ++ ",".intercalate (compactFields fields) ++ "\x7d"
  | d => scalar d

def compactItems : List Data → List String
  | [] => []
  | d :: ds => compact d :: compactItems ds

def compactFields : List (String × Data) → List String
  | [] => []
  | (name, d) :: ds => (quoted name ++ ":" ++ compact d) :: compactFields ds

end

def lineStart (depth : Nat) : String := "\n" ++ String.ofList (List.replicate (2 * depth) ' ')

def bracketed (left right : String) (depth : Nat) (parts : List String) : String :=
  if parts.isEmpty then left ++ right
  else
    left ++ lineStart (depth + 1) ++ (("," ++ lineStart (depth + 1)).intercalate parts) ++
      lineStart depth ++ right

mutual

def pretty (depth : Nat) : Data → String
  | .array items => bracketed "[" "]" depth (prettyItems (depth + 1) items)
  | .object fields => bracketed "\x7b" "\x7d" depth (prettyFields (depth + 1) fields)
  | d => scalar d

def prettyItems (depth : Nat) : List Data → List String
  | [] => []
  | d :: ds => pretty depth d :: prettyItems depth ds

def prettyFields (depth : Nat) : List (String × Data) → List String
  | [] => []
  | (name, d) :: ds => (quoted name ++ ": " ++ pretty depth d) :: prettyFields depth ds

end

end CodeEmission.Json
