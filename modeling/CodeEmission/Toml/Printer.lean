import CodeEmission.Bytes
import CodeEmission.Data.Basic

/-! # Printing configuration notation

A table of plain values is printed with one key and its value on each line.
-/

namespace CodeEmission.Toml

def escapedChar (c : Char) : List Char :=
  if c = '"' then ['\\', '"']
  else if c = '\\' then ['\\', '\\']
  else if c = '\x08' then ['\\', 'b']
  else if c = '\x0c' then ['\\', 'f']
  else if c = '\n' then ['\\', 'n']
  else if c = '\r' then ['\\', 'r']
  else if c = '\t' then ['\\', 't']
  else if c.toNat < 0x20 ∨ c = '\x7f' then ['\\', 'u'] ++ (Bytes.hexPadded 4 c.toNat).toList
  else [c]

def quoted (s : String) : String := "\"" ++ String.ofList (s.toList.flatMap escapedChar) ++ "\""

/-- A plain value, if the notation has it: integers have 64 bits and a sign. -/
def scalarText? : Data → Option String
  | .bool true => some "true"
  | .bool false => some "false"
  | .int i => if -9223372036854775808 ≤ i ∧ i ≤ 9223372036854775807 then some (Int.repr i) else none
  | .string s => some (quoted s)
  | _ => none

def linesText? : List (String × Data) → Option String
  | [] => some ""
  | (key, d) :: rest => do
    let value ← scalarText? d
    let others ← linesText? rest
    return key ++ " = " ++ value ++ "\n" ++ others

end CodeEmission.Toml
