import CodeEmission.Bytes
import CodeEmission.Word

/-! # Hex dumps

Sixteen bytes on a line, each line behind its address.
-/

namespace CodeEmission.HexDump

def width : Nat := 16

def line (address : UInt64) (bytes : List UInt8) : String :=
  "  " ++ Bytes.hexPadded 16 address.toNat ++ ":" ++
    String.ofList (bytes.flatMap fun b => ' ' :: Bytes.hexOfByte b) ++ "\n"

def linesFrom (address : UInt64) (bytes : Bytes) : (count position : Nat) → List String
  | 0, _ => []
  | count + 1, position =>
    line (address + UInt64.ofNat position) (bytes.extract position (position + width)).toList ::
      linesFrom address bytes count (position + width)

def render (address : UInt64) (bytes : Bytes) : String :=
  String.join (linesFrom address bytes ((bytes.size + (width - 1)) / width) 0)

/-- The dump of bytes at any address, if the words reach to its last line. -/
def render? (address : UInt64) (bytes : Bytes) : Option String :=
  if address.toNat + (bytes.size - 1) / width * width ≤ Word.largest then some (render address bytes)
  else none

end CodeEmission.HexDump
