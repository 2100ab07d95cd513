import CodeEmission.Event
import CodeEmission.HexDump
import CodeEmission.MachineFunction

/-! # Sinks

Observers that are shown each function once all its references are patched.
-/

namespace CodeEmission

structure EmittedCode where
  name : String
  address : UInt64
  code : Bytes
  debugLocs : List (Nat × SourceLoc)
  deriving DecidableEq, Repr, Inhabited

inductive Sink where
  | log
  | quiet
  /-- Writes a hex dump of each function to an output with room for some more bytes. -/
  | hexDump (room : Nat) (output : Array String)
  deriving Repr, Inhabited

namespace EmittedCode

def dump (c : EmittedCode) : String :=
  c.name ++ " @ " ++ Bytes.hexNumber c.address.toNat ++ " (" ++ Nat.repr c.code.size ++
    " bytes):\n" ++ HexDump.render c.address c.code

end EmittedCode

namespace Sink

/-- Shows a function to an observer. A dump that does not fit is not written at all. -/
def receive (s : Sink) (c : EmittedCode) : Sink × Option Event :=
  match s with
  | .log => (.log, some (.codeShown c.name c.code.size c.address))
  | .quiet => (.quiet, none)
  | .hexDump room output =>
    let text := c.dump
    if text.utf8ByteSize ≤ room then
      (.hexDump (room - text.utf8ByteSize) (output.push text), none)
    else (.hexDump room output, some (.dumpFailed c.name "out of room"))

end Sink

end CodeEmission
