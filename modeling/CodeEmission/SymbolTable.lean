import CodeEmission.Event
import CodeEmission.Memory

/-! # External symbols

The addresses of symbols outside the batch. Symbols defined by the user come first; the running
process is searched after them if that is wanted.
-/

namespace CodeEmission

structure SymbolTable where
  /-- The defined symbols, the latest first. -/
  defined : List (String × UInt64) := []
  searchProcess : Bool := true
  deriving Inhabited

namespace SymbolTable

def define (s : SymbolTable) (name : String) (address : UInt64) : SymbolTable :=
  { s with defined := (name, address) :: s.defined }

def lookup (s : SymbolTable) (host : Host) (name : String) : Option UInt64 × Option Event :=
  match s.defined.lookup name with
  | some address => (some address, none)
  | none =>
    if s.searchProcess then
      let found := host.processSymbol? name
      (found, some (.processSearched name found))
    else (none, none)

def find? (s : SymbolTable) (host : Host) (name : String) : Option UInt64 := (s.lookup host name).1

end SymbolTable

end CodeEmission
