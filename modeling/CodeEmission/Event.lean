import CodeEmission.Relocation
import CodeEmission.Text.Quoted

/-! # Events

What the engine reports while it works, as data, and the line that is logged for each event.
-/

namespace CodeEmission

inductive Level where
  | trace
  | debug
  | warn
  deriving DecidableEq, Repr, Inhabited

def Level.name : Level → String
  | .trace => "TRACE"
  | .debug => "DEBUG"
  | .warn => "WARN"

inductive Event where
  | bufferOverflow (length offset : Nat)
  | poolPlaced (entries size offset : Nat)
  | tablesPlaced (slots size offset : Nat)
  | blockStarted (function : String) (block : BlockId) (offset : Nat)
  | emitting (function : String) (id : FuncId)
  | retrying (function : String) (capacity next : Nat)
  | committed (function : String) (size : Nat) (address : UInt64) (relocations : Nat)
  | replaced (id : FuncId)
  | deallocating (id : FuncId)
  | needsPatching (id : FuncId)
  | detached (size : Nat) (address : UInt64)
  | processSearched (name : String) (address : Option UInt64)
  | slotAllocated (name : String) (address : UInt64) (size align : Nat)
  | targetResolved (id : FuncId) (offset : Nat) (target : RelocTarget) (address : UInt64)
  | resolved (function : String) (relocations : Nat)
  | codeShown (function : String) (size : Nat) (address : UInt64)
  | dumpFailed (function reason : String)
  deriving DecidableEq, Repr, Inhabited

namespace RelocTarget

/-- The structural form of a relocation target, such as `BasicBlock(BlockId(1))`. -/
def describe : RelocTarget → String
  | .externalSymbol name => "ExternalSymbol(" ++ Text.quoted name ++ ")"
  | .globalValue g => "GlobalValue(" ++ g.describe ++ ")"
  | .indirectSymbol g => "IndirectSymbol(" ++ g.describe ++ ")"
  | .basicBlock b => "BasicBlock(" ++ b.describe ++ ")"
  | .constantPool i => "ConstantPoolIndex(" ++ Nat.repr i ++ ")"
  | .jumpTable i => "JumpTableIndex(" ++ Nat.repr i ++ ")"

end RelocTarget

namespace Event

def level : Event → Level
  | .bufferOverflow .. | .poolPlaced .. | .tablesPlaced .. | .blockStarted .. | .replaced ..
  | .needsPatching .. | .detached .. | .processSearched .. | .targetResolved .. => .trace
  | .emitting .. | .retrying .. | .committed .. | .deallocating .. | .slotAllocated ..
  | .resolved .. | .codeShown .. => .debug
  | .dumpFailed .. => .warn

private def address (a : UInt64) : String := Bytes.hexNumber a.toNat

def text : Event → String
  | .bufferOverflow length offset =>
    "CodeBuffer: overflow writing " ++ Nat.repr length ++ " bytes @ " ++ Nat.repr offset
  | .poolPlaced entries size offset =>
    "constant pool: " ++ Nat.repr entries ++ " entries, " ++ Nat.repr size ++ " bytes @ " ++
      Nat.repr offset
  | .tablesPlaced slots size offset =>
    "jump tables: " ++ Nat.repr slots ++ " slots, " ++ Nat.repr size ++ " bytes @ " ++
      Nat.repr offset
  | .blockStarted function block offset =>
    function ++ ": " ++ block.display ++ " @ " ++ Nat.repr offset
  | .emitting function id => "emitting '" ++ function ++ "' (" ++ id.display ++ ")"
  | .retrying function capacity next =>
    "'" ++ function ++ "' does not fit in " ++ Nat.repr capacity ++ " bytes, retrying with " ++
      Nat.repr next
  | .committed function size addr relocations =>
    "committed '" ++ function ++ "': " ++ Nat.repr size ++ " bytes @ " ++ address addr ++ ", " ++
      Nat.repr relocations ++ " relocations"
  | .replaced id => "replaced previous code for " ++ id.display
  | .deallocating id => "deallocating " ++ id.display
  | .needsPatching id => id.display ++ " needs patching again"
  | .detached size addr => "detached block of " ++ Nat.repr size ++ " bytes @ " ++ address addr
  | .processSearched name addr =>
    "dlsym(" ++ name ++ ") = " ++
      match addr with
      | some a => "Some(" ++ Nat.repr a.toNat ++ ")"
      | none => "None"
  | .slotAllocated name addr size align =>
    "arena: '" ++ name ++ "' -> " ++ address addr ++ " (" ++ Nat.repr size ++ " bytes, align " ++
      Nat.repr align ++ ")"
  | .targetResolved id offset target addr =>
    id.display ++ " +" ++ Bytes.hexNumber offset ++ ": " ++ target.describe ++ " -> " ++
      address addr
  | .resolved function relocations =>
    "resolved '" ++ function ++ "' (" ++ Nat.repr relocations ++ " relocations)"
  | .codeShown function size addr =>
    "JIT: '" ++ function ++ "' " ++ Nat.repr size ++ " bytes @ " ++ address addr
  | .dumpFailed function reason => "hex dump of '" ++ function ++ "' failed: " ++ reason

def line (e : Event) : String := "[" ++ e.level.name ++ "] " ++ e.text

end Event

end CodeEmission
