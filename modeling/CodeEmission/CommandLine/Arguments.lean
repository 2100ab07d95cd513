import CodeEmission.Config

/-! # Arguments

What the program is asked to do. Options may stand before and after other arguments, each at most
once, and everything behind a double dash is no option.
-/

namespace CodeEmission.CommandLine

structure EmitRequest where
  batch : String
  config : Option String := none
  trace : Bool := false
  initialSize : Option UInt64 := none
  format : Option ReportFormat := none
  abortOnInvariant : Bool := false
  deriving DecidableEq, Repr, Inhabited

inductive Topic where
  | program
  | init
  | emit
  | help
  deriving DecidableEq, Repr, Inhabited

inductive Command where
  | init (directory : Option String)
  | emit (request : EmitRequest)
  | explain (topic : Topic)
  deriving DecidableEq, Repr, Inhabited

/-- What an argument is, if it does not stand behind a double dash. -/
inductive Word where
  | doubleDash
  | long (name : String) (value : Option String)
  | short (letters : List Char)
  | plain (text : String)
  deriving DecidableEq, Repr

namespace Word

def ofString (s : String) : Word :=
  match s.toList with
  | ['-', '-'] => .doubleDash
  | '-' :: '-' :: cs =>
    match cs.dropWhile (· ≠ '=') with
    | [] => .long (String.ofList cs) none
    | _ :: value => .long (String.ofList (cs.takeWhile (· ≠ '='))) (some (String.ofList value))
  | '-' :: c :: cs => .short (c :: cs)
  | _ => .plain s

def isHelp : Word → Bool
  | .long "help" none => true
  | .short ('h' :: _) => true
  | _ => false

end Word

def size? (s : String) : Option UInt64 :=
  let digits := match s.toList with
    | '+' :: cs => cs
    | cs => cs
  if digits.isEmpty ∨ ¬digits.all Char.isDigit then none
  else
    let n := digits.foldl (fun n c => n * 10 + (c.toNat - '0'.toNat)) 0
    if n < 18446744073709551616 then some (UInt64.ofNat n) else none

def format? : String → Option ReportFormat
  | "human" => some .human
  | "json" => some .json
  | _ => none

structure EmitArguments where
  batch : Option String := none
  config : Option String := none
  trace : Bool := false
  initialSize : Option UInt64 := none
  format : Option ReportFormat := none
  abortOnInvariant : Bool := false

namespace EmitArguments

def setOnce {α : Type} (old : Option α) (new : Option α) : Option α :=
  match old with
  | none => new
  | some _ => none

def addBatch? (a : EmitArguments) (path : String) : Option EmitArguments := do
  let batch ← setOnce a.batch (if path = "" then none else some path)
  return { a with batch := some batch }

def addFlag? (a : EmitArguments) : String → Option EmitArguments
  | "trace" => if a.trace then none else some { a with trace := true }
  | "abort-on-invariant" =>
    if a.abortOnInvariant then none else some { a with abortOnInvariant := true }
  | _ => none

def takesValue (name : String) : Bool :=
  name = "config" || name = "initial-size" || name = "format"

def addValue? (a : EmitArguments) (name value : String) : Option EmitArguments :=
  match name with
  | "config" => do
    let config ← setOnce a.config (if value = "" then none else some value)
    return { a with config := some config }
  | "initial-size" => do
    let initialSize ← setOnce a.initialSize (size? value)
    return { a with initialSize := some initialSize }
  | "format" => do
    let format ← setOnce a.format (format? value)
    return { a with format := some format }
  | _ => none

def request? (a : EmitArguments) : Option EmitRequest := do
  return {
    batch := ← a.batch
    config := a.config
    trace := a.trace
    initialSize := a.initialSize
    format := a.format
    abortOnInvariant := a.abortOnInvariant }

def addPlain? (a : EmitArguments) (args : List String) : Option EmitArguments :=
  args.foldlM addBatch? a

def command? (a : EmitArguments) : List String → Option Command
  | [] => a.request?.map .emit
  | arg :: args =>
    match Word.ofString arg with
    | .doubleDash => do return .emit (← (← a.addPlain? args).request?)
    | .plain path => do (← a.addBatch? path).command? args
    | .short ('h' :: _) => some (.explain .emit)
    | .short _ => none
    | .long name (some value) => do (← a.addValue? name value).command? args
    | .long name none =>
      if name = "help" then some (.explain .emit)
      else if takesValue name then
        match args with
        | [] => none
        | value :: args =>
          match Word.ofString value with
          | .plain value => do (← a.addValue? name value).command? args
          | _ => none
      else do (← a.addFlag? name).command? args

end EmitArguments

def initCommand? (directory : Option String) : List String → Option Command
  | [] => some (.init directory)
  | arg :: args =>
    match Word.ofString arg with
    | .doubleDash => do
      let take (old : Option String) (path : String) : Option (Option String) :=
        if old.isSome ∨ path = "" then none else some (some path)
      return .init (← args.foldlM take directory)
    | .plain path =>
      if directory.isSome ∨ path = "" then none else initCommand? (some path) args
    | word => if word.isHelp then some (.explain .init) else none

def topic? : List String → Option Topic
  | [] => some .program
  | ["init"] => some .init
  | ["emit"] => some .emit
  | ["help"] => some .help
  | _ => none

def command? : List String → Option Command
  | "init" :: args => initCommand? none args
  | "emit" :: args => EmitArguments.command? {} args
  | "help" :: args => (topic? args).map .explain
  | arg :: _ => if (Word.ofString arg).isHelp then some (.explain .program) else none
  | [] => none

end CodeEmission.CommandLine
