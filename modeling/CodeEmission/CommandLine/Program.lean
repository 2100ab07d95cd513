import CodeEmission.BatchFile
import CodeEmission.CommandLine.Help
import CodeEmission.CommandLine.Sample
import CodeEmission.Json.Printer

/-! # The program

Carrying out a command on some files: writing a sample batch, or emitting a batch and printing the
report. Everything the program prints is part of the outcome.
-/

namespace CodeEmission

namespace FunctionReport

def human (r : FunctionReport) : String :=
  r.name ++ " (" ++ r.id.display ++ ") @ " ++ Bytes.hexNumber r.address.toNat ++ ": " ++
    Nat.repr r.size ++ " bytes, " ++ Nat.repr r.relocations ++ " relocations\n" ++
    HexDump.render r.address r.code

end FunctionReport

namespace BatchReport

def human (r : BatchReport) : String :=
  String.join (r.functions.map FunctionReport.human) ++ "\n" ++
    Nat.repr r.stats.functions ++ " functions, " ++ Nat.repr r.stats.retries ++ " retries, " ++
    Nat.repr r.stats.relocations ++ " relocations, " ++ Nat.repr r.stats.codeBytes ++
    " code bytes, " ++ Nat.repr r.arenaBytes ++ " arena bytes\n"

def text (r : BatchReport) : ReportFormat → String
  | .human => r.human
  | .json => Json.pretty 0 r.toData ++ "\n"

end BatchReport

namespace CommandLine

structure Outcome where
  code : Nat := 0
  output : String := ""
  errors : String := ""
  deriving DecidableEq, Repr, Inhabited

namespace Outcome

def failureCode : Nat := 1

def usageCode : Nat := 2

def abortCode : Nat := 101

def failed (message : String) : Outcome :=
  { code := failureCode, errors := message ++ "\n" }

end Outcome

/-- The configuration with what a request says in place of its settings. -/
def EmitRequest.adjust (a : EmitRequest) (c : Config) : Config :=
  { c with
    trace := c.trace || a.trace
    abortOnInvariantViolation := c.abortOnInvariantViolation || a.abortOnInvariant
    initialBufferSize := a.initialSize.getD c.initialBufferSize
    format := a.format.getD c.format }

/-- The outcome of emitting a batch. The events are reported if that is wanted, also before a
failure. -/
def emitOutcome (b : Batch) (c : Config) (host : Host) : Outcome :=
  let (em, result) := b.emit c host
  let trace := if c.trace then lines (em.log.toList.map Event.line) else ""
  match result with
  | .ok report => { output := report.text c.format, errors := trace }
  | .error (.abort e) =>
    { code := Outcome.abortCode, errors := trace ++ (BatchFailure.abort e).message ++ "\n" }
  | .error e =>
    { code := Outcome.failureCode, errors := trace ++ "error: " ++ e.message ++ "\n" }

variable {m : Type → Type} [Monad m]

/-- The configuration of a request: the file that it names, or one beside the batch if there is
one. -/
def loadConfig (files : Files m) (a : EmitRequest) : m (Except LoadError Config) := do
  match a.config with
  | some path => files.load path Config.ofText?
  | none =>
    let beside := Path.join ((Path.parent? a.batch).getD ".") Config.fileName
    if ← files.isPresent beside then files.load beside Config.ofText?
    else return .ok {}

def emit (files : Files m) (host : Host) (a : EmitRequest) : m Outcome := do
  match ← loadConfig files a with
  | .error e => return .failed e.message
  | .ok config =>
    match ← files.load a.batch (Batch.ofText? a.batch) with
    | .error e => return .failed ("error: " ++ e.message)
    | .ok batch => return emitOutcome batch (a.adjust config) host

def writeConfig (files : Files m) (path : String) : m (Except FileError Unit) := do
  if ← files.isPresent path then return .ok ()
  else
    match ({} : Config).toText? with
    | some text => files.write path text
    | none => return .ok ()

/-- Writes a sample batch and a configuration, but never over another batch. -/
def init (files : Files m) (directory : Option String) : m Outcome := do
  let directory ← match directory with
    | some d => pure d
    | none => files.workingDirectory
  let batch := Path.join directory Batch.fileName
  if ← files.isPresent batch then
    return .failed (Batch.fileName ++ " already exists in " ++ directory)
  match ← files.makeDirectories directory with
  | .error e => return .failed ("failed to create " ++ directory ++ ": " ++ e.message)
  | .ok () =>
    match ← files.write batch Batch.sample with
    | .error e => return .failed ("failed to write " ++ Batch.fileName ++ ": " ++ e.message)
    | .ok () =>
      let config := Path.join directory Config.fileName
      match ← writeConfig files config with
      | .error e => return .failed ("failed to write " ++ config ++ ": " ++ e.message)
      | .ok () => return { output := "Created sample batch in " ++ directory ++ "\n" }

def run (files : Files m) (host : Host) (args : List String) : m Outcome := do
  match command? args with
  | none => return { code := Outcome.usageCode, errors := Topic.program.text }
  | some (.explain topic) => return { output := topic.text }
  | some (.init directory) => init files directory
  | some (.emit request) => emit files host request

end CommandLine

end CodeEmission
