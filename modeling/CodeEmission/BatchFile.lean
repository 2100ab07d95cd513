import CodeEmission.Data.Batch
import CodeEmission.Data.Config
import CodeEmission.Files.Access
import CodeEmission.Files.Path
import CodeEmission.Json.Reader
import CodeEmission.Toml.Printer
import CodeEmission.Toml.Reader

/-! # Files of batches and configurations

A batch is written in object notation if its file says so by the extension, and else in configuration
notation, which is also the notation of configurations.
-/

namespace CodeEmission

inductive LoadError where
  | unreadable (path : String) (reason : FileError)
  | malformed (path : String)
  deriving DecidableEq, Repr, Inhabited

namespace LoadError

def message : LoadError → String
  | .unreadable path reason => "failed to read " ++ path ++ ": " ++ reason.message
  | .malformed path => "failed to parse " ++ path

end LoadError

def Files.load {m : Type → Type} [Monad m] {α : Type} (files : Files m) (path : String)
    (ofText? : String → Option α) : m (Except LoadError α) := do
  match ← files.read path with
  | .error e => return .error (.unreadable path e)
  | .ok text =>
    match ofText? text with
    | some a => return .ok a
    | none => return .error (.malformed path)

namespace Batch

def fileName : String := "batch.toml"

def ofText? (path text : String) : Option Batch :=
  if Path.extension? path = some "json" then (Json.read? text).bind (ofData? .json)
  else (Toml.read? text).bind (ofData? .toml)

end Batch

namespace Config

def ofText? (text : String) : Option Config := (Toml.read? text).bind (ofData? .toml)

/-- The text of a file that describes a configuration. There is none if a setting exceeds the integers
of the notation. -/
def toText? (c : Config) : Option String := Toml.linesText? c.toFields

end Config

end CodeEmission
