import CodeEmission.CommandLine.Program

/-! # Running the program

The program on the files of the machine it runs on.
-/

namespace CodeEmission

def FileError.ofSystem (e : IO.Error) : FileError :=
  match e with
  | .noFileOrDirectory .. => .notFound
  | .alreadyExists .. => .alreadyExists
  | .inappropriateType _ 20 _ => .notADirectory
  | .inappropriateType _ 21 _ => .isADirectory
  | .invalidArgument _ 36 _ => .nameTooLong
  | e => .other e.toString

def attempt {α : Type} (act : IO α) : IO (Except FileError α) := do
  match ← act.toBaseIO with
  | .ok a => return .ok a
  | .error e => return .error (.ofSystem e)

def machineFiles : Files IO where
  workingDirectory := do return (← IO.currentDir).toString
  isPresent path := do
    match ← (IO.FS.realPath path).toBaseIO with
    | .ok full => full.pathExists
    | .error _ => return false
  read path := attempt (IO.FS.readFile path)
  makeDirectories path := attempt (IO.FS.createDirAll path)
  write path text := attempt (IO.FS.writeFile path text)

end CodeEmission

def main (args : List String) : IO UInt32 := do
  let outcome ← CodeEmission.CommandLine.run CodeEmission.machineFiles {} args
  IO.print outcome.output
  IO.eprint outcome.errors
  return UInt32.ofNat outcome.code
