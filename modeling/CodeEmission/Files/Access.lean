/-! # Access to files

What a program needs of the files around it. The operations return their errors as values, so that a
program can be run on real files as well as on a tree of files that is a value itself.
-/

namespace CodeEmission

inductive FileError where
  | notFound
  | alreadyExists
  | notADirectory
  | isADirectory
  /-- A path, or a name in it, has more bytes than it may have. -/
  | nameTooLong
  | other (text : String)
  deriving DecidableEq, Repr, Inhabited

namespace FileError

def message : FileError → String
  | .notFound => "No such file or directory (os error 2)"
  | .alreadyExists => "File exists (os error 17)"
  | .notADirectory => "Not a directory (os error 20)"
  | .isADirectory => "Is a directory (os error 21)"
  | .nameTooLong => "File name too long (os error 36)"
  | .other text => text

end FileError

/-- The operations on files, by the paths of the files. -/
structure Files (m : Type → Type) where
  workingDirectory : m String
  isPresent : String → m Bool
  read : String → m (Except FileError String)
  makeDirectories : String → m (Except FileError Unit)
  write : (path text : String) → m (Except FileError Unit)

end CodeEmission
