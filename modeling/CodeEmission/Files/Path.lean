/-! # Paths

A path is text whose parts stand between slashes. Empty parts and single dots mean nothing, except for
a slash at the start and a dot that is the first part.
-/

namespace CodeEmission.Path

def pieces (path : String) : List String :=
  let chars := path.toList.foldr
    (fun c done =>
      if c = '/' then [] :: done
      else
        match done with
        | part :: rest => (c :: part) :: rest
        | [] => [[c]])
    [[]]
  chars.map String.ofList

def isAbsolute (path : String) : Bool := path.toList.head? == some '/'

/-- Whether a part can be left out where it is not the first. -/
def isIdle (piece : String) : Bool := piece = "" || piece = "."

def trimmed (ps : List String) : List String := (ps.reverse.dropWhile isIdle).reverse

def ofPieces (first : String) (rest : List String) : String :=
  if rest.isEmpty ∧ first = "" then "/" else "/".intercalate (first :: rest)

/-- The path of the directory that a path lies in. It is empty for a single name; a path without
parts has none. -/
def parent? (path : String) : Option String :=
  match pieces path with
  | [] => none
  | first :: rest =>
    match trimmed rest with
    | [] => if first = "" then none else some ""
    | p :: ps => some (ofPieces first (trimmed (p :: ps).dropLast))

def fileName? (path : String) : Option String :=
  match pieces path with
  | [] => none
  | first :: rest =>
    let last := (trimmed rest).getLast?.getD first
    if last = "" ∨ last = "." ∨ last = ".." then none else some last

/-- What follows the last dot in the last name, unless that dot is the first character. -/
def extension? (path : String) : Option String := do
  let name ← fileName? path
  let back := name.toList.reverse
  match back.dropWhile (· ≠ '.') with
  | [] | [_] => none
  | _ :: _ :: _ => some (String.ofList (back.takeWhile (· ≠ '.')).reverse)

def join (directory name : String) : String :=
  if directory = "" ∨ directory.toList.getLast? = some '/' then directory ++ name
  else directory ++ "/" ++ name

def ancestors : (count : Nat) → String → List String
  | 0, _ => []
  | count + 1, path =>
    if path = "" then []
    else
      match parent? path with
      | some p => path :: ancestors count p
      | none => [path]

end CodeEmission.Path
