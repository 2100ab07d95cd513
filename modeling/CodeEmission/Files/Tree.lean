import CodeEmission.Files.Access
import CodeEmission.Files.Entry
import CodeEmission.Files.Path

/-! # Trees of files

All files there are, as a value, and the directory where paths start. There are no links, so each place
has a single name.
-/

namespace CodeEmission

structure FileTree where
  start : List String := []
  root : FileEntry := .directory []
  deriving Inhabited

namespace FileTree

def nameLimit : Nat := 255

def pathLimit : Nat := 4095

def empty (start : List String) : FileTree :=
  { start, root := (FileEntry.directory []).put start none }

def find? (t : FileTree) (place : List String) : Option FileEntry := t.root.find? place

def put (t : FileTree) (place : List String) (e : FileEntry) : FileTree :=
  { t with root := e.put place (some t.root) }

/-- The place that the parts of a path lead to, and what is there. The names of the place so far are
given from the innermost one on. Everything before the last part has to be a directory. The uppermost
directory lies in itself. -/
def walk (t : FileTree) (names : List String) (here : Option FileEntry) :
    List String → Except FileError (List String × Option FileEntry)
  | [] => .ok (names.reverse, here)
  | piece :: rest =>
    match here with
    | none => .error .notFound
    | some (.file _) => .error .notADirectory
    | some (.directory entries) =>
      if Path.isIdle piece then t.walk names here rest
      else if piece = ".." then t.walk names.tail (t.find? names.tail.reverse) rest
      else if nameLimit < piece.utf8ByteSize then .error .nameTooLong
      else t.walk (piece :: names) (entries.lookup piece) rest

def origin (t : FileTree) (path : String) : List String :=
  if Path.isAbsolute path then [] else t.start

def follow (t : FileTree) (path : String) (parts : List String) :
    Except FileError (List String × Option FileEntry) :=
  if path = "" then .error .notFound
  else if pathLimit < path.utf8ByteSize then .error .nameTooLong
  else t.walk (t.origin path).reverse (t.find? (t.origin path)) parts

def locate (t : FileTree) (path : String) : Except FileError (List String × Option FileEntry) :=
  t.follow path (Path.pieces path)

def entry? (t : FileTree) (path : String) : Option FileEntry :=
  match t.locate path with
  | .ok (_, here) => here
  | .error _ => none

def isPresent (t : FileTree) (path : String) : Bool := (t.entry? path).isSome

def isDirectory (t : FileTree) (path : String) : Bool := (t.entry? path).any FileEntry.isDirectory

def read (t : FileTree) (path : String) : Except FileError String := do
  match ← t.locate path with
  | (_, none) => .error .notFound
  | (_, some (.directory _)) => .error .isADirectory
  | (_, some (.file text)) => .ok text

/-- Makes a directory in one that exists. Its path may end in slashes. -/
def makeDirectory (t : FileTree) (path : String) : Except FileError FileTree := do
  match ← t.follow path ((Path.pieces path).reverse.dropWhile (· = "")).reverse with
  | (place, none) => .ok (t.put place (.directory []))
  | (_, some _) => .error .alreadyExists

/-- Makes the first of some directories, each of which lies in the next one. The next one is made if
that is what is missing. -/
def makeFirst (t : FileTree) : List String → Except FileError FileTree
  | [] => .ok t
  | path :: parents =>
    match t.makeDirectory path with
    | .ok t => .ok t
    | .error .notFound => do
      let t ← t.makeFirst parents
      match t.makeDirectory path with
      | .ok t => .ok t
      | .error e => if t.isDirectory path then .ok t else .error e
    | .error e => if t.isDirectory path then .ok t else .error e

def makeDirectories (t : FileTree) (path : String) : Except FileError FileTree :=
  t.makeFirst (Path.ancestors (path.length + 1) path)

def write (t : FileTree) (path text : String) : Except FileError FileTree := do
  match ← t.locate path with
  | (_, some (.directory _)) => .error .isADirectory
  | (place, none) | (place, some (.file _)) => .ok (t.put place (.file text))

def placeOf (t : FileTree) (path : String) : List String :=
  t.origin path ++ (Path.pieces path).filter fun p => !Path.isIdle p

def withFile (t : FileTree) (path text : String) : FileTree := t.put (t.placeOf path) (.file text)

def withDirectory (t : FileTree) (path : String) : FileTree :=
  t.put (t.placeOf path) (.directory [])

def fullPath (place : List String) : String := "/" ++ "/".intercalate place

def ownFiles (t : FileTree) : List (String × String) :=
  match t.find? t.start with
  | some e => (e.files []).map fun f => ("/".intercalate f.1, f.2)
  | none => []

def change (next : FileTree → Except FileError FileTree) :
    StateM FileTree (Except FileError Unit) := fun t =>
  match next t with
  | .ok t => (.ok (), t)
  | .error e => (.error e, t)

def access : Files (StateM FileTree) where
  workingDirectory := do return fullPath (← get).start
  isPresent path := do return (← get).isPresent path
  read path := do return (← get).read path
  makeDirectories path := change (·.makeDirectories path)
  write path text := change (·.write path text)

end FileTree

end CodeEmission
