/-! # Entries of directories

A file or a directory with everything below it. A place below a directory is given by the names that
lead to it.
-/

namespace CodeEmission

inductive FileEntry where
  | file (text : String)
  | directory (entries : List (String × FileEntry))

namespace FileEntry

instance : Inhabited FileEntry := ⟨.directory []⟩

def isDirectory : FileEntry → Bool
  | .directory _ => true
  | .file _ => false

def find? : FileEntry → List String → Option FileEntry
  | e, [] => some e
  | .file _, _ :: _ => none
  | .directory entries, name :: rest => (entries.lookup name).bind fun e => e.find? rest

/-- What there is after something was put at a place. Directories on the way there are made, and what
was at the place is gone. -/
def put (new : FileEntry) : List String → Option FileEntry → FileEntry
  | [], _ => new
  | name :: rest, old =>
    let entries := match old with
      | some (.directory entries) => entries
      | _ => []
    .directory <|
      (name, new.put rest (entries.lookup name)) :: entries.filter fun e => e.1 ≠ name

mutual

def files (place : List String) : FileEntry → List (List String × String)
  | .file text => [(place, text)]
  | .directory entries => filesOfAll place entries

def filesOfAll (place : List String) : List (String × FileEntry) → List (List String × String)
  | [] => []
  | (name, e) :: rest => e.files (place ++ [name]) ++ filesOfAll place rest

end

end FileEntry

end CodeEmission
