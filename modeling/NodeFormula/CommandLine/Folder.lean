import NodeFormula.CommandLine

/-!
# Folders

A folder held in memory, on which a command runs as it does on a disk. A file's name is a path from
the folder; the folders on the way to it exist because the file does.
-/

namespace NodeFormula

/-- Files by the parts of their paths. -/
structure Folder where
  files : List (List String × String)
deriving DecidableEq, Repr

/-- What stands at a path. -/
inductive Folder.Entry where
  | file (text : String)
  | folder

namespace Folder

/-- The parts of a path, without empty ones and those that stay in place. -/
def parts (path : String) : List String :=
  (path.splitOn "/").filter fun p => p != "" && p != "."

/-- A folder with files of the given paths. -/
def ofFiles (files : List (String × String)) : Folder :=
  ⟨files.map fun (path, text) => (parts path, text)⟩

/-- What stands at the parts of a path. -/
def entry? (d : Folder) (at? : List String) : Option Entry :=
  match d.files.find? fun f => f.1 == at? with
  | some (_, text) => some (.file text)
  | none => if at?.isEmpty || d.files.any fun f => at?.isPrefixOf f.1 then some .folder else none

/-- Follow parts of a path from a place. Only folders can be passed, and none leads out. -/
def walk (d : Folder) (place : List String) : List String → Except FileError (List String)
  | [] => .ok place
  | p :: rest =>
    match d.entry? place with
    | none => .error .missing
    | some (.file _) => .error .notFolder
    | some .folder =>
      if p != ".." then d.walk (place ++ [p]) rest
      else if place.isEmpty then .error .missing
      else d.walk place.dropLast rest

/-- The place of a path, if it is inside the folder. -/
def locate (d : Folder) (path : String) : Except FileError (List String) :=
  if path.startsWith "/" then .error .missing else d.walk [] (parts path)

/-- Whether a path can only be a folder's. -/
def namesFolder (path : String) : Bool :=
  match (path.splitOn "/").getLast? with
  | some p => p == "" || p == "." || p == ".."
  | none => false

/-- Read a file. -/
def read (d : Folder) (path : String) : Except FileError String := do
  match d.entry? (← d.locate path) with
  | none => throw .missing
  | some .folder => throw .isFolder
  | some (.file text) => if namesFolder path then throw .notFolder else return text

/-- Write a file into a folder that exists. -/
def write (d : Folder) (path text : String) : Except FileError Folder := do
  let place ← d.locate path
  if namesFolder path then throw .isFolder
  match d.entry? place with
  | some .folder => throw .isFolder
  | _ => return ⟨(place, text) :: d.files.filter fun f => f.1 != place⟩

/-- Reach the files of a folder, with a text as standard input. -/
def access (input : String) : Files (StateM Folder) where
  standardInput := return .ok input
  read path := return (← get).read path
  write path text := fun d =>
    match d.write path text with
    | .ok d => (.ok (), d)
    | .error e => (.error e, d)

end Folder

end NodeFormula
