namespace BlockStream.Console

inductive FileError
  | noSuchFile
  | notDirectory
  | isDirectory
  | nameTooLong
  | nulInPath
  | other (text : String)
  deriving DecidableEq, Repr

def FileError.message : FileError → String
  | noSuchFile => "No such file or directory (os error 2)"
  | notDirectory => "Not a directory (os error 20)"
  | isDirectory => "Is a directory (os error 21)"
  | nameTooLong => "File name too long (os error 36)"
  | nulInPath => "file name contained an unexpected NUL byte"
  | other text => text

structure FileAccess (m : Type → Type) where
  read : String → m (Except FileError ByteArray)
  write : String → ByteArray → m (Except FileError Unit)

inductive FileNode
  | file (bytes : ByteArray)
  | directory

/-- Files and directories by the names that lead to them from the root, and the working directory.
Whatever leads to an entry or to the working directory is a directory. -/
structure FileTree where
  entries : List (List String × FileNode)
  home : List String

/-- The longest name, and the longest path with the byte that ends it. -/
def maxNameBytes : Nat := 255
def maxPathBytes : Nat := 4096

namespace FileTree

def find? (t : FileTree) (place : List String) : Option FileNode :=
  match t.entries.lookup place with
  | some node => some node
  | none =>
    if place.isPrefixOf t.home || t.entries.any fun e ↦ place.isPrefixOf e.1 then some .directory
    else none

def walk (t : FileTree) (place : List String) : List String → Except FileError (List String)
  | [] => .ok place
  | name :: rest =>
    match t.find? place with
    | some .directory =>
      if name = "." then t.walk place rest
      else if name = ".." then t.walk place.dropLast rest
      else if maxNameBytes < name.utf8ByteSize then .error .nameTooLong
      else if (t.find? (place ++ [name])).isSome then t.walk (place ++ [name]) rest
      else .error .noSuchFile
    | _ => .error .notDirectory

def split (t : FileTree) (path : String) : Except FileError (List String × List String) :=
  if path.toList.contains '\x00' then .error .nulInPath
  else if maxPathBytes ≤ path.utf8ByteSize then .error .nameTooLong
  else if path = "" then .error .noSuchFile
  else .ok (if path.startsWith "/" then [] else t.home, (path.splitOn "/").filter (· ≠ ""))

def read (t : FileTree) (path : String) : Except FileError ByteArray := do
  let (start, names) ← t.split path
  let place ← t.walk start (if path.endsWith "/" then names ++ ["."] else names)
  match t.find? place with
  | some (.file bytes) => return bytes
  | some .directory => throw .isDirectory
  | none => throw .noSuchFile

def put (t : FileTree) (place : List String) (bytes : ByteArray) : FileTree :=
  if (t.entries.lookup place).isSome then
    { t with entries := t.entries.map fun e ↦ if e.1 = place then (place, .file bytes) else e }
  else { t with entries := t.entries ++ [(place, .file bytes)] }

/-- The place that a path names for writing: a name, which may be new, in a directory. -/
def target (t : FileTree) (path : String) : Except FileError (List String) := do
  let (start, names) ← t.split path
  match names.getLast? with
  | none => throw .isDirectory
  | some name =>
    let parent ← t.walk start (names.dropLast ++ ["."])
    if name = "." || name = ".." || path.endsWith "/" then throw .isDirectory
    if maxNameBytes < name.utf8ByteSize then throw .nameTooLong
    match t.find? (parent ++ [name]) with
    | some .directory => throw .isDirectory
    | _ => return parent ++ [name]

def write (t : FileTree) (path : String) (bytes : ByteArray) : Except FileError FileTree := do
  return t.put (← t.target path) bytes

def homeFiles (t : FileTree) : List (String × ByteArray) :=
  t.entries.filterMap fun
    | (place, .file bytes) =>
      match place.getLast? with
      | some name => if place.dropLast = t.home then some (name, bytes) else none
      | none => none
    | _ => none

def access : FileAccess (StateM FileTree) where
  read path := do return (← get).read path
  write path bytes := do
    match (← get).write path bytes with
    | .ok t => set t; return .ok ()
    | .error e => return .error e

end FileTree

end BlockStream.Console
