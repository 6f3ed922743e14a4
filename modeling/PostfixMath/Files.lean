-- Absolute paths, and a tree of files: what is found at each path, and what reading and writing do.
-- Reading and writing follow a path from the root, and the first step that fails is the error.
import PostfixMath.Text.Basic
import PostfixMath.Text.Utf8

namespace PostfixMath

/-! ## Paths

A path is the names from the root down. A written path is taken from a directory by its letters
alone, without a look at any file. -/

/-- An absolute path: the names on the way from the root. -/
abbrev Path := List String

namespace Path

/-- The path after one name: an empty name or a dot stays, and two dots go up. -/
def enter (path : Path) (name : String) : Path :=
  if name = "" ∨ name = "." then path
  else if name = ".." then path.dropLast
  else path ++ [name]

/-- The names between the slashes of a written path. -/
def names (written : String) : List String := (written.toList.splitOn '/').map String.ofList

/-- The path that is written, seen from a directory. -/
def resolve (directory : Path) (written : String) : Path :=
  (names written).foldl enter (if written.toList.head? = some '/' then [] else directory)

def text (path : Path) : String := "/" ++ "/".intercalate path

end Path

/-! ## Trees of files -/

inductive FileTree.Entry where
  | directory
  | file (content : List UInt8)
deriving DecidableEq, Repr

/-- The entries of a tree below its root. -/
structure FileTree where
  entries : List (Path × FileTree.Entry)
deriving DecidableEq, Repr

/-- Why a path cannot be read or written. -/
inductive AccessError where
  | missing
  | notDirectory
  | nameTooLong
  | directoryRead
  | directoryOpened
  | zeroInPath
deriving DecidableEq, Repr

def AccessError.message (path : Path) : AccessError → String
  | .missing => "ENOENT: no such file or directory, open '" ++ path.text ++ "'"
  | .notDirectory => "ENOTDIR: not a directory, open '" ++ path.text ++ "'"
  | .nameTooLong => "ENAMETOOLONG: name too long, open '" ++ path.text ++ "'"
  | .directoryRead => "EISDIR: illegal operation on a directory, read"
  | .directoryOpened => "EISDIR: illegal operation on a directory, open '" ++ path.text ++ "'"
  | .zeroInPath =>
    "The argument 'path' must be a string, Uint8Array, or URL without null bytes. Received " ++
      Text.quoted path.text

namespace FileTree

/-- What is found at a path. The root is always a directory. -/
def lookup (t : FileTree) (path : Path) : Option Entry :=
  if path = [] then some .directory else t.entries.lookup path

def insert (t : FileTree) (path : Path) (entry : Entry) : FileTree :=
  ⟨(path, entry) :: t.entries.filter fun old => old.1 != path⟩

/-- The longest name of a file, in bytes. -/
def longestName : Nat := 255

/-- The longest path, in bytes. -/
def longestPath : Nat := 4095

/-- Follows names from a place in the tree. -/
def walk (t : FileTree) (here : Path) : List String → Except AccessError (Option Entry)
  | [] => .ok (t.lookup here)
  | name :: names =>
    match t.lookup here with
    | none => .error .missing
    | some (.file _) => .error .notDirectory
    | some .directory =>
      if longestName < name.utf8ByteSize then .error .nameTooLong
      else t.walk (here ++ [name]) names

/-- What is found on the way to a path. A path that is too long is not followed. -/
def locate (t : FileTree) (path : Path) : Except AccessError (Option Entry) :=
  if path.any fun name => name.toList.contains '\x00' then .error .zeroInPath
  else if longestPath < path.text.utf8ByteSize then .error .nameTooLong
  else t.walk [] path

def has (t : FileTree) (path : Path) : Bool :=
  match t.locate path with
  | .ok (some _) => true
  | _ => false

def read (t : FileTree) (path : Path) : Except AccessError (List UInt8) :=
  match t.locate path with
  | .ok (some (.file content)) => .ok content
  | .ok (some .directory) => .error .directoryRead
  | .ok none => .error .missing
  | .error e => .error e

/-- The tree after a file is written in full. Its directory must be there. -/
def write (t : FileTree) (path : Path) (content : List UInt8) : Except AccessError FileTree :=
  match t.locate path with
  | .ok (some .directory) => .error .directoryOpened
  | .ok _ => .ok (t.insert path (.file content))
  | .error e => .error e

end FileTree

end PostfixMath
