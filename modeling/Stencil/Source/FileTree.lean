import Stencil.Source.Path
import Stencil.Table
import Stencil.Text.Utf8

/-!
# File trees

**The tree** (`FileTree`). Files and directories at their places: the segments that lead to them
from the root. Relative paths start at the working directory, which is always there, and so are the
directories it lies in. Writing a file makes its directories; removing it leaves them.

**Looking up a path** (`FileTree.find?`). Segments are followed one by one, and only from a
directory that exists, so a path through a file leads nowhere, not even by way of the directory
above. The directory above the root is the root itself.
-/

namespace Stencil

/-- Files and directories below the root. -/
structure FileTree where
  workDir : List Text
  files : Table (List Text) Bytes
  dirs : List (List Text)

/-- What a path leads to. -/
inductive FileEntry where
  | file (content : Bytes)
  | directory
  deriving DecidableEq

namespace FileTree

/-- A tree with nothing in it but a working directory. -/
def empty : FileTree := ⟨[['w', 'o', 'r', 'k']], [], []⟩

/-- The segments of a path that name something. -/
def normal (path : Text) : List Text :=
  (Path.segments path).filter fun s => !s.isEmpty && s != Path.here

/-- The place where a path starts. -/
def start (t : FileTree) (path : Text) : List Text :=
  if Path.isAbsolute path then [] else t.workDir

/-- Makes the directory at a place and those it lies in. -/
def makeDirs (t : FileTree) (place : List Text) : FileTree :=
  let chain := (List.range (place.length + 1)).map fun k => place.take k
  { t with dirs := chain.filter (· ∉ t.dirs) ++ t.dirs }

/-- Makes a directory in the working directory and those it lies in. -/
def mkdir (t : FileTree) (segments : List Text) : FileTree := t.makeDirs (t.workDir ++ segments)

/-- Writes a file. -/
def write (t : FileTree) (path : Text) (content : Bytes) : FileTree :=
  let place := t.start path ++ normal path
  let t := t.makeDirs place.dropLast
  { t with files := t.files.set place content }

def remove (t : FileTree) (path : Text) : FileTree :=
  { t with files := t.files.erase (t.start path ++ normal path) }

/-- What stands at a place. -/
def at? (t : FileTree) (place : List Text) : Option FileEntry :=
  if place.isPrefixOf t.workDir ∨ place ∈ t.dirs then some .directory
  else (t.files.get? place).map .file

/-- Follows the segments of a path from the directory at a place. -/
def walk (t : FileTree) (place : List Text) : List Text → Option FileEntry
  | [] => some .directory
  | s :: rest =>
    if s.isEmpty ∨ s = Path.here then walk t place rest
    else if s = Path.above then walk t place.dropLast rest
    else
      match t.at? (place ++ [s]) with
      | some .directory => walk t (place ++ [s]) rest
      | some (.file content) => if rest.isEmpty then some (.file content) else none
      | none => none

/-- What a path leads to. -/
def find? (t : FileTree) (path : Text) : Option FileEntry :=
  if path.isEmpty ∨ '\x00' ∈ path then none else t.walk (t.start path) (Path.segments path)

/-- The path leads to a file. -/
def isFile (t : FileTree) (path : Text) : Bool :=
  match t.find? path with
  | some (.file _) => true
  | _ => false

/-- How many bytes all files have together. -/
def size (t : FileTree) : Nat := t.files.foldr (fun (_, content) n => content.length + n) 0

end FileTree

end Stencil
