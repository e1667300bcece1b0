import Stencil.Text.Basic

/-!
# Paths

A path is a text whose segments are separated by slashes. Only the slash separates: a backslash
is a character like any other.

**Confined paths** (`Path.isConfined`). A path that neither starts at the root nor has a segment
of two points cannot leave the directory it is joined to.

**Names.** The base name of a path, which also accepts a backslash as a separator, gives an
included template its name.
-/

namespace Stencil

namespace Path

/-- The endings by which a template may be left out of its path, best first. -/
def extensions : List Text :=
  [['.', 'h', 't', 'm', 'l'], ['.', 'h', 't', 'm'], ['.', 'x', 'm', 'l'], ['.', 't', 'x', 't'],
    ['.', 't', 'p', 'l']]

/-- The segment of the directory itself. -/
def here : Text := ['.']

/-- The segment of the directory above. -/
def above : Text := ['.', '.']

def segments (path : Text) : List Text := path.split '/'

/-- The path starts at the root. -/
def isAbsolute (path : Text) : Bool := path.head? = some '/'

/-- The path stays below the directory it is joined to. -/
def isConfined (path : Text) : Bool := !isAbsolute path && !(segments path).contains above

/-- The path `path` as seen from the directory `dir`. -/
def join (dir path : Text) : Text :=
  if isAbsolute path then path
  else match dir.getLast? with
    | none => path
    | some c => if c = '/' then dir ++ path else dir ++ '/' :: path

/-- Drops segments that name nothing, from the end of a path given in reverse. -/
def trimSegments : List Text → List Text
  | s :: t :: rest => if s = [] ∨ s = here then trimSegments (t :: rest) else s :: t :: rest
  | rest => rest

/-- The directory that a path lies in; empty for a single segment. -/
def parent (path : Text) : Text :=
  match trimSegments ((trimSegments (segments path).reverse).drop 1) with
  | [[]] => ['/']
  | kept => ['/'].intercalate kept.reverse

/-- A name without the first of the given endings that it has. -/
def stripExtension (endings : List Text) (name : Text) : Text :=
  (endings.findSome? fun e => Text.upTo? e name).getD name

/-- The last segment of a path, without what follows its last point. A point at the start does
not count. -/
def baseName (path : Text) : Text :=
  let file := (path.reverse.takeWhile fun c => c ≠ '/' ∧ c ≠ '\\').reverse
  let stem := ((file.reverse.dropWhile (· ≠ '.')).drop 1).reverse
  if stem.isEmpty then file else stem

/-- The place of a name's ending among the extensions; past the end if it has none of them. -/
def priority (name : Text) : Nat := extensions.findIdx fun e => Text.endsWith e name

end Path

end Stencil
