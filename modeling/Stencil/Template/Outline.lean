import Stencil.Template.Basic
import Stencil.Text.Quoted

/-!
# Sources and outlines

**The source** (`Template.source`). The texts of all parts put together again, with the tags of
inline templates around their sources and the tags of included ones as they stand. It is what the
template was parsed from, without its ditch blocks.

**The outline** (`Template.outline`). One line for each part, indented by depth, included
templates spelled out.
-/

namespace Stencil

mutual

/-- The source text of a part. -/
def Part.source : Part → Text
  | .text content => content
  | .var _ _ raw => raw
  | .nested _ form _ body =>
    match form with
    | .inline opener closer => opener ++ Part.sources body ++ closer
    | .included _ raw => raw

/-- The source text of a list of parts. -/
def Part.sources : List Part → Text
  | [] => []
  | p :: ps => p.source ++ Part.sources ps

end

/-- The source text of a template, without its ditch blocks. -/
def Template.source (t : Template) : Text := Part.sources t.parts

theorem Part.sources_append (ps qs : List Part) :
    Part.sources (ps ++ qs) = Part.sources ps ++ Part.sources qs := by
  induction ps with
  | nil => simp [Part.sources]
  | cons p ps ih => simp [Part.sources, ih]

/-! ## Outlines -/

def indent (depth : Nat) : Text := List.replicate (2 * depth) ' '

/-- A remark in parentheses. -/
def remark (t : Text) : Text := [' ', '('] ++ t ++ [')']

mutual

/-- The lines of a part. -/
def Part.lines (depth : Nat) : Part → List Text
  | .text content => [indent depth ++ ['t', 'e', 'x', 't', ' '] ++ content.quoted]
  | .var name kind _ => [indent depth ++ ['v', 'a', 'r', ' '] ++ name ++ kind.token?.elim [] remark]
  | .nested name form _ body =>
    let head := match form with
      | .inline _ _ => ['i', 'n', 'l', 'i', 'n', 'e', ' '] ++ name
      | .included path _ => ['i', 'n', 'c', 'l', 'u', 'd', 'e', 'd', ' '] ++ name ++ remark path
    (indent depth ++ head) :: Part.allLines (depth + 1) body

/-- The lines of a list of parts. -/
def Part.allLines (depth : Nat) : List Part → List Text
  | [] => []
  | p :: ps => p.lines depth ++ Part.allLines depth ps

end

/-- The outline of a template, every line ended. -/
def Template.outline (t : Template) : Text := (Part.allLines 0 t.parts).flatMap (· ++ ['\n'])

end Stencil
