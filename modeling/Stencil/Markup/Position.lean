import Stencil.Text.Basic

/-!
# Positions

A place in a source as a reader counts: lines from one, ended by line feeds only, and characters
in the line from one.
-/

namespace Stencil

/-- A line and a column, both counted from one. -/
structure Position where
  line : Nat
  column : Nat
  deriving DecidableEq, Repr

/-- The position of the character that has `offset` characters before it. -/
def Position.of (source : Text) (offset : Nat) : Position :=
  let before := source.take offset
  ⟨before.count '\n' + 1, (before.reverse.takeWhile (· ≠ '\n')).length + 1⟩

end Stencil
