import Stencil.Text.Basic

/-!
# Ditch blocks

Whatever stands between two ditch words is cut out of a source, the words included, before
anything else is read.

**Segments.** Splitting the source at the ditch word gives segments that are kept and dropped in
turn. An even number of segments means that the last word has no partner.

**Cuts** (`Ditch.Cut`). Each block that was cut out leaves a record of where in the remaining
text it had stood and how long it was; `Ditch.written` goes back from a position in the remaining
text to the source as written. A position at which a block was cut out goes to the character after
the block.
-/

namespace Stencil

namespace Ditch

/-- A block that was cut out: its position in the remaining text, and its length. -/
structure Cut where
  pos : Nat
  length : Nat
  deriving DecidableEq, Repr

/-- The segments that are kept, put together. -/
def kept : List Text → Text
  | [] => []
  | [s] => s
  | s :: _ :: rest => s ++ kept rest

/-- The cuts between kept segments, for a ditch word of length `w`. -/
def cuts (w pos : Nat) : List Text → List Cut
  | s :: gone :: rest =>
    ⟨pos + s.length, gone.length + 2 * w⟩ :: cuts w (pos + s.length) rest
  | _ => []

/-- The position in the source that a position in the remaining text stands for. -/
def written : List Cut → Nat → Nat
  | [], pos => pos
  | c :: cs, pos => if c.pos ≤ pos then c.length + written cs pos else pos

/-- The text without its ditch blocks, and the cuts; or the position of a ditch word that has no
partner. -/
def strip (ditch source : Text) : Except Nat (Text × List Cut) :=
  let segments := Text.splitOn ditch source
  if segments.length % 2 = 0 then
    .error (source.length - ((segments.getLast?.getD []).length + ditch.length))
  else .ok (kept segments, cuts ditch.length 0 segments)

theorem strip_isOk_iff {ditch source : Text} :
    (∃ r, strip ditch source = .ok r) ↔ (Text.splitOn ditch source).length % 2 = 1 := by
  by_cases h : (Text.splitOn ditch source).length % 2 = 0
  · simp [strip, h]
  · have : (Text.splitOn ditch source).length % 2 = 1 := by omega
    simp [strip, this]

end Ditch

end Stencil
