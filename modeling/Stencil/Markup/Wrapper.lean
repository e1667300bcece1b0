import Stencil.Markup.Token

/-!
# Hidden tokens

A token may hide in a comment of its own: a comment start before it and a comment end after it,
with nothing but blanks in between. It then takes the comment with it.

**Claims** (`claim`). Tokens are taken from left to right. The text before a token is what its
predecessor has left of it; the text after it reaches up to the next token itself, so a comment
end belongs to the token before it.

**Pieces** (`Scan.pieces`). What is left: texts that are not empty, and tokens.
-/

namespace Stencil

/-- The comment around a token, and what it leaves of the texts on both sides. -/
structure Wrapper where
  before : Text
  lead : Text
  trail : Text
  after : Text

/-- The comment around a token between two texts. -/
def Markers.wrapper? (m : Markers) (before after : Text) : Option Wrapper :=
  (Text.upTo? m.commentStart (Text.trimEnd before)).bind fun kept =>
    (Text.after? m.commentEnd (Text.trimStart after)).map fun rest =>
      ⟨kept, before.drop kept.length, after.take (after.length - rest.length), rest⟩

/-- Lets the tokens after a text take their comments. -/
def claim (m : Markers) : Text → List (Token × Text) → Scan
  | before, [] => ⟨before, []⟩
  | before, (t, after) :: rest =>
    match m.wrapper? before after with
    | some w =>
      let s := claim m w.after rest
      ⟨w.before, ({ t with lead := w.lead, trail := w.trail }, s.head) :: s.tail⟩
    | none =>
      let s := claim m after rest
      ⟨before, (t, s.head) :: s.tail⟩

/-- The text cut at its tokens, comments with the tokens that hide in them. -/
def tokenize (m : Markers) (t : Text) : Scan :=
  let s := scan m t
  claim m s.head s.tail

/-! ## Pieces -/

/-- A stretch of text, or a token. -/
inductive Piece where
  | text (content : Text)
  | token (t : Token)
  deriving DecidableEq, Repr

/-- The piece that a text makes; none if it is empty. -/
def Piece.ofText (t : Text) : List Piece := if t.isEmpty then [] else [.text t]

def Scan.pieces (s : Scan) : List Piece :=
  Piece.ofText s.head ++ s.tail.flatMap fun (t, after) => .token t :: Piece.ofText after

/-- The text of a piece in the source. -/
def Piece.raw : Piece → Text
  | .text t => t
  | .token t => t.raw

theorem Scan.pieces_raw (s : Scan) : s.pieces.flatMap Piece.raw = s.text := by
  have h (t : Text) : (Piece.ofText t).flatMap Piece.raw = t := by
    cases t <;> simp [Piece.ofText, Piece.raw]
  obtain ⟨head, tail⟩ := s
  simp only [Scan.pieces, Scan.text, List.flatMap_append, h]
  induction tail with
  | nil => rfl
  | cons e tail ih =>
    obtain ⟨t, after⟩ := e
    have ih' := List.append_cancel_left ih
    simp [Piece.raw, h, ih']

end Stencil
