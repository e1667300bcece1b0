import Stencil.Text.Class

/-!
# YAML values, and the places of characters

**Values** (`Yaml`). Scalars, with a note whether they were written without quotes; lists; and
maps, whose entries keep their order and may repeat.

**Spots.** A text is read as a list of spots: characters with their lines and columns. What is left
to read always knows where it is.

**Line ends.** Carriage return, line feed, both together and the next-line character are one and
the same. The line and paragraph separators end lines too, but folding keeps them.
-/

namespace Stencil

inductive Yaml where
  | scalar (text : Text) (plain : Bool)
  | list (xs : List Yaml)
  | map (entries : List (Yaml × Yaml))

namespace Yaml

/-- The scalar that stands for nothing. -/
def empty : Yaml := .scalar [] true

/-! ## Characters -/

/-- A character that a document may contain: no control but tabs and line ends. -/
def isAllowed (c : Char) : Bool :=
  let n := c.toNat
  (0x20 ≤ n && n ≤ 0x7E) || n == 0x85 || (0xA0 ≤ n && n ≤ 0xFFFD) || 0x10000 ≤ n ||
    c == '\t' || Text.isBreak c

/-- Line ends in one form. -/
def unifyBreaks : Text → Text
  | '\r' :: '\n' :: t => '\n' :: unifyBreaks t
  | '\r' :: t => '\n' :: unifyBreaks t
  | '\u0085' :: t => '\n' :: unifyBreaks t
  | c :: t => c :: unifyBreaks t
  | [] => []

/-- The end of a line, once line ends have one form. -/
def isLineEnd (c : Char) : Bool := c == '\n' || c == '\u2028' || c == '\u2029'

def isSpace (c : Char) : Bool := c == ' ' || c == '\t'

/-- What separates words. -/
def isGap (c : Char) : Bool := isSpace c || isLineEnd c

/-- A character that ends a plain scalar in a flow collection. -/
def isFlowMark (c : Char) : Bool := [',', '[', ']', '\x7b', '\x7d'].contains c

/-! ## Spots -/

structure Spot where
  char : Char
  line : Nat
  col : Nat

namespace Spot

/-- The characters of a text that starts at a line and a column. -/
def ofText : Nat → Nat → Text → List Spot
  | _, _, [] => []
  | line, col, c :: t =>
    ⟨c, line, col⟩ :: if isLineEnd c then ofText (line + 1) 0 t else ofText line (col + 1) t

/-- A gap or the end of the text comes next. -/
def atGap : List Spot → Bool
  | [] => true
  | s :: _ => isGap s.char

/-- A mark of a flow collection comes next, or what could start an explicit key. -/
def atFlowMark : List Spot → Bool
  | [] => false
  | s :: _ => isFlowMark s.char || s.char == '?'

/-- Three times the character `c`, at the start of a line and followed by a gap. -/
def atMark (c : Char) : List Spot → Bool
  | s₁ :: s₂ :: s₃ :: t =>
    s₁.col == 0 && s₁.char == c && s₂.char == c && s₃.char == c && atGap t
  | _ => false

/-- The start or the end of a document is marked here. -/
def atDocument (ss : List Spot) : Bool := atMark '-' ss || atMark '.' ss

@[simp] theorem map_char_ofText (line col : Nat) (t : Text) :
    (ofText line col t).map Spot.char = t := by
  induction t generalizing line col with
  | nil => rfl
  | cons c t ih => by_cases h : isLineEnd c = true <;> simp [ofText, h, ih]

end Spot

end Yaml

end Stencil
