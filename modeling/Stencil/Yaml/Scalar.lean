import Stencil.Yaml.Basic

/-!
# Scalars

**Folding** (`Gap`). Spaces between two words of a line are kept. Between two lines, the spaces
before and after the line end are lost; a single line end becomes a space, and of several ones the
first is lost. A separator is never lost. A line end that was escaped becomes nothing.

**Quoted scalars** (`readQuoted`). A quote is doubled between single quotes. Between double quotes
there are escapes, and what an escape stands for is never lost in folding.

**Plain scalars** (`readPlain`). They end before a comment, before a colon that a gap follows,
before a line that is not indented enough, and in a flow collection before its marks.

No scalar runs across the mark of a document.
-/

namespace Stencil

namespace Yaml

/-! ## Folding -/

/-- What stands between two words, in reverse: spaces, or the first line end, unless it was
escaped, and those that follow. -/
inductive Gap where
  | spaces (t : Text)
  | lines (first : Option Char) (others : Text)

namespace Gap

def empty : Gap := .spaces []

def isEmpty : Gap → Bool
  | .spaces [] => true
  | _ => false

/-- A line was ended. -/
def isLines : Gap → Bool
  | .lines _ _ => true
  | .spaces _ => false

/-- The gap with one more space or line end. -/
def push : Gap → Char → Gap
  | .spaces t, c => if isLineEnd c then .lines (some c) [] else .spaces (c :: t)
  | .lines first others, c => .lines first (if isLineEnd c then c :: others else others)

/-- What is left of a gap, in reverse. -/
def folded : Gap → Text
  | .spaces t => t
  | .lines (some '\n') [] => [' ']
  | .lines (some '\n') others => others
  | .lines first others => others ++ first.toList

end Gap

/-! ## Quoted scalars -/

/-- The character of a short escape between double quotes. -/
def escaped? : Char → Option Char
  | '0' => some '\x00'
  | 'a' => some '\x07'
  | 'b' => some '\x08'
  | 't' | '\t' => some '\t'
  | 'n' => some '\n'
  | 'v' => some '\x0b'
  | 'f' => some '\x0c'
  | 'r' => some '\r'
  | 'e' => some '\x1b'
  | ' ' => some ' '
  | '"' => some '"'
  | '/' => some '/'
  | '\\' => some '\\'
  | 'N' => some '\u0085'
  | '_' => some '\u00a0'
  | 'L' => some '\u2028'
  | 'P' => some '\u2029'
  | _ => none

/-- The number of digits of an escape by code point. -/
def codeWidth? : Char → Option Nat
  | 'x' => some 2
  | 'u' => some 4
  | 'U' => some 8
  | _ => none

/-- The character with a hexadecimal code point. -/
def ofCode? (digits : Text) : Option Char :=
  (digits.foldlM (fun n c => (Text.hexDigit? c).map (n * 16 + ·)) 0).bind fun n =>
    if h : n.isValidChar then some (Char.ofNatAux n h) else none

/-- A quoted scalar after its opening quote, and what follows it. The scalar is collected in
reverse; `skip` characters belong to an escape already read. -/
def readQuoted (quote : Char) (acc : Text) (gap : Gap) :
    Nat → List Spot → Option (Text × List Spot)
  | _, [] => none
  | skip + 1, _ :: t => readQuoted quote acc gap skip t
  | 0, s :: t =>
    if Spot.atDocument (s :: t) then none
    else if isGap s.char then readQuoted quote acc (gap.push s.char) 0 t
    else
      let acc := gap.folded ++ acc
      if s.char = quote then
        if quote = '\'' ∧ t.head?.any (·.char = '\'') then readQuoted quote ('\'' :: acc) .empty 1 t
        else some (acc.reverse, t)
      else if s.char = '\\' ∧ quote = '"' then
        match t with
        | [] => none
        | e :: r =>
          if isLineEnd e.char then readQuoted quote acc (.lines none []) 1 t
          else
            match codeWidth? e.char with
            | some w =>
              if r.length < w then none
              else (ofCode? ((r.take w).map Spot.char)).bind fun x =>
                readQuoted quote (x :: acc) .empty (w + 1) t
            | none => (escaped? e.char).bind fun x => readQuoted quote (x :: acc) .empty 1 t
      else readQuoted quote (s.char :: acc) .empty 0 t

/-! ## Plain scalars -/

/-- A plain scalar can start here. -/
def startsPlain (flow : Bool) : List Spot → Bool
  | [] => false
  | s :: t =>
    if s.char = '-' then !Spot.atGap t
    else if s.char = '?' ∨ s.char = ':' then !flow && !Spot.atGap t
    else !(isGap s.char || isFlowMark s.char ||
      ['#', '&', '*', '!', '|', '>', '\'', '"', '%', '@', '\x60'].contains s.char)

/-- A plain scalar, whether lines were ended after it, and what follows. Lines that start left of
`indent` do not belong to it, and no tab may stand there. -/
def readPlain (flow : Bool) (indent : Nat) (acc : Text) (gap : Gap) :
    List Spot → Option (Text × Bool × List Spot)
  | [] => some (acc.reverse, gap.isLines, [])
  | s :: t =>
    let left := gap.isLines && s.col < indent
    if isGap s.char then
      if s.char = '\t' ∧ left then none else readPlain flow indent acc (gap.push s.char) t
    else if flow && s.char == ':' && Spot.atFlowMark t then none
    else if Spot.atDocument (s :: t) || (left && !flow) || (s.char == '#' && !gap.isEmpty) ||
        (s.char == ':' && Spot.atGap t) || (flow && isFlowMark s.char) then
      some (acc.reverse, gap.isLines, s :: t)
    else readPlain flow indent (s.char :: gap.folded ++ acc) .empty t

end Yaml

end Stencil
