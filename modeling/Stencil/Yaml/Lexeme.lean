import Stencil.Yaml.Scalar

/-!
# Lexemes, and the layout they come from

**Lexemes.** Scalars and marks, and three that are not written but follow from the layout: the
start of a block list or map, its end, and the start of a key.

**Block collections** (`Layout.columns`). One is open for each column in which a list or map
started and to the left of which no lexeme has stood since.

**Keys** (`Layout.key`). That a scalar or a flow collection is a key shows only at its colon, so
each place where a key could have started is kept, one for every open flow collection. A key ends
on its line and within 1024 characters. In the column of a block map there is nothing but keys.

**Tabs.** Outside of flow collections no tab stands where a key may start (`Layout.fresh`).

Anchors, aliases, types, directives and block scalars are refused.
-/

namespace Stencil

namespace Yaml

inductive Lexeme where
  | documentStart
  | documentEnd
  | blockList
  | blockMap
  | blockEnd
  | dash
  | flowList
  | flowListEnd
  | flowMap
  | flowMapEnd
  | comma
  | key
  | colon
  | scalar (text : Text) (plain : Bool)
  deriving DecidableEq

/-- Where a key may have started, how many lexemes came before it, and whether it has to be one. -/
structure KeyStart where
  line : Nat
  col : Nat
  before : Nat
  required : Bool

/-- The layout up to a spot: the lexemes in reverse, the columns of the open block collections
from the innermost one, the last place where a key may have started, the same for what lies around
each open flow collection, and whether a key may start next. -/
structure Layout where
  lexemes : List Lexeme
  columns : List Nat
  key : Option KeyStart
  outer : List (Option KeyStart)
  fresh : Bool

/-- Skips spaces, comments and line ends. The second part says whether a key may start then. A
byte order mark takes up a column at the start of a line. -/
def skipGap (flow fresh comment : Bool) : List Spot → List Spot × Bool
  | [] => ([], fresh)
  | s :: t =>
    if isLineEnd s.char then skipGap flow (fresh || !flow) false t
    else if comment then skipGap flow fresh true t
    else if s.char = ' ' ∨ (s.char = '\t' ∧ (flow ∨ !fresh)) ∨ (s.char = '\uFEFF' ∧ s.col = 0) then
      skipGap flow fresh false t
    else if s.char = '#' then skipGap flow fresh true t
    else (s :: t, fresh)

/-- The place is too far back for a key that ends at `s`. -/
def KeyStart.isPast (k : KeyStart) (s : Spot) : Bool := k.line < s.line || k.col + 1024 < s.col

/-- The place, if a key from there could still end at `s`. -/
def checkKey (s : Spot) : Option KeyStart → Option (Option KeyStart)
  | some k => if !k.isPast s then some (some k) else if k.required then none else some none
  | none => some none

namespace Layout

def start : Layout := ⟨[], [], none, [], true⟩

/-- In a flow collection. -/
def inFlow (l : Layout) : Bool := !l.outer.isEmpty

def add (l : Layout) (x : Lexeme) : Layout := { l with lexemes := x :: l.lexemes }

/-- Ends the block collections right of a column. -/
def close (l : Layout) (isRight : Nat → Bool) : Layout :=
  if l.inFlow then l
  else
    { l with
      lexemes := (l.columns.takeWhile isRight).map (fun _ => .blockEnd) ++ l.lexemes
      columns := l.columns.dropWhile isRight }

/-- A block collection starts in the column, unless it is open already. -/
def opensAt (l : Layout) (col : Nat) : Bool := !l.inFlow && l.columns.head?.all (· < col)

/-- Starts a block collection in a column, unless it is open already. -/
def openAt (l : Layout) (col : Nat) (x : Lexeme) : Layout :=
  if l.opensAt col then { l.add x with columns := col :: l.columns } else l

/-- What has been read here is no key. -/
def dropKey (l : Layout) : Option Layout :=
  if l.key.any (·.required) then none else some { l with key := none }

/-- A key may start at a spot. -/
def startKey (l : Layout) (s : Spot) : Option Layout :=
  if l.fresh then
    l.dropKey.map fun l =>
      let required := !l.inFlow && l.columns.head? == some s.col
      { l with key := some ⟨s.line, s.col, l.lexemes.length, required⟩ }
  else some l

/-- Makes a key of what started at `k`. -/
def fixKey (l : Layout) (k : KeyStart) : Layout :=
  let later := l.lexemes.take (l.lexemes.length - k.before)
  let l := { l with lexemes := l.lexemes.drop later.length, key := none, fresh := false }
  let l := (l.openAt k.col .blockMap).add .key
  { l with lexemes := later ++ l.lexemes }

/-! ## Marks -/

def openFlow (l : Layout) (s : Spot) (x : Lexeme) : Option Layout :=
  (l.startKey s).map fun l =>
    { l.add x with key := none, outer := l.key :: l.outer, fresh := true }

def closeFlow (l : Layout) (x : Lexeme) : Option Layout :=
  l.dropKey.map fun l =>
    { l.add x with key := l.outer.headD none, outer := l.outer.tail, fresh := false }

/-- A mark that starts an entry of a block collection. -/
def addEntry (l : Layout) (s : Spot) (block x : Lexeme) : Option Layout :=
  if !l.inFlow && !l.fresh then none
  else (l.openAt s.col block).dropKey.map (·.add x)

def addColon (l : Layout) (s : Spot) : Option Layout :=
  match l.key with
  | some k => some ((l.fixKey k).add .colon)
  | none =>
    if l.inFlow then some { l.add .colon with fresh := false }
    else if l.fresh then some ((l.openAt s.col .blockMap).add .colon)
    else none

def addDocument (l : Layout) (x : Lexeme) : Option Layout :=
  (l.close fun _ => true).dropKey.map fun l => { l.add x with fresh := false }

/-! ## Reading -/

/-- Adds the lexeme that starts at the first spot. -/
def read (l : Layout) : List Spot → Option (Layout × List Spot)
  | [] => none
  | s :: t =>
    if Spot.atMark '-' (s :: t) then (l.addDocument .documentStart).map (·, t.drop 2)
    else if Spot.atMark '.' (s :: t) then (l.addDocument .documentEnd).map (·, t.drop 2)
    else if s.char = '[' then (l.openFlow s .flowList).map (·, t)
    else if s.char = '\x7b' then (l.openFlow s .flowMap).map (·, t)
    else if s.char = ']' then (l.closeFlow .flowListEnd).map (·, t)
    else if s.char = '\x7d' then (l.closeFlow .flowMapEnd).map (·, t)
    else if s.char = ',' then (l.dropKey).map fun l => ({ l.add .comma with fresh := true }, t)
    else if s.char = '-' ∧ Spot.atGap t then
      (l.addEntry s .blockList .dash).map fun l => ({ l with fresh := true }, t)
    else if s.char = '?' ∧ (l.inFlow ∨ Spot.atGap t) then
      (l.addEntry s .blockMap .key).map fun l => ({ l with fresh := !l.inFlow }, t)
    else if s.char = ':' ∧ (l.inFlow ∨ Spot.atGap t) then (l.addColon s).map (·, t)
    else if s.char = '\'' ∨ s.char = '"' then
      (l.startKey s).bind fun l =>
        (readQuoted s.char [] .empty 0 t).map fun (text, r) =>
          ({ l.add (.scalar text false) with fresh := false }, r)
    else if startsPlain l.inFlow (s :: t) then
      (l.startKey s).bind fun l =>
        (readPlain l.inFlow (l.columns.head?.elim 0 (· + 1)) [] .empty (s :: t)).map
          fun (text, ended, r) => ({ l.add (.scalar text true) with fresh := ended }, r)
    else none

/-- The lexemes of what follows, which are at most as many as `bound`. -/
def readAll : Nat → Layout → List Spot → Option (List Lexeme)
  | bound, l, ss =>
    match skipGap l.inFlow l.fresh false ss with
    | ([], _) => (l.close fun _ => true).dropKey.map (·.lexemes.reverse)
    | (s :: t, fresh) =>
      match bound with
      | 0 => none
      | bound + 1 =>
        (checkKey s l.key).bind fun key =>
          (l.outer.mapM (checkKey s)).bind fun outer =>
            let l := { l with key, outer, fresh }.close (s.col < ·)
            (l.read (s :: t)).bind fun (l, r) => readAll bound l r

end Layout

/-- The lexemes of a text, if it is laid out well. -/
def lexemes? (t : Text) : Option (List Lexeme) :=
  if t.all isAllowed then
    let ss := Spot.ofText 0 0 (unifyBreaks t)
    Layout.start.readAll ss.length ss
  else none

end Yaml

end Stencil
