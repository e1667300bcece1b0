import Stencil.Yaml.Lexeme

/-!
# Documents

A value is a scalar, a collection between flow marks, or a block collection. What stands between
two marks of a collection may be missing and is the empty scalar then. A block list in a map may
start in the column of its key, and then has neither start nor end (`flush`). In a flow list there
are no pairs without braces.

A text spells a value if it has a single document (`read?`). Every function here takes a bound on
the depth of its recursion, which `read?` supplies from the number of lexemes.
-/

namespace Stencil

namespace Yaml

/-- A lexeme that an entry of a block collection, or a part of it, cannot start with. -/
def endsEntry : Lexeme → Bool
  | .key | .colon | .blockEnd => true
  | _ => false

/-- A lexeme that an item of a block list cannot start with. -/
def endsItem (flush : Bool) (x : Lexeme) : Bool :=
  x == .dash || x == .blockEnd || (flush && endsEntry x)

/-- A lexeme that the value of an entry between braces cannot start with. -/
def endsFlowValue : Lexeme → Bool
  | .comma | .flowMapEnd => true
  | _ => false

/-- A lexeme that the key of an entry between braces cannot start with. -/
def endsFlowKey (x : Lexeme) : Bool := x == .colon || endsFlowValue x

def isDocumentMark (x : Lexeme) : Bool := x == .documentStart || x == .documentEnd

mutual

/-- The value that the lexemes start with. Block collections need `block`, and a list in the
column of its key needs `flush`. -/
def readValue : Nat → Bool → Bool → List Lexeme → Option (Yaml × List Lexeme)
  | 0, _, _, _ => none
  | fuel + 1, block, flush, xs =>
    match xs with
    | .scalar text plain :: t => some (.scalar text plain, t)
    | .flowList :: t => (readFlowItems fuel t).map fun (ys, t) => (.list ys, t)
    | .flowMap :: t => (readFlowEntries fuel t).map fun (es, t) => (.map es, t)
    | .dash :: _ =>
      if flush then (readItems fuel true xs).map fun (ys, t) => (.list ys, t) else none
    | .blockList :: t =>
      if block then (readItems fuel false t).map fun (ys, t) => (.list ys, t) else none
    | .blockMap :: t =>
      if block then (readEntries fuel t).map fun (es, t) => (.map es, t) else none
    | _ => none

/-- The value that the lexemes start with, or the empty scalar before one of the ends. -/
def readOptional : Nat → Bool → Bool → (Lexeme → Bool) → List Lexeme →
    Option (Yaml × List Lexeme)
  | 0, _, _, _, _ => none
  | fuel + 1, block, flush, ends, xs =>
    if xs.head?.any ends then some (empty, xs) else readValue fuel block flush xs

/-- The items of a block list. -/
def readItems : Nat → Bool → List Lexeme → Option (List Yaml × List Lexeme)
  | 0, _, _ => none
  | fuel + 1, flush, xs =>
    match xs with
    | .dash :: t =>
      (readOptional fuel true false (endsItem flush) t).bind fun (y, t) =>
        (readItems fuel flush t).map fun (ys, t) => (y :: ys, t)
    | .blockEnd :: t => some ([], if flush then xs else t)
    | _ => if flush then some ([], xs) else none

/-- The entries of a block map. -/
def readEntries : Nat → List Lexeme → Option (List (Yaml × Yaml) × List Lexeme)
  | 0, _ => none
  | fuel + 1, xs =>
    match xs with
    | .blockEnd :: t => some ([], t)
    | .key :: t =>
      (readOptional fuel true true endsEntry t).bind fun (k, t) =>
        let value? : Option (Yaml × List Lexeme) := match t with
          | .colon :: t => readOptional fuel true true endsEntry t
          | t => some (empty, t)
        value?.bind fun (v, t) => (readEntries fuel t).map fun (es, t) => ((k, v) :: es, t)
    | _ => none

/-- The items up to a closing bracket. -/
def readFlowItems : Nat → List Lexeme → Option (List Yaml × List Lexeme)
  | 0, _ => none
  | fuel + 1, xs =>
    match xs with
    | .flowListEnd :: t => some ([], t)
    | _ =>
      (readValue fuel false false xs).bind fun (y, t) =>
        match t with
        | .comma :: t => (readFlowItems fuel t).map fun (ys, t) => (y :: ys, t)
        | .flowListEnd :: t => some ([y], t)
        | _ => none

/-- The entries up to a closing brace. -/
def readFlowEntries : Nat → List Lexeme → Option (List (Yaml × Yaml) × List Lexeme)
  | 0, _ => none
  | fuel + 1, xs =>
    match xs with
    | .flowMapEnd :: t => some ([], t)
    | _ =>
      let entry? : Option ((Yaml × Yaml) × List Lexeme) := match xs with
        | .key :: t =>
          (readOptional fuel false false endsFlowKey t).bind fun (k, t) =>
            match t with
            | .colon :: t =>
              (readOptional fuel false false endsFlowValue t).map fun (v, t) => ((k, v), t)
            | t => some ((k, empty), t)
        | xs => (readValue fuel false false xs).map fun (k, t) => ((k, empty), t)
      entry?.bind fun (e, t) =>
        match t with
        | .comma :: t => (readFlowEntries fuel t).map fun (es, t) => (e :: es, t)
        | .flowMapEnd :: t => some ([e], t)
        | _ => none

end

/-- The value of the first document, and what follows it. -/
def readDocument (fuel : Nat) : List Lexeme → Option (Yaml × List Lexeme)
  | [] => some (empty, [])
  | .documentStart :: t =>
    if t.isEmpty then some (empty, t) else readOptional fuel true false isDocumentMark t
  | xs => readValue fuel true false xs

/-- The value that a text with a single document spells. -/
def read? (t : Text) : Option Yaml :=
  (lexemes? t).bind fun xs =>
    ((readDocument (3 * xs.length + 3) xs).filter fun (_, r) =>
      r.all (· == .documentEnd)).map (·.1)

end Yaml

end Stencil
