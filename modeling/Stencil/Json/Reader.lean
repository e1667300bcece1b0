import Stencil.Decimal.Product
import Stencil.Json.Basic
import Stencil.Text.Class

/-!
# Reading JSON

A reader of whole documents. Every step consumes input, so twice the length of the text bounds
the depth of the recursion; `Json.read?` supplies that bound.

**Numbers.** An integer literal is a signed integer if it fits, else an unsigned one, else a
double. A literal with a point or an exponent is a double, and so is minus zero.

**Strings.** Escapes for code units are joined in pairs where they form one character.
-/

namespace Stencil

namespace Json

open Text

def skip : Text → Text
  | c :: t => if c = ' ' ∨ c = '\t' ∨ c = '\n' ∨ c = '\r' then skip t else c :: t
  | [] => []

/-! ## Strings -/

def hex4? (a b c d : Char) : Option Nat :=
  [a, b, c, d].foldlM (fun n x => (hexDigit? x).map (n * 16 + ·)) 0

/-- The code units of a string up to its closing quote, and the rest of the text. -/
def readUnits : Text → Option (List Nat × Text)
  | '"' :: r => some ([], r)
  | '\\' :: 'u' :: a :: b :: c :: d :: r =>
    (hex4? a b c d).bind fun n => (readUnits r).map fun (us, r) => (n :: us, r)
  | '\\' :: c :: r =>
    let unit? := match c with
      | '"' => some 0x22
      | '\\' => some 0x5C
      | '/' => some 0x2F
      | 'b' => some 0x08
      | 'f' => some 0x0C
      | 'n' => some 0x0A
      | 'r' => some 0x0D
      | 't' => some 0x09
      | _ => none
    unit?.bind fun n => (readUnits r).map fun (us, r) => (n :: us, r)
  | c :: r => (readUnits r).map fun (us, r) => (c.toNat :: us, r)
  | [] => none

/-- Joins pairs of code units that stand for one character; a lone half is replaced. -/
def joinUnits : List Nat → Text
  | [] => []
  | a :: us =>
    if 0xD800 ≤ a ∧ a < 0xE000 then
      match us with
      | b :: rest =>
        if a < 0xDC00 ∧ 0xDC00 ≤ b ∧ b < 0xE000 then
          Char.ofNat (0x10000 + (a - 0xD800) * 0x400 + (b - 0xDC00)) :: joinUnits rest
        else '\uFFFD' :: joinUnits (b :: rest)
      | [] => ['\uFFFD']
    else Char.ofNat a :: joinUnits us

def readText (t : Text) : Option (Text × Text) :=
  (readUnits t).map fun (us, r) => (joinUnits us, r)

/-! ## Numbers -/

/-- The number that an integer literal without overflow stands for. -/
def ofInteger (negative : Bool) (n : Nat) : Number :=
  if negative then
    if n = 0 then .real (Real64.zero true)
    else if n ≤ twoTo 63 then .signed (Int64.ofInt (-(n : Int)))
    else .real (Real64.ofNat n).neg
  else if n < twoTo 63 then .signed (Int64.ofInt n)
  else .unsigned (UInt64.ofNat n)

def digits (t : Text) : List Nat := t.filterMap digit?

/-- A number literal at the start of the text. -/
def readNumber (t : Text) : Option (Number × Text) :=
  let (negative, r) := match t with
    | '-' :: r => (true, r)
    | r => (false, r)
  let (whole, r) := spanDigits r
  if whole.isEmpty then none
  else
    let (part?, r) := match r with
      | '.' :: r => let (p, r) := spanDigits r; (some p, r)
      | r => (none, r)
    let (lit, r) := match r with
      | c :: s =>
        if c = 'e' ∨ c = 'E' then
          let (sign, s) := match s with
            | '+' :: s => (['+'], s)
            | '-' :: s => (['-'], s)
            | s => ([], s)
          let (ds, s) := spanDigits s
          (c :: (sign ++ ds), s)
        else ([], r)
      | [] => ([], r)
    let (n, dropped) := Real64.collectWhole 0 (digits whole)
    if part?.isNone && lit.isEmpty && dropped == 0 then some (ofInteger negative n, r)
    else if part? = some [] then none
    else (Literal.readExponent? lit).map fun e =>
      let (n, taken) := Real64.collectPart n 0 (digits (part?.getD []))
      let x := Real64.ofParts n ((dropped : Int) - taken + e)
      (.real (if negative then x.neg else x), r)

/-! ## Documents -/

mutual

/-- A value, after blanks. -/
def readValue : Nat → Text → Option (Json × Text)
  | 0, _ => none
  | fuel + 1, t =>
    match skip t with
    | 'n' :: 'u' :: 'l' :: 'l' :: r => some (.null, r)
    | 't' :: 'r' :: 'u' :: 'e' :: r => some (.bool true, r)
    | 'f' :: 'a' :: 'l' :: 's' :: 'e' :: r => some (.bool false, r)
    | '"' :: r => (readText r).map fun (s, r) => (.text s, r)
    | '[' :: r =>
      match skip r with
      | ']' :: r => some (.array [], r)
      | r => (readItems fuel r).map fun (xs, r) => (.array xs, r)
    | '\x7b' :: r =>
      match skip r with
      | '\x7d' :: r => some (.object [], r)
      | r => (readFields fuel r).map fun (fs, r) => (ofFields fs, r)
    | r => (readNumber r).map fun (n, r) => (.number n, r)

/-- The elements of an array that is not empty, up to its closing bracket. -/
def readItems : Nat → Text → Option (List Json × Text)
  | 0, _ => none
  | fuel + 1, t =>
    (readValue fuel t).bind fun (x, r) =>
      match skip r with
      | ',' :: r => (readItems fuel r).map fun (xs, r) => (x :: xs, r)
      | ']' :: r => some ([x], r)
      | _ => none

/-- The fields of an object that is not empty, up to its closing brace. -/
def readFields : Nat → Text → Option (List (Text × Json) × Text)
  | 0, _ => none
  | fuel + 1, t =>
    match skip t with
    | '"' :: r =>
      (readText r).bind fun (k, r) =>
        match skip r with
        | ':' :: r =>
          (readValue fuel r).bind fun (v, r) =>
            match skip r with
            | ',' :: r => (readFields fuel r).map fun (fs, r) => ((k, v) :: fs, r)
            | '\x7d' :: r => some ([(k, v)], r)
            | _ => none
        | _ => none
    | _ => none

end

/-- The document that a text spells. -/
def read? (t : Text) : Option Json :=
  match readValue (2 * t.length + 2) t with
  | some (j, r) => if (skip r).isEmpty then some j else none
  | none => none

end Json

end Stencil
