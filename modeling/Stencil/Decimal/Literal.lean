import Stencil.Decimal.Real64
import Stencil.Text.Basic

/-!
# Reading numbers

**Whole numbers** (`readNat?`, `readInt?`). Digits only, after at most one sign; a minus only
where the range admits negative numbers; nothing outside the range.

**Fractions** (`Literal`). A sign, decimal digits with at most one point among or around them,
and an exponent. Its value is the nearest number of the format that is asked for.
-/

namespace Stencil

namespace Text

/-- The value of a decimal digit. -/
def digit? (c : Char) : Option Nat :=
  if '0' ≤ c ∧ c ≤ '9' then some (c.toNat - '0'.toNat) else none

/-- The number that a list of digits spells, after the digits of `n`. -/
def readDigits? (n : Nat) : Text → Option Nat
  | [] => some n
  | c :: cs => (digit? c).bind fun d => readDigits? (n * 10 + d) cs

/-- A natural number: one digit or more, and nothing else. -/
def readNat? : Text → Option Nat
  | [] => none
  | t => readDigits? 0 t

/-- A natural number up to `hi`, with an optional plus sign. -/
def readUpTo? (hi : Nat) (t : Text) : Option Nat :=
  (readNat? (match t with | '+' :: r => r | t => t)).filter (· ≤ hi)

/-- A whole number from `-lo` to `hi`, with an optional sign. -/
def readInt? (lo hi : Nat) : Text → Option Int
  | '-' :: t => ((readNat? t).filter (· ≤ lo)).map fun n => -(n : Int)
  | t => (readUpTo? hi t).map Int.ofNat

/-- The digits at the start of a text, and the rest. -/
def spanDigits (t : Text) : Text × Text := t.span fun c => (digit? c).isSome

end Text

/-- A decimal literal: `significand * 10 ^ exponent` with a sign. -/
structure Literal where
  negative : Bool
  significand : Nat
  exponent : Int
  deriving DecidableEq, Repr

namespace Literal

open Text

/-- An exponent part: nothing, or a letter, an optional sign and digits. -/
def readExponent? : Text → Option Int
  | [] => some 0
  | c :: t =>
    if c = 'e' ∨ c = 'E' then
      match t with
      | '-' :: r => (readNat? r).map fun n => -(n : Int)
      | '+' :: r => (readNat? r).map Int.ofNat
      | r => (readNat? r).map Int.ofNat
    else none

/-- A literal without a sign. At least one digit stands before the exponent. -/
def readUnsigned? (negative : Bool) (t : Text) : Option Literal :=
  let (whole, r) := spanDigits t
  let (part, r) := match r with
    | '.' :: r => spanDigits r
    | r => ([], r)
  (readNat? (whole ++ part)).bind fun n =>
    (readExponent? r).map fun e => ⟨negative, n, e - part.length⟩

/-- Beyond these powers of ten every literal is infinite or zero. -/
def reach : Int := 400

/-- The value in a format given by its rounding function. -/
def value (round : Bool → Nat → Nat → Real64) (l : Literal) : Real64 :=
  let top := ((Text.ofNat l.significand).length : Int) + l.exponent
  if l.significand = 0 ∨ top < -reach then Real64.zero l.negative
  else if reach < top then .infinite l.negative
  else if 0 ≤ l.exponent then round l.negative (l.significand * tenTo l.exponent.toNat) 1
  else round l.negative l.significand (tenTo (-l.exponent).toNat)

end Literal

/-- A floating-point number in words or digits, through the rounding function of a format. -/
def Real64.read? (round : Bool → Nat → Nat → Real64) (t : Text) : Option Real64 :=
  let (negative, r) := match t with
    | '-' :: r => (true, r)
    | '+' :: r => (false, r)
    | r => (false, r)
  let word := r.map Char.toLower
  if word = ['i', 'n', 'f'] ∨ word = ['i', 'n', 'f', 'i', 'n', 'i', 't', 'y'] then
    some (.infinite negative)
  else if word = ['n', 'a', 'n'] then some .nan
  else (Literal.readUnsigned? negative r).map (Literal.value round)

end Stencil
