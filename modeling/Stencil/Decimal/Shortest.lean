import Stencil.Decimal.Real64
import Stencil.Text.Basic

/-!
# The fewest digits that read back

**The digits** (`Real64.shortest`). Every positive double stands for the interval of reals that
round to it, ends included when its mantissa is even. For one digit, two digits and so on, the
two neighbours of the number on that decimal grid are tested; the first grid with a neighbour in
the interval wins, and of two such neighbours the nearer.

**Two forms.** `Real64.text` never writes an exponent, and of two digits that are equally near it
takes the greater. `Real64.keyText` always marks the number as fractional, goes over to an exponent
for very large and very small numbers, and of two digits that are equally near takes the even one.
-/

namespace Stencil

/-- `digits * 10 ^ exponent`, where the digits do not end in a zero. -/
structure Decimal where
  digits : Text
  exponent : Int
  deriving DecidableEq, Repr

namespace Decimal

/-- The number of decimal digits. -/
def width (n : Nat) : Nat := (Text.ofNat n).length

/-- The position of the first digit of `n / d`: the least `p` with `n / d < 10 ^ p`. -/
def magnitude (n d : Nat) : Int :=
  if d ≤ n then width (n / d) else 1 - (width ((d - 1) / n) : Int)

/-- A fraction with everything times `10 ^ e`. -/
def scaled (n d : Nat) (e : Int) : Nat × Nat :=
  if 0 ≤ e then (n * tenTo e.toNat, d) else (n, d * tenTo (-e).toNat)

/-- The reals that round to `v / d`: those from `lo / d` to `hi / d`. -/
structure Interval where
  lo : Nat
  v : Nat
  hi : Nat
  d : Nat
  closed : Bool

/-- The grid point `k * 10 ^ e` lies in the interval. -/
def Interval.holds (i : Interval) (k : Nat) (e : Int) : Bool :=
  let (n, m) := scaled k 1 e
  let x := n * i.d
  if i.closed then i.lo * m ≤ x && x ≤ i.hi * m else i.lo * m < x && x < i.hi * m

/-- Which of the neighbours `k` and `k + 1` a number in the middle between them goes to. -/
inductive Tie where
  | up
  | even
  deriving DecidableEq, Repr

/-- A number in the middle between `k` and `k + 1` goes to `k`. -/
def Tie.isDown (tie : Tie) (k : Nat) : Bool := tie == .even && k % 2 == 0

/-- The neighbour of `v` on the grid of `10 ^ e` that lies in the interval, the nearer of two. -/
def Interval.neighbour? (i : Interval) (tie : Tie) (e : Int) : Option Nat :=
  let (n, m) := scaled i.v i.d (-e)
  let k := n / m
  match i.holds k e, i.holds (k + 1) e with
  | true, true =>
    let rest := 2 * (n % m)
    some (if rest < m || (rest == m && tie.isDown k) then k else k + 1)
  | true, false => some k
  | false, true => some (k + 1)
  | false, false => none

/-- Digits without the zeros at their end. -/
def ofScaled (k : Nat) (e : Int) : Decimal :=
  let ds := Text.ofNat k
  let kept := (ds.reverse.dropWhile (· == '0')).reverse
  ⟨kept, e + (ds.length - kept.length : Nat)⟩

/-- The shortest decimal in the interval; seventeen digits always suffice. -/
def Interval.shortest (i : Interval) (tie : Tie) : Decimal :=
  let p := magnitude i.v i.d
  let found := (List.range 17).findSome? fun j =>
    let e := p - (j + 1 : Nat)
    (i.neighbour? tie e).map fun k => ofScaled k e
  found.getD (ofScaled i.v 0)

/-- The interval of the double `m * 2 ^ e`, in units of a quarter of its last bit. Below a
power of two the numbers lie twice as close. -/
def Interval.ofDouble (m : Nat) (e : Int) : Interval :=
  let (n, d) := Real64.fraction 1 (e - 2)
  let below := if m = twoTo (Format.double.precision - 1) ∧ e ≠ Format.double.minExp then 1 else 2
  ⟨(4 * m - below) * n, 4 * m * n, (4 * m + 2) * n, d, m % 2 == 0⟩

def zeros (n : Nat) : Text := List.replicate n '0'

/-- Digits with a point where it belongs, and no exponent. -/
def positional (d : Decimal) : Text :=
  let point := (d.digits.length : Int) + d.exponent
  if 0 ≤ d.exponent then d.digits ++ zeros d.exponent.toNat
  else if 0 < point then d.digits.take point.toNat ++ '.' :: d.digits.drop point.toNat
  else '0' :: '.' :: (zeros (-point).toNat ++ d.digits)

/-- A whole number with a minus sign if it is negative. -/
def signed (n : Int) : Text := if n < 0 then '-' :: Text.ofNat n.natAbs else Text.ofNat n.natAbs

/-- An exponent with its sign, also if it is positive. -/
def exponentText (n : Int) : Text := 'e' :: if n < 0 then signed n else '+' :: signed n

/-- Digits with a point from `10 ^ (-5)` up to `10 ^ 16`, and with an exponent elsewhere. -/
def pointed (d : Decimal) : Text :=
  let point := (d.digits.length : Int) + d.exponent
  if -5 < point ∧ point ≤ 16 then
    if 0 ≤ d.exponent then d.positional ++ ['.', '0'] else d.positional
  else
    let (first, rest) := (d.digits.take 1, d.digits.drop 1)
    first ++ (if rest.isEmpty then [] else '.' :: rest) ++ exponentText (point - 1)

end Decimal

namespace Real64

/-- The shortest decimal that reads back as `m * 2 ^ e`. -/
def shortest (tie : Decimal.Tie) (m : Nat) (e : Int) : Decimal :=
  (Decimal.Interval.ofDouble m e).shortest tie

def sign (negative : Bool) : Text := if negative then ['-'] else []

/-- The text of a number: shortest digits, no exponent, and no point in a whole number. -/
def text : Real64 → Text
  | .nan => ['N', 'a', 'N']
  | .infinite s => sign s ++ ['i', 'n', 'f']
  | .finite s m e => sign s ++ if m = 0 then ['0'] else (shortest .up m e).positional

/-- The text of a finite number that serves as a key: always with a point or an exponent. -/
def keyText : Real64 → Text
  | .finite s m e => sign s ++ if m = 0 then ['0', '.', '0'] else (shortest .even m e).pointed
  | x => x.text

end Real64

end Stencil
