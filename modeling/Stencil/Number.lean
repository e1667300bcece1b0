import Stencil.Decimal.Literal
import Stencil.Decimal.Shortest

/-!
# Numbers in data

A number is kept as it came: a signed or an unsigned 64-bit integer, or a double. Two numbers of
different kinds are never the same, even when they stand for the same value.
-/

namespace Stencil

/-- A number of the caller's data. -/
inductive Number where
  | signed (n : Int64)
  | unsigned (n : UInt64)
  | real (x : Real64)
  deriving DecidableEq, Repr

namespace Number

/-- The text of a number. -/
def text : Number → Text
  | .signed n => Decimal.signed n.toInt
  | .unsigned n => Text.ofNat n.toNat
  | .real x => x.text

/-- The nearest double. -/
def toReal : Number → Real64
  | .signed n => Real64.ofInt n.toInt
  | .unsigned n => Real64.ofNat n.toNat
  | .real x => x

/-- Sameness of numbers of one kind; of doubles, numeric equality. -/
def same : Number → Number → Bool
  | .signed a, .signed b => a == b
  | .unsigned a, .unsigned b => a == b
  | .real a, .real b => a.same b
  | _, _ => false

/-- The types that a number can be given in. -/
inductive Width where
  | signed (bits : Nat)
  | unsigned (bits : Nat)
  | single
  | double
  deriving DecidableEq, Repr

/-- Reads a number of the given type; every type widens to one of the three kinds. -/
def read? : Width → Text → Option Number
  | .signed bits, t =>
    (Text.readInt? (twoTo (bits - 1)) (twoTo (bits - 1) - 1) t).map fun n => .signed (Int64.ofInt n)
  | .unsigned bits, t =>
    (Text.readUpTo? (twoTo bits - 1) t).map fun n => .unsigned (UInt64.ofNat n)
  | .single, t => (Real64.read? Real64.ofFractionSingle t).map .real
  | .double, t => (Real64.read? Real64.ofFraction t).map .real

end Number

end Stencil
