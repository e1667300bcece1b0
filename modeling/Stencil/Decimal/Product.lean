import Stencil.Decimal.Real64

/-!
# Digits times a power of ten

How the doubles of JSON documents come about. The digits are collected into a significand of 64
bits, which is rounded to a double first; that double is then multiplied or divided by the power
of ten, itself a double, and rounded a second time. Digits that no longer fit are dropped; those
before the point count as zeros.
-/

namespace Stencil

namespace Real64

/-- The greatest power of ten that is a double. -/
def topPower : Nat := 308

/-- `f` at the mantissa and exponent of the double nearest to `10 ^ k`. -/
def withPower (k : Nat) (f : Nat → Int → Real64) : Real64 :=
  match ofNat (tenTo k) with
  | .finite _ m e => f m e
  | x => x

/-- Divides by `10 ^ k`, in steps of the greatest power. -/
def shrink (x : Real64) (k : Nat) : Real64 :=
  if x.same (zero false) then x
  else if _h : k ≤ topPower then withPower k (x.divideBy)
  else shrink (withPower topPower (x.divideBy)) (k - topPower)
termination_by k
decreasing_by simp only [topPower] at *; omega

/-- The significand `n` times `10 ^ e`. -/
def ofParts (n : Nat) (e : Int) : Real64 :=
  let x := ofNat n
  if n = 0 then x
  else if 0 ≤ e then
    if e ≤ topPower then withPower e.toNat (x.scaleBy) else .infinite false
  else x.shrink e.natAbs

/-- The digit `d` can still be added to the significand `n`. -/
def fits (n d : Nat) : Bool := n * 10 + d < UInt64.size

/-- Collects digits before the point: the significand, and how many digits were dropped. -/
def collectWhole (n : Nat) : List Nat → Nat × Nat
  | [] => (n, 0)
  | d :: ds => if fits n d then collectWhole (n * 10 + d) ds else (n, ds.length + 1)

/-- Collects digits after the point: the significand, and how many digits were taken. -/
def collectPart (n taken : Nat) : List Nat → Nat × Nat
  | [] => (n, taken)
  | d :: ds => if fits n d then collectPart (n * 10 + d) (taken + 1) ds else (n, taken)

end Real64

end Stencil
