/-!
# Binary floating-point numbers, exactly

**The type** (`Real64`). A double-precision number as what it stands for: not a number, an
infinity, or `mantissa * 2 ^ exponent` with a sign. Finite numbers are kept canonical, with a
mantissa of 53 bits unless the exponent is the least one, so the zeros are `0 * 2 ^ (-1074)`.

**Rounding** (`Format.round`). A positive fraction goes to the nearest number of a format, a
tie to the even mantissa, and what lies beyond the largest number to infinity. Every operation
computes its exact result as a fraction of natural numbers and rounds it once.
-/

namespace Stencil

/-- A power of two. -/
def twoTo (k : Nat) : Nat := Nat.pow 2 k

/-- A power of ten. -/
def tenTo (k : Nat) : Nat := Nat.pow 10 k

/-- A binary format: bits of the mantissa, and the least and the greatest exponent of two. -/
structure Format where
  precision : Nat
  minExp : Int
  maxExp : Int

/-- Double precision. -/
def Format.double : Format := ⟨53, -1074, 971⟩

/-- Single precision. -/
def Format.single : Format := ⟨24, -149, 104⟩

/-- The quotient rounded to the nearest natural number, a tie to the even one. -/
def roundDiv (n d : Nat) : Nat :=
  let k := n / d
  let r := 2 * (n % d)
  if r < d then k else if d < r then k + 1 else k + k % 2

/-- `n / d` scaled by `2 ^ (-e)` and rounded. -/
def roundScaled (n d : Nat) (e : Int) : Nat :=
  if 0 ≤ e then roundDiv n (d * twoTo e.toNat) else roundDiv (n * twoTo (-e).toNat) d

/-- The exponent `e` with `2 ^ e ≤ n / d < 2 ^ (e + 1)`, for positive `n` and `d`. -/
def floorLog (n d : Nat) : Int :=
  let e : Int := (n.log2 : Int) - (d.log2 : Int)
  let reached : Bool := if 0 ≤ e then d * twoTo e.toNat ≤ n else d ≤ n * twoTo (-e).toNat
  if reached then e else e - 1

/-- A double-precision number. -/
inductive Real64 where
  | nan
  | infinite (negative : Bool)
  | finite (negative : Bool) (mantissa : Nat) (exponent : Int)
  deriving DecidableEq, Repr

/-- Rounds the positive fraction `n / d` to a mantissa and an exponent; `none` beyond the
largest number of the format. -/
def Format.round (f : Format) (n d : Nat) : Option (Nat × Int) :=
  let e := max (floorLog n d - (f.precision - 1)) f.minExp
  let m := roundScaled n d e
  let (m, e) := if m = twoTo f.precision then (twoTo (f.precision - 1), e + 1) else (m, e)
  if f.maxExp < e then none else some (m, e)

namespace Real64

/-- Zero, with its sign. -/
def zero (negative : Bool) : Real64 := .finite negative 0 Format.double.minExp

/-- The double nearest to the fraction `n / d`. -/
def ofFraction (negative : Bool) (n d : Nat) : Real64 :=
  if n = 0 then zero negative
  else match Format.double.round n d with
    | some (m, e) => .finite negative m e
    | none => .infinite negative

/-- The fraction `m * 2 ^ e` as numerator and denominator. -/
def fraction (m : Nat) (e : Int) : Nat × Nat :=
  if 0 ≤ e then (m * twoTo e.toNat, 1) else (m, twoTo (-e).toNat)

/-- The single-precision number nearest to the fraction `n / d`, as a double. -/
def ofFractionSingle (negative : Bool) (n d : Nat) : Real64 :=
  if n = 0 then zero negative
  else match Format.single.round n d with
    | some (m, e) =>
      let (n, d) := fraction m e
      ofFraction negative n d
    | none => .infinite negative

/-- The double nearest to an integer. -/
def ofInt (n : Int) : Real64 := ofFraction (decide (n < 0)) n.natAbs 1

/-- The double nearest to a natural number. -/
def ofNat (n : Nat) : Real64 := ofFraction false n 1

def neg : Real64 → Real64
  | .nan => .nan
  | .infinite s => .infinite (!s)
  | .finite s m e => .finite (!s) m e

/-- A finite number times the finite number `m * 2 ^ e`, rounded once. -/
def scaleBy (x : Real64) (m : Nat) (e : Int) : Real64 :=
  match x with
  | .finite s m' e' =>
    let (n, d) := fraction (m * m') (e + e')
    ofFraction s n d
  | x => x

/-- A finite number divided by the finite number `m * 2 ^ e`, rounded once. -/
def divideBy (x : Real64) (m : Nat) (e : Int) : Real64 :=
  match x with
  | .finite s m' e' =>
    let (n, d) := fraction m' (e' - e)
    ofFraction s n (d * m)
  | x => x

/-- Equality of numbers: not-a-number differs from itself, and the two zeros are equal. -/
def same : Real64 → Real64 → Bool
  | .infinite s, .infinite s' => s == s'
  | .finite s m e, .finite s' m' e' => (m == 0 && m' == 0) || (s == s' && m == m' && e == e')
  | _, _ => false

theorem same_nan (x : Real64) : same .nan x = false := by cases x <;> rfl

theorem same_zeros (s s' : Bool) : same (zero s) (zero s') = true := by
  simp [same, zero]

end Real64

/-- **Rounding to the nearest**: the quotient is off by at most half of the divisor. -/
theorem roundDiv_near {n d : Nat} (hd : 0 < d) :
    2 * (roundDiv n d * d) ≤ 2 * n + d ∧ 2 * n ≤ 2 * (roundDiv n d * d) + d := by
  have h1 := Nat.div_add_mod n d
  have h2 := Nat.mod_lt n hd
  rw [Nat.mul_comm] at h1
  simp only [roundDiv]
  split
  · omega
  · split
    · rw [Nat.add_mul]; omega
    · have : n / d % 2 < 2 := Nat.mod_lt _ (by decide)
      rw [Nat.add_mul]
      rcases (by omega : n / d % 2 = 0 ∨ n / d % 2 = 1) with h | h <;> rw [h] <;> omega

end Stencil
