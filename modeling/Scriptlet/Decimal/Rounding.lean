import Scriptlet.Decimal.Binary64

/-!
# Rounding to the nearest double

The double nearest to a quotient of natural numbers, with ties going to
the even mantissa. Bit patterns of non-negative doubles are in the order
of their values, and a mantissa that rounds up to `2 ^ 53` carries into
the exponent field by plain addition, so one formula covers subnormal,
normal and overflowing results.
-/

namespace Scriptlet.Binary64

/-- The quotient `n / d`, rounded to the nearest natural number, a half
going to the even neighbour. -/
def roundHalfEven (n d : Nat) : Nat :=
  let q := n / d
  let r := n % d
  if 2 * r < d ∨ (2 * r = d ∧ q % 2 = 0) then q else q + 1

/-- The exponent `e` with `2 ^ e ≤ n / d < 2 ^ (e + 1)`, for positive `n`
and `d`. The two logarithms fix it up to one. -/
def log2Quotient (n d : Nat) : Int :=
  let e : Int := (n.log2 : Int) - d.log2
  let above :=
    if 0 ≤ e then d * Nat.pow 2 e.toNat ≤ n else d ≤ n * Nat.pow 2 (-e).toNat
  if above then e else e - 1

/-- The power of two of which the double nearest to `n / d` is a whole
multiple: 53 bits below the leading one, but no finer than the subnormal
doubles. -/
def gridExponent (n d : Nat) : Int :=
  max minExponent (log2Quotient n d - 52)

def infinityBits : Nat := 2047 * Nat.pow 2 52

/-- The bit pattern of the double nearest to `n / d`. -/
def nearest (n d : Nat) : Nat :=
  if n = 0 then 0
  else
    let e := gridExponent n d
    let m :=
      if 0 ≤ e then roundHalfEven n (d * Nat.pow 2 e.toNat)
      else roundHalfEven (n * Nat.pow 2 (-e).toNat) d
    min ((e - minExponent).toNat * Nat.pow 2 52 + m) infinityBits

/-- The double with a sign and the bit pattern of a magnitude. -/
def signed (negative : Bool) (magnitude : Nat) : Float :=
  Float.ofBits
    (UInt64.ofNat (magnitude + if negative then Nat.pow 2 63 else 0))

/-- Positive infinity is past every magnitude that this many decimal
digits in front of the point denote. -/
def maxDigits : Int := 310

/-- A decimal with this many zeros behind the point is below half of the
least double. -/
def maxZeros : Int := 330

/-- The bit pattern of the double nearest to `digits * 10 ^ exponent`.
Exponents beyond the range of doubles are settled by size alone. -/
def nearestDecimal (digits : Nat) (exponent : Int) : Nat :=
  if digits = 0 then 0
  else
    let size : Int := (Nat.toDigits 10 digits).length + exponent
    if size > maxDigits then infinityBits
    else if size < -maxZeros then 0
    else if 0 ≤ exponent then nearest (digits * Nat.pow 10 exponent.toNat) 1
    else nearest digits (Nat.pow 10 (-exponent).toNat)

/-- The double nearest to a whole number, unless that is infinite. -/
def ofInt? (n : Int) : Option Float :=
  let bits := nearest n.natAbs 1
  if bits < infinityBits then some (signed (decide (n < 0)) bits) else none

end Scriptlet.Binary64
