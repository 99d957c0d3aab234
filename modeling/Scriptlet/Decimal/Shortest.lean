import Scriptlet.Decimal.Binary64

/-!
# The shortest decimal of a double

Of the decimals that round to a given double, the one with the fewest
digits is shown, and of those the nearest. Such a decimal is a multiple of
the coarsest power of ten with a multiple between the midpoints to the two
neighbouring doubles; the midpoints themselves count when the mantissa is
even, since ties are read to even. On each grid only the two multiples
next to the double need to be looked at.
-/

namespace Scriptlet

/-- The decimal `digits * 10 ^ exponent`. -/
structure Decimal where
  digits : Nat
  exponent : Int
  deriving Repr, DecidableEq

namespace Decimal

/-- A positive double in quarters of its unit in the last place: `centre`
quarters, and the distances to the midpoints below and above. -/
structure Window where
  centre : Nat
  below : Nat
  above : Nat
  /-- The power of two that one quarter is worth. -/
  exponent : Int
  closed : Bool
  deriving Repr, DecidableEq

/-- The midpoint below a power of two is nearer, as the doubles under it
are twice as dense. -/
def Window.of (mantissa : Nat) (exponent : Int) : Window where
  centre := 4 * mantissa
  below :=
    if mantissa = Nat.pow 2 52 ∧ Binary64.minExponent < exponent then 1 else 2
  above := 2
  exponent := exponent - 2
  closed := mantissa % 2 = 0

/-- What a quarter and a multiple of `10 ^ place` have to be scaled by to
become whole numbers of one unit: the pair of both factors. -/
def Window.scales (w : Window) (place : Int) : Nat × Nat :=
  (Nat.pow 10 (-place).toNat * Nat.pow 2 w.exponent.toNat,
    Nat.pow 10 place.toNat * Nat.pow 2 (-w.exponent).toNat)

/-- Whether `k * 10 ^ place` lies between the two midpoints. -/
def Window.contains (w : Window) (place : Int) (k : Nat) : Bool :=
  let (quarter, unit) := w.scales place
  let low := (w.centre - w.below) * quarter
  let high := (w.centre + w.above) * quarter
  if w.closed then low ≤ k * unit && k * unit ≤ high
  else low < k * unit && k * unit < high

/-- The multiple of `10 ^ place` nearest to the centre, if one lies in the
window; of two at the same distance, the even one. -/
def Window.pick? (w : Window) (place : Int) : Option Nat :=
  let (quarter, unit) := w.scales place
  let k := w.centre * quarter / unit
  let low := 0 < k && w.contains place k
  let high := w.contains place (k + 1)
  if low && high then
    let toLow := w.centre * quarter - k * unit
    let toHigh := (k + 1) * unit - w.centre * quarter
    if toLow < toHigh || (toLow == toHigh && k % 2 == 0) then some k
    else some (k + 1)
  else if low then some k
  else if high then some (k + 1)
  else none

/-- Tries ever finer grids, from `10 ^ place` on. -/
def Window.search (w : Window) : Nat → Int → Decimal
  | 0, place =>
    let (quarter, unit) := w.scales place
    ⟨w.centre * quarter / unit, place⟩
  | tries + 1, place =>
    match w.pick? place with
    | some k => ⟨k, place⟩
    | none => w.search tries (place - 1)

/-- The place of the first digit of `mantissa * 2 ^ exponent`, counted so
that the value lies between `10 ^ (place - 1)` and `10 ^ place`. It is read
off the whole part if there is one. The least double is above `10 ^ -343`,
so otherwise a shift by that many places gives a whole part to count. -/
def leadingPlace (mantissa : Nat) (exponent : Int) : Int :=
  let divisor := Nat.pow 2 (-exponent).toNat
  let whole := mantissa * Nat.pow 2 exponent.toNat / divisor
  if 0 < whole then (Nat.toDigits 10 whole).length
  else (Nat.toDigits 10 (mantissa * Nat.pow 10 343 / divisor)).length - 343

/-- The shortest decimal that rounds to `mantissa * 2 ^ exponent`; 17
digits always suffice. -/
def shortest (mantissa : Nat) (exponent : Int) : Decimal :=
  if mantissa = 0 then ⟨0, 0⟩
  else
    (Window.of mantissa exponent).search 18 (leadingPlace mantissa exponent)

end Decimal

end Scriptlet
