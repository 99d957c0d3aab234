import Scriptlet.Decimal.Numeral
import Scriptlet.Decimal.Shortest

/-!
# Numbers as text

There are two notations. The general one, used where a value is shown
inside a message, writes the shortest digits and always shows a fraction or
an exponent: positional while the point stands no more than 16 digits behind
the first one and no more than three zeros before it, with an exponent of at
least two digits otherwise.

The plain one, which programs print, is made out of the general one. Its
exponent is carried out, and a whole number loses the fraction that the
general notation gives it.
-/

namespace Scriptlet

namespace Decimal

def row (d : Decimal) : List Char := Nat.toDigits 10 d.digits

/-- How many digits stand in front of the point; negative when zeros
follow it first. -/
def point (d : Decimal) : Int := d.row.length + d.exponent

/-- Positional notation, without a point when the value is whole. -/
def positional (d : Decimal) : List Char :=
  if 0 ≤ d.exponent then d.row ++ List.replicate d.exponent.toNat '0'
  else if 0 < d.point then
    d.row.take d.point.toNat ++ '.' :: d.row.drop d.point.toNat
  else '0' :: '.' :: List.replicate (-d.point).toNat '0' ++ d.row

/-- The exponent part: a sign and at least two digits. -/
def exponentPart (e : Int) : List Char :=
  let digits := Nat.toDigits 10 e.natAbs
  'e' :: (if e < 0 then '-' else '+') ::
    (List.replicate (2 - digits.length) '0' ++ digits)

/-- One digit in front of the point, and an exponent. -/
def scientific (d : Decimal) : List Char :=
  let mantissa :=
    match d.row with
    | first :: second :: rest => first :: '.' :: second :: rest
    | short => short
  mantissa ++ exponentPart (d.point - 1)

/-- Positional with a fraction, or scientific, by the size of the
number. -/
def general (d : Decimal) : List Char :=
  if d.point < -3 || 16 < d.point then d.scientific
  else if 0 ≤ d.exponent then d.positional ++ ['.', '0']
  else d.positional

/-- A numeral in positional notation. Its exponent is carried out, and all
its digits are kept, so `1.50e+01` becomes `15.0`. -/
def expand (numeral : List Char) : List Char :=
  let (negative, cs) := Numeral.splitSign numeral
  match Numeral.readUnsigned? cs with
  | some (digits, exponent) =>
    let written := positional ⟨digits, exponent⟩
    if negative then '-' :: written else written
  | none => numeral

/-- A positional numeral without the zeros that end its fraction, and without
a point that nothing follows. Zeros in front of a point stay, so what has no
point is left alone. -/
def dropFractionZeros (numeral : List Char) : List Char :=
  if '.' ∈ numeral then
    Text.trimEnd (· == '.') (Text.trimEnd (· == '0') numeral)
  else numeral

end Decimal

namespace Binary64

/-- The text of a double, given how its decimal is written. -/
def showWith (write : Decimal → List Char) : Binary64 → String
  | .nan => "nan"
  | .infinite negative => if negative then "-inf" else "inf"
  | .finite negative mantissa exponent =>
    let digits := write (Decimal.shortest mantissa exponent)
    String.ofList (if negative then '-' :: digits else digits)

/-- The text that messages show for a number. -/
def general (x : Float) : String :=
  (ofFloat x).showWith Decimal.general

/-- The text that programs print for a number. -/
def plain (x : Float) : String :=
  match ofFloat x with
  | .nan => "nan"
  | .infinite negative => if negative then "-inf" else "inf"
  | .finite negative mantissa exponent =>
    let numeral := (general x).toList
    if (toInt? (.finite negative mantissa exponent)).isSome then
      if mantissa = 0 ∧ negative then "-0"
      else String.ofList (Decimal.dropFractionZeros (Decimal.expand numeral))
    else if 'e' ∈ numeral then String.ofList (Decimal.expand numeral)
    else String.ofList numeral

end Binary64

end Scriptlet
