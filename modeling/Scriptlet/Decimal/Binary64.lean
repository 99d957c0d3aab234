/-!
# The doubles behind numbers

Numbers of the language are IEEE-754 doubles. To print and to read them
exactly, a double is taken apart into a sign, a mantissa and a power of
two; everything else in this directory is arithmetic on natural numbers.
-/

namespace Scriptlet

/-- A double, taken apart. A finite one is `mantissa * 2 ^ exponent` with
the given sign, where the mantissa is below `2 ^ 53` and the exponent is
at least `-1074`. -/
inductive Binary64 where
  | nan
  | infinite (negative : Bool)
  | finite (negative : Bool) (mantissa : Nat) (exponent : Int)
  deriving Repr, DecidableEq

namespace Binary64

/-- The least exponent of a finite double, that of the subnormal ones. -/
def minExponent : Int := -1074

/-- Reads the three fields of a bit pattern: one bit of sign, eleven of
exponent, 52 of fraction. -/
def ofBits (bits : UInt64) : Binary64 :=
  let n := bits.toNat
  let negative := n / Nat.pow 2 63 == 1
  let field : Nat := n / Nat.pow 2 52 % Nat.pow 2 11
  let fraction := n % Nat.pow 2 52
  if field = 2047 then
    if fraction = 0 then .infinite negative else .nan
  else if field = 0 then .finite negative fraction minExponent
  else .finite negative (Nat.pow 2 52 + fraction) ((field : Int) - 1075)

def ofFloat (x : Float) : Binary64 := ofBits x.toBits

/-- The whole number that a double is, if it is one. -/
def toInt? : Binary64 → Option Int
  | .finite negative mantissa exponent =>
    let scaled := mantissa * Nat.pow 2 exponent.toNat
    let divisor := Nat.pow 2 (-exponent).toNat
    if scaled % divisor = 0 then
      let n : Int := (scaled / divisor : Nat)
      some (if negative then -n else n)
    else none
  | _ => none

end Binary64

end Scriptlet
