import Scriptlet.Decimal.Rounding
import Scriptlet.Text.Blank
import Scriptlet.Text.Digit

/-!
# Reading numerals

A numeral may have white space around it, a sign, decimal digits of any
script with single underscores between them, a fraction and an exponent;
or it is one of the words `inf`, `infinity` and `nan` in any case. The
result is the nearest double, infinite when the numeral is too large.
-/

namespace Scriptlet.Numeral

open Text

/-- Digits of other scripts are replaced by those of ASCII. -/
def asciiForm (c : Char) : Char :=
  if c.toNat < 0x80 then c
  else
    match digitValue? c with
    | some v => digitChar v
    | none => c

/-- Drops the underscores, provided that each stands between two digits.
`before` is the character in front of the text. -/
def dropUnderscores? (before : Char) : List Char → Option (List Char)
  | [] => some []
  | '_' :: next :: rest =>
    if before.isDigit && next.isDigit then dropUnderscores? '_' (next :: rest)
    else none
  | ['_'] => none
  | c :: rest => (dropUnderscores? c rest).map (c :: ·)

/-- Splits off an optional sign, which is true for a minus. -/
def splitSign : List Char → Bool × List Char
  | '-' :: rest => (true, rest)
  | '+' :: rest => (false, rest)
  | cs => (false, cs)

/-- The exponent behind the digits: nothing, or `e`, a sign and digits. -/
def readExponent? : List Char → Option Int
  | [] => some 0
  | c :: rest =>
    let (negative, digits) := splitSign rest
    if (c == 'e' || c == 'E') && !digits.isEmpty && digits.all Char.isDigit
    then
      let n : Int := digitsToNat digits
      some (if negative then -n else n)
    else none

/-- A numeral without sign as a whole number and a power of ten. -/
def readUnsigned? (cs : List Char) : Option (Nat × Int) :=
  let whole := cs.takeWhile Char.isDigit
  let rest := cs.dropWhile Char.isDigit
  let (fraction, rest) :=
    match rest with
    | '.' :: more => (more.takeWhile Char.isDigit, more.dropWhile Char.isDigit)
    | _ => ([], rest)
  if whole.isEmpty && fraction.isEmpty then none
  else
    (readExponent? rest).map fun e =>
      (digitsToNat (whole ++ fraction), e - fraction.length)

/-- The numbers that have names. -/
def readWord? (negative : Bool) (cs : List Char) : Option Float :=
  let word := String.ofList (cs.map Char.toLower)
  if word == "inf" || word == "infinity" then
    some (Binary64.signed negative Binary64.infinityBits)
  else if word == "nan" then some (0.0 / 0.0)
  else none

/-- The number that a text denotes, or nothing if it is no numeral. -/
def read? (text : String) : Option Float :=
  let cs := (trim isWhiteSpace text.toList).map asciiForm
  match dropUnderscores? ' ' cs with
  | none => none
  | some cs =>
    let (negative, cs) := splitSign cs
    match readUnsigned? cs with
    | some (digits, exponent) =>
      some (Binary64.signed negative (Binary64.nearestDecimal digits exponent))
    | none => readWord? negative cs

end Scriptlet.Numeral
