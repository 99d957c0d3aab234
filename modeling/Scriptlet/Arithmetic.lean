import Scriptlet.Fault
import Scriptlet.Value.Shown
import Scriptlet.Decimal.Numeral

/-!
# Numbers and operators

A literal denotes the double nearest to its text. The four operators work
on two numbers, in double precision; a zero divisor of either sign is an
error. In a loaded tree an operator can be anything: what matters then is
first the operands, then the operator's length, then what it is.
-/

namespace Scriptlet

def Json.length? : Json → Option Nat
  | .text s => some s.length
  | .list items => some items.length
  | .object fields => some fields.length
  | _ => none

def evalLiteral : Json → Except Fault Value
  | .text s =>
    match Numeral.read? s with
    | some x => .ok (.number x)
    | none => .error (.eval (.badNumeral s))
  | .boolean b => .ok (.number (if b then 1.0 else 0.0))
  | .integer n =>
    match Binary64.ofInt? n with
    | some x => .ok (.number x)
    | none => .error .integerTooLarge
  | .real x => .ok (.number x)
  | other => .error (.notNumeric other.typeName)

def operand (v : Value) : Except Fault Float :=
  match v.toFloat? with
  | some x => .ok x
  | none => .error .integerTooLarge

def applyToFloats (operator : Json) (x y : Float) : Except EvalError Float :=
  match operator with
  | .text "+" => .ok (x + y)
  | .text "-" => .ok (x - y)
  | .text "*" => .ok (x * y)
  | .text "/" => if y == 0.0 then .error .divisionByZero else .ok (x / y)
  | other => .error (.unsupportedOperator other)

def applyOperator (operator : Json) (a b : Value) : Except Fault Value :=
  if !a.isNumber || !b.isNumber then
    .error (.eval (.operandTypes operator a.typeName b.typeName))
  else
    match operator.length? with
    | none => .error (.noLength operator.typeName)
    | some 1 => do
      let x ← operand a
      let y ← operand b
      match applyToFloats operator x y with
      | .ok z => return .number z
      | .error e => .error (.eval e)
    | some _ => .error (.eval (.invalidOperator operator))

end Scriptlet
