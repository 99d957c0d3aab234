import Scriptlet.Tree.Basic
import Scriptlet.Json.Shown

/-!
# What can go wrong in a run

Errors of the language have a kind, which their message begins with, and
are what a shell or a command reports. Faults are the wider class: a
loaded tree can hold things that the evaluator has no error for, a host
function can run out of memory, and a run can nest too deeply.
-/

namespace Scriptlet

/-- Why a function from outside the language gave no value. -/
inductive HostError where
  /-- It was called with the wrong number of arguments. -/
  | arity (name : String) (expected : Int) (given : Nat)
  /-- It was to print a whole number that is too large. -/
  | integerTooLarge
  /-- The host reported an error of some kind. -/
  | raised (kind text : String)
  deriving Repr, DecidableEq

/-- The wording for a whole number that no double comes near. -/
def integerTooLargeMessage : String := "int too large to convert to float"

def HostError.message : HostError → String
  | .arity name expected given =>
    s!"{name} expects {expected} arguments, got {given}"
  | .integerTooLarge => integerTooLargeMessage
  | .raised _ text => text

inductive EvalError where
  | badNumeral (text : String)
  | operandTypes (operator : Json) (left right : String)
  | divisionByZero
  | invalidOperator (operator : Json)
  | unsupportedOperator (operator : Json)
  /-- The callee is a node that is no identifier. -/
  | formNotCallable (form : String)
  /-- The callee's value is no function. -/
  | valueNotCallable (type : String)
  | undefinedFunction (name : Json)
  | builtinFailed (name : String) (cause : HostError)
  deriving Repr, BEq

namespace EvalError

def kind : EvalError → String
  | .badNumeral _ => "TypeMismatch"
  | .operandTypes .. => "TypeMismatch"
  | .divisionByZero => "DivisionByZero"
  | .invalidOperator _ => "InvalidOperator"
  | .unsupportedOperator _ => "UnsupportedOperator"
  | .formNotCallable _ => "NotAFunction"
  | .valueNotCallable _ => "NotAFunction"
  | .undefinedFunction _ => "FunctionNotFound"
  | .builtinFailed .. => "FunctionCallError"

/-- The message without the kind. -/
def detail : EvalError → String
  | .badNumeral text => s!"invalid number literal {Text.quoted text}"
  | .operandTypes operator left right =>
    s!"unsupported {operator.display} for {left} and {right}"
  | .divisionByZero => "division by zero"
  | .invalidOperator operator => s!"invalid operator {operator.inspect}"
  | .unsupportedOperator operator =>
    s!"unsupported operator {operator.inspect}"
  | .formNotCallable form => s!"{form} is not callable"
  | .valueNotCallable type => s!"{type} value is not callable"
  | .undefinedFunction name => s!"undefined function {name.display}"
  | .builtinFailed name cause => s!"{name}: {cause.message}"

def message (e : EvalError) : String := e.kind ++ ": " ++ e.detail

end EvalError

def tooDeepMessage : String := "maximum recursion depth exceeded"

/-- Everything that can end an evaluation without a value. -/
inductive Fault where
  | eval (error : EvalError)
  /-- A list or an object stands where a name is looked up or bound. -/
  | unhashable (found : String)
  /-- A number's text is neither a text nor a number. -/
  | notNumeric (found : String)
  /-- An operator is a value without a length. -/
  | noLength (found : String)
  /-- A parameter in a traced definition is no text. -/
  | parameterName (index : Nat) (found : String)
  /-- A whole number is too large to compute with or to show. -/
  | integerTooLarge
  /-- A list is evaluated as a node. -/
  | refused (refusal : Refusal)
  /-- The text of an error of the host could not be put together. -/
  | textFailed (kind text : String)
  | outOfMemory (text : String)
  | tooDeep
  deriving Repr, BEq

namespace Fault

def message : Fault → String
  | .eval error => error.message
  | .unhashable found => s!"unhashable type: '{found}'"
  | .notNumeric found =>
    s!"float() argument must be a string or a real number, not '{found}'"
  | .noLength found => s!"object of type '{found}' has no len()"
  | .parameterName index found =>
    s!"sequence item {index}: expected str instance, {found} found"
  | .integerTooLarge => integerTooLargeMessage
  | .refused refusal => refusal.message
  | .textFailed _ text => text
  | .outOfMemory text => text
  | .tooDeep => tooDeepMessage

end Fault

end Scriptlet
