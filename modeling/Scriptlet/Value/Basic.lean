import Scriptlet.Name
import Scriptlet.Tree.Basic

/-!
# Values

Programs compute with nil, numbers, strings and functions. Host functions
may also bring in truth values, whole numbers of any size, and objects of
their own that the language only passes around.

A function remembers where its definition stands, so that two functions
are the same exactly when they come from one definition, however often it
was evaluated.
-/

namespace Scriptlet

/-- Where a node stands: which loaded text or tree it belongs to, and the
positions of the children that lead to it, the innermost first. -/
structure Site where
  unit : Nat
  path : List Nat
  deriving Repr, DecidableEq, Inhabited

def Site.child (site : Site) (index : Nat) : Site :=
  { site with path := index :: site.path }

abbrev ScopeId := Nat

/-- A function that a program defined, with the scope of the definition. -/
structure Closure where
  name : Json
  params : List Json
  body : List Node
  scope : ScopeId
  site : Site
  deriving Repr, Inhabited

inductive Action where
  | puts
  | gets
  /-- The host function registered under a number. -/
  | host (index : Nat)
  deriving Repr, DecidableEq, Inhabited

/-- A function from outside the language. Without an arity it takes any
number of arguments. -/
structure Builtin where
  name : String
  action : Action
  arity : Option Int
  deriving Repr, DecidableEq, Inhabited

/-- An object of the host: the name of its type, and how it is shown. It is
inert: showing it always gives this text and does nothing else. -/
structure Foreign where
  type : String
  text : String
  deriving Repr, DecidableEq, Inhabited

inductive Value where
  | nil
  | boolean (value : Bool)
  | number (value : Float)
  | integer (value : Int)
  | string (value : String)
  | function (closure : Closure)
  | builtin (builtin : Builtin)
  | foreign (object : Foreign)
  deriving Repr, Inhabited

namespace Value

def typeName : Value → String
  | .nil => "Null"
  | .boolean _ => "Boolean"
  | .number _ => "Number"
  | .integer _ => "Number"
  | .string _ => "String"
  | .function _ => "Function"
  | .builtin _ => "BuiltinFunction"
  | .foreign object => object.type

/-- Doubles and whole numbers are numbers; truth values are not. -/
def isNumber : Value → Bool
  | .number _ => true
  | .integer _ => true
  | _ => false

/-- Whether a whole number and a double are equal, exactly. -/
def integerEqualsNumber (n : Int) (x : Float) : Bool :=
  (Binary64.ofFloat x).toInt? == some n

/-- Equality of values. Numbers compare by what they denote, truth values
counting as one and zero; functions by the site of their definition. -/
def same : Value → Value → Bool
  | .nil, .nil => true
  | .boolean a, .boolean b => a == b
  | .boolean a, .integer n => (if a then 1 else 0) == n
  | .integer n, .boolean a => (if a then 1 else 0) == n
  | .boolean a, .number x => integerEqualsNumber (if a then 1 else 0) x
  | .number x, .boolean a => integerEqualsNumber (if a then 1 else 0) x
  | .integer n, .integer m => n == m
  | .integer n, .number x => integerEqualsNumber n x
  | .number x, .integer n => integerEqualsNumber n x
  | .number x, .number y => x == y
  | .string a, .string b => a == b
  | .function f, .function g => f.site == g.site
  | .builtin f, .builtin g => f == g
  | .foreign a, .foreign b => a == b
  | _, _ => false

def countDistinct (values : List Value) : Nat :=
  (values.foldl
    (fun seen v => if seen.any (same v) then seen else v :: seen) []).length

end Value

end Scriptlet
